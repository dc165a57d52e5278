import StakeChain.Protocol
import StakeChain.Stake.CoinAge
import StakeChain.Target
/-!
The weight of a stake in coin-days, and the target it makes for the kernel. Age counts up to a
maximum, and from version 0.3 on only beyond the minimum age.
-/

namespace StakeChain

namespace Parameters

/-- Seconds of age that count at `time` for an output first seen at `prevTime`. -/
def timeWeight (p : Parameters) (prevTime time : UInt32) : Nat :=
  let age := min ((time.toNat : Int) - prevTime.toNat) p.stakeMaxAge.toNat
  let weight := if p.inForce .v03 time then age - p.stakeMinAge.toNat else age
  weight.toNat

/-- The coin-days of a value over a time; nothing where either is not positive. -/
def coinDayWeight (p : Parameters) (value timeWeight : Int) : Nat :=
  value.toNat * timeWeight.toNat / p.coinUnits / secondsPerDay

/-- The target of a value with a time weight, from the target of one coin-day. -/
def targetForWeight (p : Parameters) (perCoinDay : Nat) (value : Int64) (timeWeight : Nat) : Nat :=
  Target.truncate (p.coinDayWeight value.toInt timeWeight * perCoinDay)

/-- The target for staking `value` at `time`, first seen at `prevTime`. -/
def weightedTarget (p : Parameters) (nBits : UInt32) (value : Int64) (prevTime time : UInt32) : Nat :=
  p.targetForWeight (Target.ofCompact nBits) value (p.timeWeight prevTime time)

end Parameters

end StakeChain
