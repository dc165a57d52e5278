import StakeChain.Stake.Source
import StakeChain.Parameters
/-!
Coin age: value times holding time, in days of one coin. Each input counts in whole cents times
seconds, so that small inputs count at all.
-/

namespace StakeChain

def secondsPerDay : Nat := 24 * 60 * 60

/-- A value, counted as zero when it is negative. -/
def Output.amount (o : Output) : Nat := o.value.toInt.toNat

/-- The cent-seconds of one input spent at `time`. One below the minimum age counts nothing. -/
def StakeSource.centSeconds (p : Parameters) (time : UInt32) (s : StakeSource) :
    Except Rejection Nat :=
  if time < s.effectiveTime then .error (.timeBeforePrevious time s.effectiveTime)
  else if time.toNat < s.block.time.toNat + p.stakeMinAge.toNat then .ok 0
  else .ok (s.output.amount * (time.toNat - s.effectiveTime.toNat) / p.centUnits)

/-- The cent-seconds of all inputs, the first failure ending the sum. -/
def sumCentSeconds (p : Parameters) (outputs : OutputView) (time : UInt32) :
    List OutPoint → Except ConsensusError Nat
  | [] => .ok 0
  | input :: rest => do
    let source ← outputs.source input
    let n ← (source.centSeconds p time).mapError .rejected
    return n + (← sumCentSeconds p outputs time rest)

/-- Whole days of one coin from cent-seconds. -/
def Parameters.coinDays (p : Parameters) (centSeconds : Nat) : Nat :=
  centSeconds * p.centUnits / p.coinUnits / secondsPerDay

/-- The coin-days that a transaction at `time` consumes, of which the low sixty-four bits are kept.
A coinbase consumes none. -/
def Transaction.coinAge (tx : Transaction) (p : Parameters) (outputs : OutputView) (time : UInt32) :
    Except ConsensusError UInt64 :=
  if tx.isCoinbase then .ok 0
  else (sumCentSeconds p outputs time tx.inputs).map fun n => UInt64.ofNat (p.coinDays n)

end StakeChain
