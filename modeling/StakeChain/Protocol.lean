import StakeChain.Parameters
/-!
Versions of the protocol that a time alone switches on. A version is in force at its switch time
and at every later time.
-/

namespace StakeChain

/-- The versions switched on by time, in the order of their numbers. -/
inductive Feature where
  /-- A stake modifier in the kernel, weight counted from the minimum age, coinstake time equal to
  block time. -/
  | v03
  /-- Entropy from the block's hash. -/
  | v04
  /-- The modifier of the block before in the kernel. -/
  | v05
  | v07
  | btc16Bips
  /-- Coinstake times on a grid. -/
  | v09
  /-- Transactions without a time. -/
  | v10
  | v12
deriving DecidableEq

namespace Feature

def all : List Feature := [v03, v04, v05, v07, btc16Bips, v09, v10, v12]

def name : Feature → String
  | v03 => "v0.3"
  | v04 => "v0.4"
  | v05 => "v0.5"
  | v07 => "v0.7"
  | btc16Bips => "btc-0.16-bips"
  | v09 => "v0.9"
  | v10 => "v10"
  | v12 => "v12"

/-- When the version switches on. -/
def switchTime (f : Feature) (s : SwitchTable) : UInt32 :=
  match f with
  | v03 => s.v03
  | v04 => s.v04
  | v05 => s.v05
  | v07 => s.v07
  | btc16Bips => s.btc16Bips
  | v09 => s.v09
  | v10 => s.v10
  | v12 => s.v12

end Feature

/-- Whether a version is in force at a time. -/
def Parameters.inForce (p : Parameters) (f : Feature) (time : UInt32) : Bool :=
  f.switchTime p.switches ≤ time

end StakeChain
