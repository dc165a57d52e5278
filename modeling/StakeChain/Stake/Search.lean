import StakeChain.Stake.Kernel
/-!
The search for a time at which a source stakes. The weighted target is computed again only when the
time weight has changed since the last time tried.
-/

namespace StakeChain

/-- A time weight with the target that belongs to it. -/
structure CachedTarget where
  weight : Nat
  target : Nat

namespace StakeSource

/-- The target for a time weight, taken from the last one computed where that has the same weight. -/
def targetFrom (s : StakeSource) (p : Parameters) (perCoinDay : Nat) (last : Option CachedTarget)
    (weight : Nat) : CachedTarget :=
  match last with
  | some c => if c.weight = weight then c else ⟨weight, p.targetForWeight perCoinDay s.output.value weight⟩
  | none => ⟨weight, p.targetForWeight perCoinDay s.output.value weight⟩

/-- Tries `count` times from `time` on. -/
def searchWithin (s : StakeSource) (p : Parameters) (m : KernelModifier) (nBits : UInt32)
    (perCoinDay : Nat) : Nat → Nat → Option CachedTarget → Option (UInt32 × Hash)
  | 0, _, _ => none
  | count + 1, time, last =>
    let t := UInt32.ofNat time
    if p.isStakeTime t && (s.checkTimes p t).isOk then
      let c := s.targetFrom p perCoinDay last (p.timeWeight s.effectiveTime t)
      let proof := s.kernelHash m nBits t
      if proof.toNat ≤ c.target then some (t, proof)
      else s.searchWithin p m nBits perCoinDay count (time + 1) (some c)
    else s.searchWithin p m nBits perCoinDay count (time + 1) last

/-- The first time from `first` to `last` at which the source stakes, with its proof. -/
def search (s : StakeSource) (p : Parameters) (m : KernelModifier) (nBits first last : UInt32) :
    Option (UInt32 × Hash) :=
  s.searchWithin p m nBits (Target.ofCompact nBits) (last.toNat + 1 - first.toNat) first.toNat none

end StakeSource

end StakeChain
