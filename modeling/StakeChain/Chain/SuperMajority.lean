import StakeChain.Chain.View
import StakeChain.Protocol
/-!
Majorities of block versions. Walking back from a block, proof-of-stake blocks are counted until
the window is full or enough of them have the version; proof-of-work blocks are passed over.
-/

namespace StakeChain

namespace View

/-- Counts on along the walk back from an id, at most `steps` ids long: `found` of the `checked`
proof-of-stake blocks so far have the version. -/
def countVersions (v : View) (minVersion : Int32) (required window : Nat) :
    (steps found checked : Nat) → Option Nat → Except ConsensusError Bool
  | 0, found, _, _ => .ok (required ≤ found)
  | _, found, _, none => .ok (required ≤ found)
  | steps + 1, found, checked, some id =>
    if window ≤ checked ∨ required ≤ found then .ok (required ≤ found)
    else
      match v.resolve id with
      | .error e => .error e
      | .ok b =>
        if b.flags.proofOfStake then
          let found := if minVersion ≤ b.version then found + 1 else found
          v.countVersions minVersion required window steps found (checked + 1) b.prev
        else v.countVersions minVersion required window steps found checked b.prev

/-- Whether at least `required` of the last `window` proof-of-stake blocks up to `start` have
version `minVersion` or later. Between two of these blocks lie fewer ids than the view has, even
where links lead round in a circle, so the steps suffice for a walk that ends. -/
def hasSuperMajority (v : View) (minVersion : Int32) (start required window : Nat) :
    Except ConsensusError Bool :=
  v.countVersions minVersion required window ((window + 1) * (v.size + 1)) 0 0 (some start)

/-- Whether the block after `prev` follows version 0.6: its time has come, and the majority stands. -/
def followsV06 (v : View) (p : Parameters) (prev : Nat) : Except ConsensusError Bool := do
  let b ← v.resolve prev
  if b.time < p.switches.v06 then return false
  let rule := p.v06Majority
  v.hasSuperMajority rule.minVersion prev rule.required.toNat rule.window.toNat

end View

end StakeChain
