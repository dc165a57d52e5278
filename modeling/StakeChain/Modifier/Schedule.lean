import StakeChain.Chain.View
import StakeChain.Modifier.Draw
/-!
When a stake modifier is generated. Time is cut into intervals of equal length; the block after
`prev` gets a new modifier when `prev` lies in a later interval than the last block with a new one,
and the modifier of `prev` otherwise.
-/

namespace StakeChain

/-- The modifier of a block to come. -/
structure NextModifier where
  modifier : UInt64
  /-- Whether it starts at that block. -/
  generated : Bool
deriving DecidableEq

/-- The number of the interval that a time lies in. -/
def Parameters.intervalOf (p : Parameters) (time : UInt32) : Nat :=
  time.toNat / p.modifierInterval.toNat

namespace View

/-- The last block up to `id` at which a modifier was generated. -/
def lastGenerated (v : View) (id : Nat) : Except ConsensusError Position := do
  match ← (v.trail id).find? fun b => b.flags.generated with
  | some b => return b
  | none => throw (.noModifierGeneration id)

/-- The modifier of the block after `prev`. The first block of the chain has modifier zero. -/
def nextModifier (v : View) (p : Parameters) : Option Nat → Except ConsensusError NextModifier
  | none => .ok ⟨0, true⟩
  | some prev => do
    let tip ← v.resolve prev
    let last ← v.lastGenerated prev
    if p.modifierInterval = 0 then throw .zeroModifierInterval
    if p.intervalOf tip.time ≤ p.intervalOf last.time then
      return ⟨last.stakeModifier, false⟩
    let start : Int :=
      (p.intervalOf tip.time * p.modifierInterval.toNat : Nat) - (p.selectionInterval : Int)
    let window ← (v.trail prev).takeWhile fun b => start ≤ (b.time.toNat : Int)
    return ⟨drawModifier p last.stakeModifier start window.reverse, true⟩

end View

end StakeChain
