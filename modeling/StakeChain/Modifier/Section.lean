import StakeChain.Parameters
/-!
The selection interval: the span of time before a modifier's generation from which its bits are
drawn. It is cut into sixty-four sections, each at least as long as the one before, so that recent
blocks have more chances.
-/

namespace StakeChain

/-- The number of bits of a modifier, and so of rounds and of sections. -/
def modifierRounds : Nat := 64

/-- How many times longer the last section is than the first. -/
def sectionRatio : Nat := 3

/-- The length of section `n` for a modifier interval; the last section is as long as the interval. -/
def sectionLength (interval n : Nat) : Nat := interval * 63 / (63 + (63 - n) * (sectionRatio - 1))

/-- The length of the first `n` sections together. -/
def sectionsLength (interval : Nat) : Nat → Nat
  | 0 => 0
  | n + 1 => sectionsLength interval n + sectionLength interval n

/-- The length of all sections together. -/
def selectionLength (interval : Nat) : Nat := sectionsLength interval modifierRounds

namespace Parameters

/-- The length in seconds of section `n`. -/
def selectionSection (p : Parameters) (n : Nat) : Nat := sectionLength p.modifierInterval.toNat n

/-- The length in seconds of the selection interval. -/
def selectionInterval (p : Parameters) : Nat := selectionLength p.modifierInterval.toNat

end Parameters

end StakeChain
