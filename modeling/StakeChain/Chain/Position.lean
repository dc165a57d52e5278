import StakeChain.Hash.Text
/-!
A block's place in the chain, with what later blocks read from it.
-/

namespace StakeChain

/-- Three facts about a block in one word. The word is part of the hashed message of the modifier
checksum, so other bits, if there are any, count there. -/
structure Flags where
  bits : UInt32
deriving DecidableEq

namespace Flags

def ofFacts (proofOfStake entropy generated : Bool) : Flags :=
  ⟨(if proofOfStake then 1 else 0) ||| (if entropy then 2 else 0) ||| (if generated then 4 else 0)⟩

def proofOfStake (f : Flags) : Bool := f.bits &&& 1 != 0

/-- The bit that the block gives to stake modifiers. -/
def entropy (f : Flags) : Bool := f.bits &&& 2 != 0

/-- Whether a new stake modifier starts at the block. -/
def generated (f : Flags) : Bool := f.bits &&& 4 != 0

end Flags

/-- A block accepted into the chain. Its id and its height are plain numbers: a chain is taken to have fewer than
`2 ^ 32` blocks, so that both fit a word of thirty-two bits. -/
structure Position where
  /-- The id of the block before; absent for the first. -/
  prev : Option Nat
  height : Nat
  time : UInt32
  version : Int32
  hash : Hash
  flags : Flags
  stakeModifier : UInt64
  /-- The checksum chained over the modifiers up to this block. -/
  checksum : UInt32
  /-- The kernel's proof, zero for a proof-of-work block. -/
  proofHash : Hash
deriving DecidableEq

/-- The hash that stands for the block when modifier bits are drawn. -/
def Position.drawHash (b : Position) : Hash := if b.flags.proofOfStake then b.proofHash else b.hash

end StakeChain
