import StakeChain.Verdict
/-!
Outputs to stake: an unspent output, and where in which block its transaction is.
-/

namespace StakeChain

/-- The header fields of the block that holds a staked output. -/
structure SourceBlock where
  hash : Hash
  height : Nat
  time : UInt32
deriving DecidableEq

structure StakeSource where
  outpoint : OutPoint
  output : Output
  /-- The transaction's time, where its format has one. -/
  txTime : Option UInt32
  block : SourceBlock
  /-- Bytes in the block before the transaction. -/
  txOffset : UInt32
deriving DecidableEq

/-- The transaction's time, or the block's where there is none. -/
def StakeSource.effectiveTime (s : StakeSource) : UInt32 := s.txTime.getD s.block.time

/-- A read-only view of the unspent outputs. No source means that the output does not exist or is
spent; an error, that the view could not load it. -/
abbrev OutputView := OutPoint → Except ConsensusError (Option StakeSource)

/-- The source of an outpoint; its absence is a verdict. -/
def OutputView.source (outputs : OutputView) (o : OutPoint) : Except ConsensusError StakeSource := do
  match ← outputs o with
  | some source => return source
  | none => throw (.rejected (.prevoutNotFound o))

end StakeChain
