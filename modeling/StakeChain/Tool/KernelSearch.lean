import StakeChain.Tool.Replay
/-!
Kernel searches on a fixture: its blocks are replayed, and an output is tried on the best tip.
-/

namespace StakeChain

/-- What to search for. -/
structure SearchRequest where
  outpoint : OutPoint
  nBits : UInt32
  first : UInt32
  last : UInt32
deriving DecidableEq

/-- The first time in the range at which the output stakes, with its proof. -/
def kernelSearch (p : Parameters) (blocks : List CandidateBlock) (r : SearchRequest) :
    Except ToolError (Option (UInt32 × Hash)) := do
  if r.last < r.first then throw (.emptyRange r.first r.last)
  let done := replay p blocks
  let _ ← done.result
  (done.state.search r.outpoint r.nBits r.first r.last).mapError (.searchFailed r.outpoint)

end StakeChain
