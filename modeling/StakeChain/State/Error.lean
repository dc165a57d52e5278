import StakeChain.Verdict
/-!
Why a chain state refuses a block or a request.
-/

namespace StakeChain

inductive StateError where
  | consensus (e : ConsensusError)
  | duplicateBlock (hash : Hash)
  | unknownPredecessor (hash prev : Hash)
  /-- A second block without a predecessor. -/
  | genesisExists (hash : Hash)
  | positionNotFound (id : Nat)
  /-- There is no block at all. -/
  | noBestTip
  | missingInput (outpoint : OutPoint)
  /-- Two inputs of one block spend one output. -/
  | doubleSpend (outpoint : OutPoint)
  /-- A checked block gives another proof than the one recorded for it. -/
  | proofMismatch (id : Nat) (recorded replayed : Hash)
  | predecessorNotIndexed (id : Nat)
  | wrongHeight (expected got : Nat)
  | genesisHeight (height : Nat)
  | stakedGenesis
  | stakedWithoutPredecessor
deriving DecidableEq

namespace StateError

/-- The error for a verdict. -/
def rejected (r : Rejection) : StateError := consensus (.rejected r)

def isRejection : StateError → Bool
  | consensus e => e.isRejection
  | _ => false

def rejection? : StateError → Option Rejection
  | consensus e => e.rejection?
  | _ => none

def message : StateError → String
  | consensus e => s!"Consensus error: {e.message}"
  | duplicateBlock hash => s!"Block already known: {hash}"
  | unknownPredecessor hash prev => s!"Unknown predecessor {prev} for block {hash}"
  | genesisExists hash => s!"Genesis already set, refusing block {hash}"
  | positionNotFound id => s!"Block not found: #{id}"
  | noBestTip => "Block not found: best tip"
  | missingInput outpoint => s!"Missing or spent input {outpoint}"
  | doubleSpend outpoint => s!"Output {outpoint} spent twice in one block"
  | proofMismatch id recorded replayed =>
    s!"Proof hash of #{id} replayed as {replayed}, recorded {recorded}"
  | predecessorNotIndexed id => s!"Invalid state transition: Predecessor #{id} not indexed"
  | wrongHeight expected got =>
    s!"Invalid state transition: Expected height {expected}, got {got}"
  | genesisHeight height => s!"Invalid state transition: Genesis at height {height}"
  | stakedGenesis => "Invalid state transition: Proof-of-stake genesis block"
  | stakedWithoutPredecessor =>
    "Invalid state transition: Proof-of-stake block without predecessor"

/-- The message, and below it the messages of what it wraps. -/
def causes (e : StateError) : List String :=
  e.message ::
    match e with
    | consensus c => c.causes
    | _ => []

end StateError

end StakeChain
