import StakeChain.Transaction
import StakeChain.Text.Numeral
/-!
What a check can say against a block. A `Rejection` is a verdict about the candidate; every other
`ConsensusError` reports that the local view of the chain or of the outputs is damaged, and says
nothing about the candidate.
-/

namespace StakeChain

/-- The gates of the stake check, in the order they are passed, and the checkpoints after them. -/
inductive RejectionKind where
  | structural
  | timestamp
  | kernel
  | checkpoint
deriving DecidableEq

inductive Rejection where
  | notCoinstake (txid : Hash)
  | prevoutNotFound (outpoint : OutPoint)
  /-- The output's block is not on the branch that the candidate extends. -/
  | prevoutNotInChain (outpoint : OutPoint) (block : Hash)
  | tooShallow (depth required : Nat)
  | coinstakeTime (blockTime txTime : UInt32)
  | timeGranularity (txTime granularity : UInt32)
  /-- The coinstake claims a time before that of the transaction it spends. -/
  | timeBeforePrevious (txTime prevTime : UInt32)
  | belowMinAge (blockTime minAge txTime : UInt32)
  | modifierNotYetAvailable (block : Hash)
  | targetMissed (proof : Hash)
  | checkpointMismatch (height : Nat) (got expected : UInt32)
deriving DecidableEq

namespace Rejection

def kind : Rejection → RejectionKind
  | notCoinstake _ => .structural
  | prevoutNotFound _ => .structural
  | prevoutNotInChain _ _ => .structural
  | tooShallow _ _ => .timestamp
  | coinstakeTime _ _ => .timestamp
  | timeGranularity _ _ => .timestamp
  | timeBeforePrevious _ _ => .timestamp
  | belowMinAge _ _ _ => .timestamp
  | modifierNotYetAvailable _ => .kernel
  | targetMissed _ => .kernel
  | checkpointMismatch _ _ _ => .checkpoint

def message : Rejection → String
  | notCoinstake txid => s!"Not a coinstake transaction: {txid}"
  | prevoutNotFound outpoint => s!"Kernel prevout not found: {outpoint}"
  | prevoutNotInChain outpoint block =>
    s!"Kernel prevout {outpoint} is not in the active branch (block {block})"
  | tooShallow depth required => s!"Tried to stake at depth {depth}, required {required}"
  | coinstakeTime blockTime txTime =>
    s!"Coinstake timestamp violation: block {blockTime}, tx {txTime}"
  | timeGranularity txTime granularity =>
    s!"Coinstake timestamp {txTime} not a multiple of {granularity} seconds"
  | timeBeforePrevious txTime prevTime =>
    s!"Transaction time {txTime} precedes previous transaction time {prevTime}"
  | belowMinAge blockTime minAge txTime =>
    s!"Min age violation: block from {blockTime} + {minAge} > {txTime}"
  | modifierNotYetAvailable block => s!"Stake modifier for kernel block {block} not yet available"
  | targetMissed proof => s!"Kernel hash {proof} does not meet weighted target"
  | checkpointMismatch height got expected =>
    let hex (x : UInt32) := Text.markedHex 8 x.toNat
    s!"Stake modifier checkpoint mismatch at height {height}: got {hex got}, expected {hex expected}"

end Rejection

inductive ConsensusError where
  | rejected (reason : Rejection)
  | missingPosition (id : Nat)
  /-- The walk back from a position ended above the height asked for. -/
  | missingAncestor (start height : Nat)
  /-- No stake modifier was ever generated up to a position. -/
  | noModifierGeneration (id : Nat)
  | zeroModifierInterval
  /-- The view knows the output but could not load it. -/
  | corruptOutput (outpoint : OutPoint) (reason : String)
deriving DecidableEq

namespace ConsensusError

def isRejection : ConsensusError → Bool
  | rejected _ => true
  | _ => false

def rejection? : ConsensusError → Option Rejection
  | rejected reason => some reason
  | _ => none

def message : ConsensusError → String
  | rejected reason => s!"Rejected: {reason.message}"
  | missingPosition id => s!"Chain position #{id} missing from index"
  | missingAncestor start height => s!"Ancestor at height {height} of position #{start} not reachable"
  | noModifierGeneration id =>
    s!"No stake modifier generation found at or before position #{id}"
  | zeroModifierInterval =>
    "Invalid network parameter modifier_interval: must be greater than zero"
  | corruptOutput outpoint reason => s!"Output view corrupt for {outpoint}: {reason}"

/-- The message, and below it the message of the verdict that it wraps. -/
def causes (e : ConsensusError) : List String :=
  e.message :: (e.rejection?.map Rejection.message).toList

end ConsensusError

end StakeChain
