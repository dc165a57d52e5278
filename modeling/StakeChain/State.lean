import StakeChain.Checksum
import StakeChain.Chain.Index
import StakeChain.Ledger.OutputStore
import StakeChain.Modifier.Schedule
import StakeChain.Stake.Coinstake
import StakeChain.Stake.Search
import StakeChain.State.Block
/-!
The state of the chain: the index of accepted blocks, the outputs of all branches, and the
coinstakes by which accepted blocks were staked. Accepting a block is the only change; it checks
everything first and leaves the state as it is when anything fails.
-/

namespace StakeChain

/-- The coinstake of an accepted block, and the compact target it met. -/
structure StoredCoinstake where
  id : Nat
  tx : Transaction
  nBits : UInt32

structure ChainState where
  parameters : Parameters
  index : ChainIndex
  outputs : OutputStore
  coinstakes : List StoredCoinstake

/-- A block's id, with what checking it derived. -/
structure AcceptedBlock where
  id : Nat
  block : ValidatedBlock
deriving DecidableEq

/-- The position of a block before its checksum is known. -/
def CandidateBlock.unsummed (b : CandidateBlock) (prev : Option Nat) (height : Nat)
    (proof : Option Hash) (entropy : Bool) (next : NextModifier) : Position where
  prev := prev
  height := height
  time := b.time
  version := b.version
  hash := b.hash
  flags := .ofFacts proof.isSome entropy next.generated
  stakeModifier := next.modifier
  checksum := 0
  proofHash := proof.getD .zero

namespace ChainState

def empty (p : Parameters) : ChainState := ⟨p, .empty, .empty, []⟩

/-- The position that a block is to extend; none for the first block of the chain. -/
def predecessor (s : ChainState) (b : CandidateBlock) : Except StateError (Option Nat) :=
  if (s.index.lookup? b.hash).isSome then .error (.duplicateBlock b.hash)
  else
    match b.prevHash with
    | some prev =>
      match s.index.lookup? prev with
      | some id => .ok (some id)
      | none => .error (.unknownPredecessor b.hash prev)
    | none => if s.index.isEmpty then .ok none else .error (.genesisExists b.hash)

/-- The proof of a proof-of-stake block. -/
def proofOf (s : ChainState) (b : CandidateBlock) (prev : Option Nat) :
    Except StateError (Option Hash) :=
  match b.coinstake?, prev with
  | some tx, some id =>
    let outputs := s.outputs.outputView s.index.view prev
    match s.index.view.checkCoinstake outputs s.parameters id tx b.nBits b.time with
    | .ok proof => .ok (some proof)
    | .error e => .error (.consensus e)
  | some _, none => .error .stakedGenesis
  | none, _ => .ok none

/-- The height of the block after `prev`. -/
def nextHeight (s : ChainState) : Option Nat → Except StateError Nat
  | none => .ok 0
  | some prev =>
    match s.index.position? prev with
    | some b => .ok (b.height + 1)
    | none => .error (.positionNotFound prev)

/-- Makes every check of a block behind `prev`, and derives the position that it would get. -/
def evaluateAfter (s : ChainState) (b : CandidateBlock) (prev : Option Nat) :
    Except StateError (Position × ValidatedBlock) := do
  let v := s.index.view
  let proof ← s.proofOf b prev
  s.outputs.checkSpendable v prev b.transactions
  let height ← s.nextHeight prev
  let entropy := s.parameters.entropy b.time b.hash b.signatureDigest
  let next ← (v.nextModifier s.parameters prev).mapError .consensus
  let unsummed := b.unsummed prev height proof entropy next
  let checksum ← (v.checksumOf unsummed).mapError .consensus
  (s.parameters.enforceCheckpoint height checksum).mapError .rejected
  return ({ unsummed with checksum := checksum },
    ⟨height, next.modifier, checksum, next.generated, entropy, proof⟩)

/-- Makes every check, and derives the position that the block would get behind its predecessor. -/
def evaluate (s : ChainState) (b : CandidateBlock) : Except StateError (Position × ValidatedBlock) := do
  s.evaluateAfter b (← s.predecessor b)

/-- Checks a block without accepting it. -/
def check (s : ChainState) (b : CandidateBlock) : Except StateError ValidatedBlock :=
  (s.evaluate b).map Prod.snd

/-- Checks a block and connects it. -/
def accept (s : ChainState) (b : CandidateBlock) :
    Except StateError (ChainState × AcceptedBlock) := do
  let (position, validated) ← s.evaluate b
  let (index, id) ← s.index.insert position
  let source : SourceBlock := ⟨position.hash, position.height, position.time⟩
  let stored := b.coinstake?.map fun tx => ⟨id, tx, b.nBits⟩
  return ({ s with
    index := index
    outputs := s.outputs.connect index.view id source b.transactions
    coinstakes := s.coinstakes ++ stored.toList }, ⟨id, validated⟩)

/-- Checks the coinstake of an accepted block again, against its own branch. No proof for a
proof-of-work block. -/
def revalidate (s : ChainState) (id : Nat) : Except StateError (Option Hash) := do
  match s.index.position? id with
  | none => throw (.positionNotFound id)
  | some b =>
    match s.coinstakes.find? fun c => c.id == id with
    | none => return none
    | some c =>
      match b.prev with
      | none => throw .stakedWithoutPredecessor
      | some prev =>
        let v := s.index.view
        let outputs := s.outputs.outputView v (some prev)
        let proof ← (v.checkCoinstake outputs s.parameters prev c.tx c.nBits b.time).mapError .consensus
        if proof != b.proofHash then throw (.proofMismatch id b.proofHash proof)
        return some proof

/-- The first time from `first` to `last` at which an output stakes on the best tip, with the modifier
that is in force at `first`. -/
def search (s : ChainState) (o : OutPoint) (nBits first last : UInt32) :
    Except StateError (Option (UInt32 × Hash)) := do
  let v := s.index.view
  match s.index.best with
  | none => throw .noBestTip
  | some tip =>
    match s.outputs.get? v (some tip) o with
    | none => throw (.missingInput o)
    | some source =>
      let m ← (v.kernelModifier s.parameters tip source.block first).mapError .consensus
      return source.search s.parameters m nBits first last

end ChainState

end StakeChain
