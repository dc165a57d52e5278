import StakeChain.State
/-!
Requests on a state that is kept in place. A request writes one part of the state after another, and
when it fails, what it has written before stays written: nothing is taken back. `Update.accept` accepts
a block in this way, with its checks and its writes in order.
-/

namespace StakeChain

/-- A request on the state in place. -/
abbrev Update := EStateM StateError ChainState

namespace Update

/-- Reads the state for a check, and writes nothing. -/
def read {α : Type} (check : ChainState → Except StateError α) : Update α := do
  match check (← get) with
  | .ok a => return a
  | .error e => throw e

/-- Appends a position to the index: after its own checks the best tip is written, and then the
position. -/
def insert (b : Position) : Update Nat := do
  read fun s => s.index.checkInsert b
  let id := (← get).index.size
  modify fun s => { s with index := { s.index with best := (s.index.push b).best } }
  modify fun s => { s with index := { s.index with positions := s.index.positions.push b } }
  return id

/-- Checks a block. -/
def check (b : CandidateBlock) : Update ValidatedBlock := do
  let (_, validated) ← read fun s => s.evaluate b
  return validated

/-- Checks a block and connects it: the index is written first, then the outputs, then the coinstake. -/
def accept (b : CandidateBlock) : Update AcceptedBlock := do
  let (position, validated) ← read fun s => s.evaluate b
  let id ← insert position
  let source : SourceBlock := ⟨position.hash, position.height, position.time⟩
  modify fun s => { s with outputs := s.outputs.connect s.index.view id source b.transactions }
  if let some tx := b.coinstake? then
    modify fun s => { s with coinstakes := s.coinstakes ++ [⟨id, tx, b.nBits⟩] }
  return ⟨id, validated⟩

end Update

end StakeChain
