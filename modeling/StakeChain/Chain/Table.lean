import Mathlib.Data.List.AList
import StakeChain.Chain.Index
/-!
The index kept in place, with a map from hashes to ids beside the blocks. A block is entered into the map
first, then the best tip is moved, and the block is appended last; what an insertion has written before it
fails stays written.
-/

namespace StakeChain

structure IndexTable where
  /-- The blocks, in order of acceptance. An id is a place in it. -/
  positions : Array Position
  /-- The ids of the blocks by hash. -/
  ids : AList fun _ : Hash => Nat
  best : Option Nat

namespace IndexTable

def empty : IndexTable := ⟨#[], ∅, none⟩

/-- The index without its map. -/
def index (t : IndexTable) : ChainIndex := ⟨t.positions, t.best⟩

/-- The view of the table: hashes are looked up in the map. -/
def view (t : IndexTable) : View where
  size := t.positions.size
  position id := t.positions[id]?
  lookup hash := t.ids.lookup hash
  position_eq_none _ h := Array.getElem?_eq_none h

/-- Appends a block in place; its id is the number of blocks before. -/
def insert (b : Position) : EStateM StateError IndexTable Nat := do
  if ((← get).ids.lookup b.hash).isSome then
    throw (.duplicateBlock b.hash)
  match (← get).index.checkLink b with
  | .error e => throw e
  | .ok () =>
    let id := (← get).positions.size
    modify fun t => { t with ids := t.ids.insert b.hash id }
    modify fun t => { t with best := (t.index.push b).best }
    modify fun t => { t with positions := t.positions.push b }
    return id

/-- The table that an insertion leaves, whether it succeeds or fails. -/
def offer (t : IndexTable) (b : Position) : IndexTable :=
  match insert b t with
  | .ok _ t' => t'
  | .error _ t' => t'

/-- The table after insertions one after another into an empty one. -/
def of (bs : List Position) : IndexTable := bs.foldl offer empty

end IndexTable

end StakeChain
