import StakeChain.Chain.View
import StakeChain.State.Error
/-!
The index of accepted blocks. Blocks are only appended, each after its predecessor, so links point
to smaller ids; the best tip is the first block of the greatest height.
-/

namespace StakeChain

/-- The accepted blocks. They are taken to be fewer than `2 ^ 32`, so that the next id fits a word of thirty-two
bits, and with it every height: heights go up one by one from zero. -/
structure ChainIndex where
  /-- The blocks, in order of acceptance. An id is a place in it. -/
  positions : Array Position
  best : Option Nat

namespace ChainIndex

def empty : ChainIndex := ⟨#[], none⟩

def size (ix : ChainIndex) : Nat := ix.positions.size

def isEmpty (ix : ChainIndex) : Bool := ix.positions.isEmpty

def view (ix : ChainIndex) : View := .ofPositions ix.positions

def position? (ix : ChainIndex) (id : Nat) : Option Position := ix.view.position id

def lookup? (ix : ChainIndex) (hash : Hash) : Option Nat := ix.view.lookup hash

/-- The best tip with its position. -/
def bestTip? (ix : ChainIndex) : Option (Nat × Position) :=
  ix.best.bind fun id => (ix.position? id).map fun b => (id, b)

def bestHeight? (ix : ChainIndex) : Option Nat := ix.bestTip?.map fun tip => tip.2.height

/-- The blocks with their ids, in order of acceptance. -/
def toList (ix : ChainIndex) : List (Nat × Position) :=
  ix.positions.toList.zipIdx.map fun b => (b.2, b.1)

/-- Whether a block fits behind its predecessor, or as the first block of an empty index. -/
def checkLink (ix : ChainIndex) (b : Position) : Except StateError Unit :=
  match b.prev with
  | some prev =>
    match ix.position? prev with
    | none => .error (.predecessorNotIndexed prev)
    | some parent =>
      if b.height = parent.height + 1 then .ok ()
      else .error (.wrongHeight (parent.height + 1) b.height)
  | none =>
    if !ix.isEmpty then .error (.genesisExists b.hash)
    else if b.height = 0 then .ok ()
    else .error (.genesisHeight b.height)

/-- Whether a block can be appended: its hash is new, and it fits. -/
def checkInsert (ix : ChainIndex) (b : Position) : Except StateError Unit :=
  if (ix.lookup? b.hash).isSome then .error (.duplicateBlock b.hash) else ix.checkLink b

/-- The index with a block at the end. -/
def push (ix : ChainIndex) (b : Position) : ChainIndex where
  positions := ix.positions.push b
  best :=
    match ix.bestHeight? with
    | some height => if height < b.height then some ix.size else ix.best
    | none => some ix.size

/-- Appends a block; its id is the number of blocks before. -/
def insert (ix : ChainIndex) (b : Position) : Except StateError (ChainIndex × Nat) :=
  (ix.checkInsert b).map fun _ => (ix.push b, ix.size)

end ChainIndex

end StakeChain
