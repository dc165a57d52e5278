import StakeChain.Chain.Position
import StakeChain.Verdict
/-!
A read-only view of the chain, and walks back along it. A view may be damaged: links may lead
nowhere, heights may disagree. It names finitely many positions, so a walk that ends at all ends
within that many steps, and every walk here stops there.
-/

namespace StakeChain

/-- Positions by id and by hash. Every id that has a position is below `size`. -/
structure View where
  size : Nat
  position : Nat → Option Position
  lookup : Hash → Option Nat
  position_eq_none : ∀ id, size ≤ id → position id = none

/-- What a walk back met: its blocks, nearest first, and the id without a position that it ran into,
if it did. -/
structure Trail where
  blocks : List Position
  lost : Option Nat

namespace Trail

/-- Failure for a walk that has run into an id without a position. -/
def ended {α : Type} (t : Trail) (result : α) : Except ConsensusError α :=
  match t.lost with
  | some id => .error (.missingPosition id)
  | none => .ok result

/-- The blocks met as long as `p` holds. -/
def takeWhile (t : Trail) (p : Position → Bool) : Except ConsensusError (List Position) :=
  if t.blocks.all p then t.ended t.blocks else .ok (t.blocks.takeWhile p)

/-- The first block met for which `p` holds. -/
def find? (t : Trail) (p : Position → Bool) : Except ConsensusError (Option Position) :=
  match t.blocks.find? p with
  | some b => .ok (some b)
  | none => t.ended none

end Trail

namespace View

/-- The view of a list of positions: ids count from zero, and of equal hashes the first is found. -/
def ofPositions (positions : Array Position) : View where
  size := positions.size
  position id := positions[id]?
  lookup hash := positions.findIdx? fun b => b.hash == hash
  position_eq_none _ h := Array.getElem?_eq_none h

def resolve (v : View) (id : Nat) : Except ConsensusError Position :=
  match v.position id with
  | some b => .ok b
  | none => .error (.missingPosition id)

/-- The walk back from `id`, at most `steps` ids long. -/
def trailWithin (v : View) : Nat → Option Nat → Trail
  | 0, _ => ⟨[], none⟩
  | _, none => ⟨[], none⟩
  | steps + 1, some id =>
    match v.position id with
    | none => ⟨[], some id⟩
    | some b =>
      let rest := v.trailWithin steps b.prev
      ⟨b :: rest.blocks, rest.lost⟩

/-- The walk back from `id`, which comes first. -/
def trail (v : View) (id : Nat) : Trail := v.trailWithin (v.size + 1) (some id)

/-- The walk back from `id` to a height, at most `steps` ids long. -/
def ancestorWithin (v : View) (height : Nat) : Nat → Nat → Option Nat
  | 0, _ => none
  | steps + 1, id =>
    (v.position id).bind fun b =>
      if b.height = height then some id
      else if b.height < height then none
      else b.prev.bind (v.ancestorWithin height steps)

/-- The position at a height on the branch that ends at `id`. -/
def ancestor (v : View) (id height : Nat) : Option Nat := v.ancestorWithin height (v.size + 1) id

/-- Whether `id` is on the branch that ends at `tip`. Nothing is on the branch without a tip. -/
def onBranch (v : View) (id : Nat) (tip : Option Nat) : Bool :=
  match tip, v.position id with
  | some tip, some b => v.ancestor tip b.height == some id
  | _, _ => false

end View

end StakeChain
