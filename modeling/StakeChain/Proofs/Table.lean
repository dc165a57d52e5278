import StakeChain.Chain.Table
import StakeChain.Proofs.Gates
import StakeChain.Proofs.Index
/-!
What the index keeps through insertions that succeed or fail. Links lead to older blocks one height below,
the map of hashes is the inverse of the blocks, and the best tip is the first of the highest blocks; so the
walk back from a block ends, at the one block of its branch that has the height looked for.
-/

namespace StakeChain

namespace View

/-- The walk back from an id to a height, turn by turn, with what it returns. -/
inductive WalksTo (v : View) (height : Nat) : Nat → Option Nat → Prop where
  | lost {id} : v.position id = none → WalksTo v height id none
  | here {id b} : v.position id = some b → b.height = height → WalksTo v height id (some id)
  | lower {id b} : v.position id = some b → b.height < height → WalksTo v height id none
  | first {id b} : v.position id = some b → height < b.height → b.prev = none →
      WalksTo v height id none
  | back {id b prev result} : v.position id = some b → height < b.height → b.prev = some prev →
      WalksTo v height prev result → WalksTo v height id result

variable {v : View} {id h x : Nat} {b : Position} {r r' : Option Nat}

/-- On any view a walk returns one thing at most. -/
theorem WalksTo.unique (hr : v.WalksTo h id r) (hr' : v.WalksTo h id r') : r = r' := by
  induction hr with
  | back hb hh hprev _ ih =>
    cases hr' with
    | back hb' _ hprev' hwalk =>
      obtain rfl := Option.some.inj (hb.symm.trans hb')
      obtain rfl := Option.some.inj (hprev.symm.trans hprev')
      exact ih hwalk
    | _ => grind
  | _ => cases hr' <;> grind

/-- What holds of a block when it holds of the one before, if there is one, holds of every block. -/
theorem Linked.block_induction (hl : v.Linked) {P : Nat → Position → Prop}
    (step : ∀ id b, v.position id = some b →
      (∀ prev a, b.prev = some prev → v.position prev = some a → P prev a) → P id b) :
    ∀ id b, v.position id = some b → P id b := by
  intro id
  induction id using Nat.strong_induction_on with
  | _ id ih =>
    intro b hb
    exact step id b hb fun prev a hprev ha => ih prev (hl.descends hb hprev) a ha

/-- Where links are sound every walk ends, with the ancestor: the steps that a view has suffice. -/
theorem Linked.walksTo_ancestor (hl : v.Linked) (id h : Nat) : v.WalksTo h id (v.ancestor id h) := by
  cases hid : v.position id with
  | none => exact ancestor_of_lost hid ▸ .lost hid
  | some b =>
    refine hl.block_induction (P := fun id _ => v.WalksTo h id (v.ancestor id h)) ?_ id b hid
    intro id b hb ih
    rw [hl.ancestor_eq hb]
    split
    · exact .here hb ‹_›
    · split
      · exact .lower hb ‹_›
      · have hlt : h < b.height := by omega
        cases hprev : b.prev with
        | none => exact .first hb hlt hprev
        | some prev =>
          obtain ⟨a, ha, -⟩ := hl.parent hb hprev
          exact .back hb hlt hprev (ih prev a hprev ha)

theorem Linked.walksTo_iff (hl : v.Linked) : v.WalksTo h id r ↔ r = v.ancestor id h :=
  ⟨fun hr => hr.unique (hl.walksTo_ancestor id h), fun hr => hr ▸ hl.walksTo_ancestor id h⟩

/-- Blocks of one branch have distinct heights. -/
theorem Linked.ancestor_eq_some_iff (hl : v.Linked) (hb : v.position id = some b) :
    v.ancestor id h = some x ↔
      Relation.ReflTransGen v.Parent x id ∧ ∃ a, v.position x = some a ∧ a.height = h := by
  constructor
  · exact ancestorWithin_reaches
  · rintro ⟨hreach, a, ha, rfl⟩
    have hon : v.onBranch x (some id) = true :=
      (hl.onBranch_iff_reaches _ (indexed_some.2 ⟨b, hb⟩)).2 ⟨id, rfl, hreach⟩
    simpa [onBranch_eq ha] using hon

/-- Up to its own height a branch has a block at every height. -/
theorem Linked.exists_ancestor (hl : v.Linked) (hb : v.position id = some b) (hh : h ≤ b.height) :
    ∃ x, v.ancestor id h = some x := by
  refine hl.block_induction (P := fun id b => h ≤ b.height → ∃ x, v.ancestor id h = some x) ?_ id b hb hh
  intro id b hb ih hh
  rw [hl.ancestor_eq hb]
  split
  · exact ⟨id, rfl⟩
  · rename_i hne
    rw [if_neg (by omega)]
    cases hprev : b.prev with
    | none =>
      have hzero := hl.root hb hprev
      omega
    | some prev =>
      obtain ⟨a, ha, hheight⟩ := hl.parent hb hprev
      exact ih prev a hprev ha (by omega)

end View

namespace ChainIndex

variable {ix : ChainIndex} {b : Position} {id : Nat}

theorem Sound.best_none_iff (hs : ix.Sound) : ix.best = none ↔ ix.size = 0 := by
  refine ⟨hs.best_none, fun hsize => Option.eq_none_iff_forall_ne_some.2 fun id hbest => ?_⟩
  obtain ⟨b, hb, -⟩ := hs.best_some hbest
  have : id < ix.size := View.position_lt_size hb
  omega

/-- The best tip is the one block that is the first of the highest. -/
theorem Sound.best_some_iff (hs : ix.Sound) : ix.best = some id ↔ ∃ b, ix.view.position id = some b ∧
    ∀ j c, ix.view.position j = some c → c.height ≤ b.height ∧ (c.height = b.height → id ≤ j) := by
  constructor
  · intro hbest
    obtain ⟨b, hb, hmax⟩ := hs.best_some hbest
    exact ⟨b, hb, fun j c hc => hmax hc⟩
  · rintro ⟨b, hb, hmax⟩
    cases hbest : ix.best with
    | none =>
      have : id < ix.size := View.position_lt_size hb
      have := hs.best_none hbest
      omega
    | some best =>
      obtain ⟨a, ha, hmax'⟩ := hs.best_some hbest
      obtain ⟨hle, hfirst⟩ := hmax best a ha
      obtain ⟨hle', hfirst'⟩ := hmax' hb
      have := hfirst (by omega)
      have := hfirst' (by omega)
      exact congrArg some (by omega)

end ChainIndex

namespace IndexTable

variable {t t' : IndexTable} {b : Position} {id : Nat} {e : StateError}

/-- The table with a block at the end. -/
def push (t : IndexTable) (b : Position) : IndexTable where
  positions := t.positions.push b
  ids := t.ids.insert b.hash t.positions.size
  best := (t.index.push b).best

/-- What is done with the table that was read is done with the table as it is. -/
theorem get_bind {α : Type} (f : IndexTable → EStateM StateError IndexTable α) :
    (get >>= f) t = f t t := rfl

theorem index_push : (t.push b).index = t.index.push b := rfl

/-- An insertion makes all its checks before the first write: one that fails has written nothing, and one
that succeeds has appended the block. -/
theorem insert_eq (t : IndexTable) (b : Position) : insert b t =
    if (t.ids.lookup b.hash).isSome then .error (.duplicateBlock b.hash) t
    else
      match t.index.checkLink b with
      | .error e => .error e t
      | .ok () => .ok t.positions.size (t.push b) := by
  rw [insert, get_bind]
  cases (t.ids.lookup b.hash).isSome with
  | true => rfl
  | false =>
    simp only [Bool.false_eq_true, if_false]
    rw [get_bind]
    cases t.index.checkLink b <;> rfl

/-- What insertions keep: the index is sound, the map agrees with the blocks, and only the first block has
none before it. -/
structure Kept (t : IndexTable) : Prop where
  sound : t.index.Sound
  ids : ∀ h, t.ids.lookup h = t.index.lookup? h
  first : ∀ {id b}, t.index.view.position id = some b → b.prev = none → id = 0

theorem kept_empty : empty.Kept where
  sound := ChainIndex.sound_empty
  ids h := by simp [empty, index, ChainIndex.lookup?, ChainIndex.view, View.ofPositions]
  first hb := by simp [index, empty, ChainIndex.view, View.ofPositions] at hb

/-- With the map the table shows what the blocks alone show. -/
theorem Kept.view_eq (h : t.Kept) : t.view = t.index.view := by
  have hlookup : t.view.lookup = t.index.view.lookup := funext h.ids
  simp only [view, index, ChainIndex.view, View.ofPositions] at hlookup ⊢
  simp only [hlookup]

theorem Kept.push (h : t.Kept) (hb : t.index.checkInsert b = .ok ()) : (t.push b).Kept where
  sound := h.sound.push hb
  ids hash := by
    obtain ⟨hnew, -⟩ := ChainIndex.checkInsert_eq_ok.1 hb
    rw [index_push, ChainIndex.lookup?, ChainIndex.lookup_push]
    by_cases heq : hash = b.hash
    · subst heq
      have hold : t.index.view.lookup b.hash = none := hnew
      rw [hold]
      simp [IndexTable.push, ChainIndex.size, index]
    · have hne : (b.hash == hash) = false := by simpa using Ne.symm heq
      simp [IndexTable.push, AList.lookup_insert_ne heq, hne, h.ids, ChainIndex.lookup?]
  first := by
    intro id c hc
    rw [index_push] at hc
    refine ChainIndex.forall_push (P := fun id c => c.prev = none → id = 0) ?_ ?_ id c hc
    · exact fun hprev => ((ChainIndex.checkInsert_eq_ok.1 hb).2.2 hprev).1
    · exact fun _ _ hc => h.first hc

/-- Insertion in place is insertion into the index. -/
theorem Kept.insert_eq (h : t.Kept) (b : Position) : insert b t =
    match t.index.insert b with
    | .ok (_, id) => .ok id (t.push b)
    | .error e => .error e t := by
  rw [IndexTable.insert_eq, h.ids, ChainIndex.insert, ChainIndex.checkInsert]
  split
  · rfl
  · cases t.index.checkLink b <;> rfl

theorem Kept.offer (h : t.Kept) (b : Position) : (t.offer b).Kept := by
  rw [IndexTable.offer, h.insert_eq]
  cases hinsert : t.index.insert b with
  | error e => exact h
  | ok r => exact h.push (ChainIndex.insert_eq_ok.1 hinsert).1

theorem kept_of (bs : List Position) : (of bs).Kept := by
  have run : ∀ {t}, t.Kept → (bs.foldl IndexTable.offer t).Kept := by
    induction bs with
    | nil => exact id
    | cons b bs ih => exact fun h => ih (h.offer b)
  exact run kept_empty

/-- A block that the table takes: its hash is new, and it is one above the block before it, or the first. -/
structure Admits (t : IndexTable) (b : Position) : Prop where
  fresh : t.view.lookup b.hash = none
  behind : ∀ prev, b.prev = some prev → ∃ a, t.view.position prev = some a ∧ b.height = a.height + 1
  first : b.prev = none → t.positions.size = 0 ∧ b.height = 0

theorem Kept.admits_iff (h : t.Kept) : t.Admits b ↔ t.index.checkInsert b = .ok () := by
  rw [ChainIndex.checkInsert_eq_ok, ChainIndex.lookup?, ← h.view_eq]
  exact ⟨fun ⟨hfresh, hbehind, hfirst⟩ => ⟨hfresh, hbehind, hfirst⟩,
    fun ⟨hfresh, hbehind, hfirst⟩ => ⟨hfresh, hbehind, hfirst⟩⟩

/-- What an index is to its readers: an arena of blocks with links to older ones, the inverse map of their
hashes, the first of the highest blocks, and walks back that end where they should. -/
structure Exact (t : IndexTable) : Prop where
  older : ∀ {id b prev}, t.view.position id = some b → b.prev = some prev → prev < id
  first : ∀ {id b}, t.view.position id = some b → (b.prev = none ↔ id = 0)
  height_first : ∀ {id b}, t.view.position id = some b → b.prev = none → b.height = 0
  height_next : ∀ {id b prev}, t.view.position id = some b → b.prev = some prev →
    ∃ a, t.view.position prev = some a ∧ b.height = a.height + 1
  lookup : ∀ {hash id}, t.view.lookup hash = some id ↔
    ∃ b, t.view.position id = some b ∧ b.hash = hash
  distinct : ∀ {i j b c}, t.view.position i = some b → t.view.position j = some c →
    b.hash = c.hash → i = j
  best_none : t.best = none ↔ t.positions.size = 0
  best_some : ∀ {id}, t.best = some id ↔ ∃ b, t.view.position id = some b ∧
    ∀ j c, t.view.position j = some c → c.height ≤ b.height ∧ (c.height = b.height → id ≤ j)
  walk : ∀ {id height result}, t.view.WalksTo height id result ↔ result = t.view.ancestor id height
  ancestor : ∀ {id b height}, t.view.position id = some b → height ≤ b.height →
    ∃ x, t.view.ancestor id height = some x ∧ ∀ y, y = x ↔
      Relation.ReflTransGen t.view.Parent y id ∧ ∃ a, t.view.position y = some a ∧ a.height = height
  too_high : ∀ {id b height}, t.view.position id = some b → b.height < height →
    t.view.ancestor id height = none
  lost : ∀ {id height}, t.view.position id = none → t.view.ancestor id height = none
  onBranch : ∀ {x tip}, t.view.onBranch x (some tip) = true ↔
    (∃ b, t.view.position tip = some b) ∧ Relation.ReflTransGen t.view.Parent x tip

theorem Kept.exact (h : t.Kept) : t.Exact := by
  have hl : t.view.Linked := h.view_eq ▸ h.sound.linked
  refine ⟨hl.descends, ?_, hl.root, hl.parent, hl.lookup_iff, hl.distinct, ?_, ?_, hl.walksTo_iff, ?_, ?_,
    View.ancestor_of_lost, hl.onBranch_iff⟩
  · intro id b hb
    refine ⟨h.first hb, ?_⟩
    rintro rfl
    refine Option.eq_none_iff_forall_ne_some.2 fun prev hprev => ?_
    have := hl.descends hb hprev
    omega
  · exact h.sound.best_none_iff
  · exact h.sound.best_some_iff
  · intro id b height hb hh
    obtain ⟨x, hx⟩ := hl.exists_ancestor hb hh
    refine ⟨x, hx, fun y => ?_⟩
    rw [← hl.ancestor_eq_some_iff hb, hx, Option.some.injEq, eq_comm]
  · intro id b height hb hh
    rw [hl.ancestor_eq hb, if_neg (by omega), if_pos hh]

end IndexTable

/-- After any insertions, successful or failing, the index is what its readers take it for. The next
insertion is that of the plain index: it appends a block that is admitted, and changes nothing for any other. -/
theorem index_exact (bs : List Position) :
    (IndexTable.of bs).Exact ∧
      ∀ b, match IndexTable.insert b (IndexTable.of bs) with
        | .error e t' => t' = IndexTable.of bs ∧ ¬ (IndexTable.of bs).Admits b ∧
            (IndexTable.of bs).index.insert b = .error e
        | .ok id t' => id = (IndexTable.of bs).positions.size ∧
            t'.positions = (IndexTable.of bs).positions.push b ∧ (IndexTable.of bs).Admits b ∧
            (IndexTable.of bs).index.insert b = .ok (t'.index, id) := by
  have h := IndexTable.kept_of bs
  refine ⟨h.exact, fun b => ?_⟩
  rw [h.insert_eq]
  cases hinsert : (IndexTable.of bs).index.insert b with
  | error e =>
    refine ⟨rfl, fun hadmits => ?_, rfl⟩
    have hok := ChainIndex.insert_eq_ok.2 ⟨h.admits_iff.1 hadmits, rfl, rfl⟩
    rw [hok] at hinsert
    simp at hinsert
  | ok r =>
    obtain ⟨hchecked, hpush, hid⟩ := ChainIndex.insert_eq_ok.1 hinsert
    exact ⟨hid, rfl, h.admits_iff.2 hchecked, congrArg Except.ok (Prod.ext hpush rfl)⟩

namespace SmallChain

/-- A block with nothing but its place and its hash. -/
def placed (prev : Option Nat) (height : Nat) (hash : UInt8) : Position :=
  ⟨prev, height, 1600000000, 1, digest hash, ⟨0⟩, 0, 0, .zero⟩

/-- A first block, two blocks after it and a third one behind the later of them, with insertions in between
that fail: a second first block, a hash that is known, a height that is skipped, and a block behind none. -/
def fork : List Position :=
  [placed none 0 1, placed none 0 2, placed (some 0) 1 3, placed (some 0) 1 1, placed (some 0) 1 4,
    placed (some 0) 5 5, placed (some 9) 1 6, placed (some 2) 2 7]

end SmallChain

open SmallChain in
/-- Of the fork four blocks are kept. The last is the best tip, and the block that was the first at height
one is not on its branch. -/
theorem index_exact_fork : (IndexTable.of fork).positions.size = 4 ∧
    (IndexTable.of fork).best = some 3 ∧
    (IndexTable.of fork).view.ancestor 3 1 = some 2 ∧
    ¬ Relation.ReflTransGen (IndexTable.of fork).view.Parent 1 3 := by
  refine ⟨by decide +kernel, by decide +kernel, by decide +kernel, fun hreach => ?_⟩
  have hfound : ((IndexTable.of fork).view.position 3).isSome = true := by decide +kernel
  have hoff : (IndexTable.of fork).view.onBranch 1 (some 3) = false := by decide +kernel
  have hon := (index_exact fork).1.onBranch.2 ⟨Option.isSome_iff_exists.1 hfound, hreach⟩
  rw [hoff] at hon
  exact Bool.false_ne_true hon

end StakeChain
