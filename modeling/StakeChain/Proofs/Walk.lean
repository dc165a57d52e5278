import Mathlib.Logic.Relation
import Mathlib.Tactic.Common
import StakeChain.Chain.View
/-!
Walks back along a view whose links are sound. Every walk of the model takes its steps from the size
of the view; here the steps are shown to suffice, so that each walk obeys the recursion it stands
for: the branch that ends at a block is the block itself and the branch that ends at its predecessor.
Blocks above a branch are never read, so a view that only grew gives the same walks from old tips.
-/

namespace StakeChain

namespace View

/-- `x` is the id of the block before `id`. -/
def Parent (v : View) (x id : Nat) : Prop := ∃ b, v.position id = some b ∧ b.prev = some x

/-- Links lead to positions with smaller ids. -/
structure Ordered (v : View) : Prop where
  descends : ∀ {id b prev}, v.position id = some b → b.prev = some prev → prev < id
  found : ∀ {id b prev}, v.position id = some b → b.prev = some prev → ∃ a, v.position prev = some a

/-- Links lead to smaller ids one height below, only the first height has none, and hashes name
positions one to one. -/
structure Linked (v : View) : Prop where
  descends : ∀ {id b prev}, v.position id = some b → b.prev = some prev → prev < id
  parent : ∀ {id b prev}, v.position id = some b → b.prev = some prev →
    ∃ a, v.position prev = some a ∧ b.height = a.height + 1
  root : ∀ {id b}, v.position id = some b → b.prev = none → b.height = 0
  lookup_iff : ∀ {h id}, v.lookup h = some id ↔ ∃ b, v.position id = some b ∧ b.hash = h

/-- The tip, if there is one, has a position. -/
def Indexed (v : View) (tip : Option Nat) : Prop := ∀ id ∈ tip, ∃ b, v.position id = some b

/-- The blocks of the branch that ends at `tip`, latest first. -/
def branch (v : View) (tip : Option Nat) : List Position := (v.trailWithin (v.size + 1) tip).blocks

variable {v w : View} {id x h : Nat} {b : Position} {tip : Option Nat}

theorem position_lt_size (hb : v.position id = some b) : id < v.size := by
  by_contra hge
  rw [v.position_eq_none id (by omega)] at hb
  simp at hb

theorem indexed_none : v.Indexed none := by
  intro id hid
  simp at hid

theorem indexed_some : v.Indexed (some id) ↔ ∃ b, v.position id = some b := by simp [Indexed]

theorem Linked.ordered (hl : v.Linked) : v.Ordered where
  descends := hl.descends
  found hb hprev := by
    obtain ⟨a, ha, -⟩ := hl.parent hb hprev
    exact ⟨a, ha⟩

theorem Ordered.indexed_prev (ho : v.Ordered) (hb : v.position id = some b) : v.Indexed b.prev :=
  fun _ hprev => ho.found hb hprev

theorem Linked.indexed_prev (hl : v.Linked) (hb : v.position id = some b) : v.Indexed b.prev :=
  hl.ordered.indexed_prev hb

theorem Linked.distinct (hl : v.Linked) {i j : Nat} {c : Position} (hb : v.position i = some b)
    (hc : v.position j = some c) (hash : b.hash = c.hash) : i = j := by
  have hi : v.lookup c.hash = some i := hl.lookup_iff.2 ⟨b, hb, hash⟩
  have hj : v.lookup c.hash = some j := hl.lookup_iff.2 ⟨c, hc, rfl⟩
  rw [hi] at hj
  exact Option.some.inj hj

/-- What holds without a tip, and of a block when it holds of the one before, holds of every tip. -/
theorem Ordered.tip_induction (ho : v.Ordered) {P : Option Nat → Prop} (none : P none)
    (some : ∀ id b, v.position id = some b → P b.prev → P (some id)) :
    ∀ tip, v.Indexed tip → P tip := by
  have ids : ∀ n id, id < n → v.Indexed (.some id) → P (.some id) := by
    intro n
    induction n with
    | zero => intro id hid; omega
    | succ n ih =>
      intro id hid hix
      obtain ⟨b, hb⟩ := indexed_some.1 hix
      refine some id b hb ?_
      cases hprev : b.prev with
      | none => exact none
      | some prev =>
        have hlt := ho.descends hb hprev
        exact ih prev (by omega) (hprev ▸ ho.indexed_prev hb)
  intro tip hix
  cases tip with
  | none => exact none
  | some id => exact ids (id + 1) id (by omega) hix

theorem Linked.tip_induction (hl : v.Linked) {P : Option Nat → Prop} (none : P none)
    (some : ∀ id b, v.position id = some b → P b.prev → P (some id)) :
    ∀ tip, v.Indexed tip → P tip := hl.ordered.tip_induction none some

/-! ### The branch of a tip -/

/-- Steps beyond the tip's id make no difference. -/
theorem Ordered.trailWithin_eq (ho : v.Ordered) : ∀ {n m : Nat} {tip : Option Nat},
    (∀ id ∈ tip, id < n) → (∀ id ∈ tip, id < m) → v.trailWithin n tip = v.trailWithin m tip
  | 0, 0, _, _, _ => rfl
  | 0, _ + 1, none, _, _ => rfl
  | _ + 1, 0, none, _, _ => rfl
  | _ + 1, _ + 1, none, _, _ => rfl
  | 0, _ + 1, some id, hn, _ => absurd (hn id rfl) (by omega)
  | _ + 1, 0, some id, _, hm => absurd (hm id rfl) (by omega)
  | n + 1, m + 1, some id, hn, hm => by
    simp only [trailWithin]
    cases hb : v.position id with
    | none => rfl
    | some b =>
      have below : ∀ {k}, id < k + 1 → ∀ prev ∈ b.prev, prev < k := by
        intro k hk prev hprev
        have := ho.descends hb hprev
        omega
      simp only [ho.trailWithin_eq (below (hn id rfl)) (below (hm id rfl))]

@[simp] theorem branch_none : v.branch none = [] := rfl

theorem Ordered.trailWithin_some (ho : v.Ordered) (hb : v.position id = some b) :
    v.trailWithin (v.size + 1) (some id) =
      ⟨b :: v.branch b.prev, (v.trailWithin (v.size + 1) b.prev).lost⟩ := by
  have hid := position_lt_size hb
  have below : ∀ prev ∈ b.prev, prev < v.size := by
    intro prev hprev
    have := ho.descends hb hprev
    omega
  have above : ∀ prev ∈ b.prev, prev < v.size + 1 := fun prev hprev => by
    have := below prev hprev
    omega
  simp only [trailWithin, hb, branch]
  rw [ho.trailWithin_eq below above]

theorem Ordered.branch_some (ho : v.Ordered) (hb : v.position id = some b) :
    v.branch (some id) = b :: v.branch b.prev := by
  simp only [branch, ho.trailWithin_some hb]

theorem Linked.branch_some (hl : v.Linked) (hb : v.position id = some b) :
    v.branch (some id) = b :: v.branch b.prev := hl.ordered.branch_some hb

/-- Where links lead to positions a walk is never lost. -/
theorem Ordered.trail_eq (ho : v.Ordered) (hb : v.position id = some b) :
    v.trail id = ⟨v.branch (some id), none⟩ := by
  have kept : (v.trailWithin (v.size + 1) (some id)).lost = none := by
    refine ho.tip_induction (P := fun tip => (v.trailWithin (v.size + 1) tip).lost = none) rfl ?_
      (some id) (indexed_some.2 ⟨b, hb⟩)
    intro id b hb ih
    rw [ho.trailWithin_some hb]
    exact ih
  simp only [trail, branch, ← kept]

theorem resolve_eq_ok : v.resolve id = .ok b ↔ v.position id = some b := by
  unfold resolve
  cases v.position id <;> simp

theorem resolve_eq (hb : v.position id = some b) : v.resolve id = .ok b := by simp [resolve, hb]

/-- Every block of a branch has a position, with an id up to the tip's. -/
theorem Ordered.exists_position (ho : v.Ordered) (hix : v.Indexed tip) {c : Position} :
    c ∈ v.branch tip → ∃ i, v.position i = some c ∧ ∀ id ∈ tip, i ≤ id := by
  refine ho.tip_induction (P := fun tip => c ∈ v.branch tip →
    ∃ i, v.position i = some c ∧ ∀ id ∈ tip, i ≤ id) (by simp) ?_ tip hix
  intro id b hb ih hc
  rw [ho.branch_some hb, List.mem_cons] at hc
  rcases hc with rfl | hc
  · exact ⟨id, hb, by simp⟩
  · obtain ⟨i, hi, hle⟩ := ih hc
    refine ⟨i, hi, fun tip htip => ?_⟩
    obtain rfl := Option.some.inj htip
    cases hprev : b.prev with
    | none => simp [hprev] at hc
    | some prev => exact Nat.le_of_lt (Nat.lt_of_le_of_lt (hle prev hprev) (ho.descends hb hprev))

theorem Linked.exists_position (hl : v.Linked) (hix : v.Indexed tip) {c : Position}
    (hc : c ∈ v.branch tip) : ∃ i, v.position i = some c := by
  obtain ⟨i, hi, -⟩ := hl.ordered.exists_position hix hc
  exact ⟨i, hi⟩

/-- Blocks below a block on its branch have smaller heights. -/
theorem Linked.height_lt (hl : v.Linked) (hb : v.position id = some b) {c : Position}
    (hc : c ∈ v.branch b.prev) : c.height < b.height := by
  have upTo : ∀ tip, v.Indexed tip → ∀ a ∈ tip.bind v.position, ∀ c ∈ v.branch tip,
      c.height ≤ a.height := by
    refine hl.tip_induction (by simp) ?_
    intro id b hb ih a ha c hc
    obtain rfl : b = a := by simpa [hb] using ha
    rw [hl.branch_some hb, List.mem_cons] at hc
    rcases hc with rfl | hc
    · exact Nat.le_refl _
    · cases hprev : b.prev with
      | none => simp [hprev] at hc
      | some prev =>
        obtain ⟨p, hp, hh⟩ := hl.parent hb hprev
        have := ih p (by simp [hprev, hp]) c hc
        omega
  cases hprev : b.prev with
  | none => simp [hprev] at hc
  | some prev =>
    obtain ⟨p, hp, hh⟩ := hl.parent hb hprev
    have := upTo b.prev (hl.indexed_prev hb) p (by simp [hprev, hp]) c hc
    omega

/-- A branch has a block for each height up to that of its tip. -/
theorem Linked.branch_length (hl : v.Linked) (hb : v.position id = some b) :
    (v.branch (some id)).length = b.height + 1 := by
  have all : ∀ tip, v.Indexed tip → ∀ a ∈ tip.bind v.position, (v.branch tip).length = a.height + 1 := by
    refine hl.tip_induction (by simp) ?_
    intro id b hb ih a ha
    obtain rfl : b = a := by simpa [hb] using ha
    rw [hl.branch_some hb, List.length_cons]
    cases hprev : b.prev with
    | none => rw [branch_none, hl.root hb hprev, List.length_nil]
    | some prev =>
      obtain ⟨a, ha, hh⟩ := hl.parent hb hprev
      rw [← hprev, ih a (by simp [hprev, ha]), hh]
  exact all (some id) (indexed_some.2 ⟨b, hb⟩) b (by simp [hb])

/-! ### Ancestors by height -/

theorem Linked.ancestorWithin_eq (hl : v.Linked) : ∀ {n m id : Nat}, id < n → id < m →
    v.ancestorWithin h n id = v.ancestorWithin h m id
  | 0, _, _, hn, _ => absurd hn (by omega)
  | _ + 1, 0, _, _, hm => absurd hm (by omega)
  | n + 1, m + 1, id, hn, hm => by
    simp only [ancestorWithin]
    cases hb : v.position id with
    | none => rfl
    | some b =>
      simp only [Option.bind_some]
      cases hprev : b.prev with
      | none => rfl
      | some prev =>
        have hlt := hl.descends hb hprev
        simp only [Option.bind_some]
        rw [hl.ancestorWithin_eq (show prev < n by omega) (show prev < m by omega)]

theorem Linked.ancestor_eq (hl : v.Linked) (hb : v.position id = some b) :
    v.ancestor id h = if b.height = h then some id else if b.height < h then none
      else b.prev.bind (v.ancestor · h) := by
  have hid := position_lt_size hb
  rw [ancestor, ancestorWithin, hb, Option.bind_some]
  cases hprev : b.prev with
  | none => rfl
  | some prev =>
    have hlt := hl.descends hb hprev
    rw [Option.bind_some, Option.bind_some, ancestor,
      hl.ancestorWithin_eq (show prev < v.size by omega) (show prev < v.size + 1 by omega)]

/-- Behind a block there is nothing at its height or above. -/
theorem Linked.ancestor_prev (hl : v.Linked) (hb : v.position id = some b) (hh : b.height ≤ h) :
    b.prev.bind (v.ancestor · h) = none := by
  cases hprev : b.prev with
  | none => rfl
  | some prev =>
    obtain ⟨p, hp, hph⟩ := hl.parent hb hprev
    rw [Option.bind_some, hl.ancestor_eq hp, if_neg (by omega), if_pos (by omega)]

/-- The ancestor at a height is the block of the branch that has this height. -/
theorem Linked.ancestor_position (hl : v.Linked) : ∀ tip, v.Indexed tip →
    (tip.bind (v.ancestor · h)).bind v.position = (v.branch tip).find? (·.height == h) := by
  refine hl.tip_induction rfl ?_
  intro id b hb ih
  rw [Option.bind_some, hl.ancestor_eq hb, hl.branch_some hb, List.find?_cons]
  by_cases heq : b.height = h
  · simp [heq, hb]
  · rw [if_neg heq, ← ih]
    have hne : (b.height == h) = false := by simpa using heq
    rw [hne]
    by_cases hlt : b.height < h
    · rw [if_pos hlt, hl.ancestor_prev hb (Nat.le_of_lt hlt)]
    · rw [if_neg hlt]

theorem ancestor_of_lost (hb : v.position id = none) : v.ancestor id h = none := by
  simp [ancestor, ancestorWithin, hb]

theorem onBranch_eq {c : Position} (hc : v.position x = some c) :
    v.onBranch x tip = (tip.bind (v.ancestor · c.height) == some x) := by
  cases tip <;> simp [onBranch, hc]

/-- A block is on the branch of a tip when it is the tip or on the branch behind it. -/
theorem Linked.onBranch_some (hl : v.Linked) (hb : v.position id = some b) :
    v.onBranch x (some id) = (x == id || v.onBranch x b.prev) := by
  cases hc : v.position x with
  | none =>
    have hne : x ≠ id := by
      rintro rfl
      simp [hb] at hc
    cases b.prev <;> simp [onBranch, hc, hne]
  | some c =>
    rw [onBranch_eq hc, onBranch_eq hc, Option.bind_some, hl.ancestor_eq hb]
    by_cases hx : x = id
    · subst hx
      obtain rfl : b = c := by simpa [hb] using hc
      simp
    · have hx' : (x == id) = false := by simpa using hx
      rw [hx', Bool.false_or]
      by_cases heq : b.height = c.height
      · rw [if_pos heq, hl.ancestor_prev hb (Nat.le_of_eq heq)]
        simpa using Ne.symm hx
      · rw [if_neg heq]
        by_cases hlt : b.height < c.height
        · rw [if_pos hlt, hl.ancestor_prev hb (Nat.le_of_lt hlt)]
        · rw [if_neg hlt]

@[simp] theorem onBranch_none : v.onBranch x none = false := rfl

theorem Linked.onBranch_iff_mem (hl : v.Linked) : ∀ tip, v.Indexed tip →
    (v.onBranch x tip = true ↔ ∃ c, v.position x = some c ∧ c ∈ v.branch tip) := by
  refine hl.tip_induction (by simp) ?_
  intro id b hb ih
  rw [hl.onBranch_some hb, hl.branch_some hb, Bool.or_eq_true, ih, beq_iff_eq]
  constructor
  · rintro (rfl | ⟨c, hc, hmem⟩)
    · exact ⟨b, hb, List.mem_cons_self⟩
    · exact ⟨c, hc, List.mem_cons_of_mem _ hmem⟩
  · rintro ⟨c, hc, hmem⟩
    rcases List.mem_cons.1 hmem with rfl | hmem
    · exact Or.inl (hl.distinct hc hb rfl)
    · exact Or.inr ⟨c, hc, hmem⟩

/-- A block on the branch behind a block is lower. -/
theorem Linked.height_lt_of_onBranch (hl : v.Linked) (hb : v.position id = some b) {a : Position}
    (ha : v.position x = some a) (hon : v.onBranch x b.prev = true) : a.height < b.height := by
  obtain ⟨a', ha', hmem⟩ := (hl.onBranch_iff_mem _ (hl.indexed_prev hb)).1 hon
  obtain rfl : a = a' := by simpa [ha] using ha'
  exact hl.height_lt hb hmem

/-- The branch of a tip is what predecessor links reach from it. -/
theorem Linked.onBranch_iff_reaches (hl : v.Linked) : ∀ tip, v.Indexed tip →
    (v.onBranch x tip = true ↔ ∃ id ∈ tip, Relation.ReflTransGen v.Parent x id) := by
  refine hl.tip_induction (by simp) ?_
  intro id b hb ih
  rw [hl.onBranch_some hb, Bool.or_eq_true, ih, beq_iff_eq]
  simp only [Option.mem_def, Option.some.injEq, exists_eq_left']
  rw [Relation.ReflTransGen.cases_tail_iff]
  constructor
  · rintro (rfl | ⟨prev, hprev, hreach⟩)
    · exact Or.inl rfl
    · exact Or.inr ⟨prev, hreach, b, hb, hprev⟩
  · rintro (rfl | ⟨prev, hreach, c, hc, hprev⟩)
    · exact Or.inl rfl
    · obtain rfl : b = c := by simpa [hb] using hc
      exact Or.inr ⟨prev, hprev, hreach⟩

/-- On the branch that ends at an id are, if it has a position, the id itself and its ancestors. -/
theorem Linked.onBranch_iff (hl : v.Linked) {tip : Nat} : v.onBranch x (some tip) = true ↔
    (∃ b, v.position tip = some b) ∧ Relation.ReflTransGen v.Parent x tip := by
  cases htip : v.position tip with
  | none =>
    cases hx : v.position x with
    | none => simp [onBranch, hx]
    | some a => simp [onBranch_eq hx, ancestor_of_lost htip]
  | some b => simpa using hl.onBranch_iff_reaches (x := x) (some tip) (indexed_some.2 ⟨b, htip⟩)

/-- The blocks on the branch behind a block are its strict ancestors. -/
theorem Linked.onBranch_prev_iff (hl : v.Linked) (hb : v.position id = some b) :
    v.onBranch x b.prev = true ↔ Relation.TransGen v.Parent x id := by
  rw [hl.onBranch_iff_reaches _ (hl.indexed_prev hb), Relation.TransGen.tail'_iff]
  constructor
  · rintro ⟨prev, hprev, hreach⟩
    exact ⟨prev, hreach, b, hb, hprev⟩
  · rintro ⟨prev, hreach, c, hc, hprev⟩
    obtain rfl : b = c := by simpa [hb] using hc
    exact ⟨prev, hprev, hreach⟩

/-! ### Views that grew -/

/-- Every position of `v` is one of `w`. -/
structure Extends (v w : View) : Prop where
  position : ∀ {id b}, v.position id = some b → w.position id = some b

theorem Extends.indexed (he : v.Extends w) (hix : v.Indexed tip) : w.Indexed tip := by
  intro id hid
  obtain ⟨b, hb⟩ := hix id hid
  exact ⟨b, he.position hb⟩

theorem Extends.bind_position (he : v.Extends w) (hix : v.Indexed tip) :
    tip.bind w.position = tip.bind v.position := by
  cases tip with
  | none => rfl
  | some id =>
    obtain ⟨b, hb⟩ := indexed_some.1 hix
    rw [Option.bind_some, Option.bind_some, he.position hb, hb]

theorem Extends.branch_eq (he : v.Extends w) (hv : v.Linked) (hw : w.Linked) :
    ∀ tip, v.Indexed tip → w.branch tip = v.branch tip := by
  refine hv.tip_induction rfl ?_
  intro id b hb ih
  rw [hw.branch_some (he.position hb), hv.branch_some hb, ih]

theorem Extends.onBranch_eq (he : v.Extends w) (hv : v.Linked) (hw : w.Linked) :
    ∀ tip, v.Indexed tip → w.onBranch x tip = v.onBranch x tip := by
  refine hv.tip_induction rfl ?_
  intro id b hb ih
  rw [hw.onBranch_some (he.position hb), hv.onBranch_some hb, ih]

end View

end StakeChain
