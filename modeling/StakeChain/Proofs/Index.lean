import StakeChain.Chain.Index
import StakeChain.Proofs.Walk
/-!
What appending to the index keeps. The links of an index are sound from the start and stay so, since
a block is only appended behind a position of the index, one height above it, with a hash that is
new. The best tip is the first of the highest positions.
-/

namespace StakeChain

namespace ChainIndex

variable {ix : ChainIndex} {b : Position} {id : Nat}

/-- The links of the index are sound, and its best tip is the first of the highest positions. -/
structure Sound (ix : ChainIndex) : Prop where
  linked : ix.view.Linked
  best_none : ix.best = none → ix.size = 0
  best_some : ∀ {id}, ix.best = some id → ∃ b, ix.view.position id = some b ∧
    ∀ {j c}, ix.view.position j = some c → c.height ≤ b.height ∧ (c.height = b.height → id ≤ j)

theorem isEmpty_iff : ix.isEmpty = true ↔ ix.size = 0 := by simp [isEmpty, size]

theorem size_push : (ix.push b).size = ix.size + 1 := by simp [push, size]

theorem position_push : (ix.push b).view.position id =
    if id = ix.size then some b else ix.view.position id := Array.getElem?_push

theorem position_size : ix.view.position ix.size = none :=
  ix.view.position_eq_none _ (Nat.le_refl _)

/-- Every id below the size has a position. -/
theorem exists_position (hid : id < ix.size) : ∃ b, ix.view.position id = some b := by
  refine Option.isSome_iff_exists.1 ?_
  simpa [view, View.ofPositions, size] using hid

/-- What is known of the blocks in a row is known of the one at an id. -/
theorem exists_of_map {α : Type} {f : Position → α} {facts : Array α} (h : ix.positions.map f = facts)
    (id : Nat) {x : α} (hid : facts[id]? = some x) : ∃ b, ix.view.position id = some b ∧ f b = x := by
  rwa [← h, Array.getElem?_map, Option.map_eq_some_iff] at hid

theorem position_push_size : (ix.push b).view.position ix.size = some b := by simp [position_push]

/-- What holds of the new block and of all old ones holds of every position. -/
theorem forall_push {P : Nat → Position → Prop} (hnew : P ix.size b)
    (hold : ∀ j c, ix.view.position j = some c → P j c) :
    ∀ j c, (ix.push b).view.position j = some c → P j c := by
  intro j c hc
  rw [position_push] at hc
  split at hc
  · rename_i hj
    obtain rfl := Option.some.inj hc
    exact hj ▸ hnew
  · exact hold j c hc

theorem extends_push : ix.view.Extends (ix.push b).view := by
  refine ⟨fun {id c} hc => ?_⟩
  have hid : id < ix.size := View.position_lt_size hc
  rw [position_push, if_neg (by omega), hc]

theorem lookup_push (h : Hash) : (ix.push b).view.lookup h =
    (ix.view.lookup h).or (if b.hash == h then some ix.size else none) := Array.findIdx?_push

/-- What must hold of a block to be appended. -/
theorem checkInsert_eq_ok : ix.checkInsert b = .ok () ↔
    ix.lookup? b.hash = none ∧
      (∀ prev, b.prev = some prev → ∃ a, ix.view.position prev = some a ∧ b.height = a.height + 1) ∧
      (b.prev = none → ix.size = 0 ∧ b.height = 0) := by
  unfold checkInsert checkLink
  cases hlook : ix.lookup? b.hash with
  | some i => simp
  | none =>
    cases hprev : b.prev with
    | none =>
      by_cases he : ix.size = 0
      · have : ix.isEmpty = true := isEmpty_iff.2 he
        by_cases hh : b.height = 0 <;> simp [he, hh, this]
      · have : ix.isEmpty = false := Bool.eq_false_iff.2 (mt isEmpty_iff.1 he)
        simp [he, this]
    | some prev =>
      cases ha : ix.view.position prev with
      | none => simp [position?, ha]
      | some a => by_cases hh : b.height = a.height + 1 <;> simp [position?, ha, hh]

theorem insert_eq_ok {ix' : ChainIndex} {id : Nat} : ix.insert b = .ok (ix', id) ↔
    ix.checkInsert b = .ok () ∧ ix' = ix.push b ∧ id = ix.size := by
  unfold insert
  cases ix.checkInsert b with
  | error e => simp [Except.map]
  | ok u => simp [Except.map, eq_comm]

theorem linked_empty : empty.view.Linked where
  descends hb := by simp [view, View.ofPositions, empty] at hb
  parent hb := by simp [view, View.ofPositions, empty] at hb
  root hb := by simp [view, View.ofPositions, empty] at hb
  lookup_iff := by simp [view, View.ofPositions, empty]

theorem sound_empty : empty.Sound where
  linked := linked_empty
  best_none _ := rfl
  best_some h := by simp [empty] at h

/-- Hashes still name positions one to one when the new hash is new. -/
theorem lookup_push_iff (hl : ix.view.Linked) (fresh : ix.lookup? b.hash = none) {h : Hash} :
    (ix.push b).view.lookup h = some id ↔ ∃ c, (ix.push b).view.position id = some c ∧ c.hash = h := by
  rw [lookup_push, position_push]
  by_cases hid : id = ix.size
  · subst hid
    -- The new id can only be found by the new hash, which no older position has.
    have old : ix.view.lookup h ≠ some ix.size := by
      intro hlook
      obtain ⟨c, hc, -⟩ := hl.lookup_iff.1 hlook
      simp [position_size] at hc
    by_cases hh : b.hash = h
    · subst hh
      have : ix.view.lookup b.hash = none := fresh
      simp [this]
    · simp [hh, old]
  · rw [if_neg hid, ← hl.lookup_iff]
    cases hlook : ix.view.lookup h with
    | some i => simp
    | none => simpa using fun _ => Ne.symm hid

theorem linked_push (hl : ix.view.Linked) (hb : ix.checkInsert b = .ok ()) :
    (ix.push b).view.Linked := by
  obtain ⟨fresh, behind, first⟩ := checkInsert_eq_ok.1 hb
  refine ⟨?_, ?_, ?_, lookup_push_iff hl fresh⟩
  · intro id c prev hc
    refine forall_push (P := fun id c => c.prev = some prev → prev < id) ?_ ?_ id c hc
    · intro hprev
      obtain ⟨a, ha, -⟩ := behind prev hprev
      exact View.position_lt_size ha
    · exact fun _ _ hc => hl.descends hc
  · intro id c prev hc
    refine forall_push (P := fun _ c => c.prev = some prev → ∃ a,
      (ix.push b).view.position prev = some a ∧ c.height = a.height + 1) ?_ ?_ id c hc
    · intro hprev
      obtain ⟨a, ha, hh⟩ := behind prev hprev
      exact ⟨a, extends_push.position ha, hh⟩
    · intro _ _ hc hprev
      obtain ⟨a, ha, hh⟩ := hl.parent hc hprev
      exact ⟨a, extends_push.position ha, hh⟩
  · intro id c hc
    exact forall_push (P := fun _ c => c.prev = none → c.height = 0) (fun hprev => (first hprev).2)
      (fun _ _ hc => hl.root hc) id c hc

theorem best_push : (ix.push b).best =
    match ix.bestHeight? with
    | some height => if height < b.height then some ix.size else ix.best
    | none => some ix.size := rfl

/-- The height of the best tip bounds every height. -/
theorem Sound.height_le_best (hs : ix.Sound) {j : Nat} {c : Position}
    (hc : ix.view.position j = some c) : ∃ n, ix.bestHeight? = some n ∧ c.height ≤ n := by
  cases hbest : ix.best with
  | none =>
    have : j < ix.size := View.position_lt_size hc
    have := hs.best_none hbest
    omega
  | some id =>
    obtain ⟨b, hb, hmax⟩ := hs.best_some hbest
    exact ⟨b.height, by simp [bestHeight?, bestTip?, hbest, position?, hb], (hmax hc).1⟩

/-- The height of the best tip is one of a position. -/
theorem Sound.exists_of_bestHeight (hs : ix.Sound) {n : Nat} (hn : ix.bestHeight? = some n) :
    ∃ id b, ix.best = some id ∧ ix.view.position id = some b ∧ b.height = n := by
  cases hbest : ix.best with
  | none => simp [bestHeight?, bestTip?, hbest] at hn
  | some id =>
    obtain ⟨b, hb, -⟩ := hs.best_some hbest
    simp only [bestHeight?, bestTip?, hbest, position?, hb, Option.bind_some, Option.map_some,
      Option.some.injEq] at hn
    exact ⟨id, b, rfl, hb, hn⟩

theorem Sound.push (hs : ix.Sound) (hb : ix.checkInsert b = .ok ()) : (ix.push b).Sound := by
  refine ⟨linked_push hs.linked hb, ?_, ?_⟩
  · intro hnone
    rw [best_push] at hnone
    cases hh : ix.bestHeight? with
    | none => simp [hh] at hnone
    | some n =>
      obtain ⟨id, -, hbest, -⟩ := hs.exists_of_bestHeight hh
      simp only [hh, hbest] at hnone
      split at hnone <;> simp at hnone
  · intro id hid
    rw [best_push] at hid
    cases hh : ix.bestHeight? with
    | none =>
      -- Without a best height there is no older position to compare with.
      simp only [hh, Option.some.injEq] at hid
      subst hid
      refine ⟨b, position_push_size, fun {j c} => forall_push (P := fun j c =>
        c.height ≤ b.height ∧ (c.height = b.height → ix.size ≤ j)) ?_ ?_ j c⟩
      · exact ⟨Nat.le_refl _, fun _ => Nat.le_refl _⟩
      · intro j c hc
        obtain ⟨n, hn, -⟩ := hs.height_le_best hc
        simp [hh] at hn
    | some n =>
      obtain ⟨best, a, hbest, ha, han⟩ := hs.exists_of_bestHeight hh
      have hlt : best < ix.size := View.position_lt_size ha
      simp only [hh] at hid
      split at hid
      · rename_i hhigher
        obtain rfl := Option.some.inj hid
        refine ⟨b, position_push_size, fun {j c} => forall_push (P := fun j c =>
          c.height ≤ b.height ∧ (c.height = b.height → ix.size ≤ j)) ?_ ?_ j c⟩
        · exact ⟨Nat.le_refl _, fun _ => Nat.le_refl _⟩
        · intro j c hc
          obtain ⟨m, hm, hle⟩ := hs.height_le_best hc
          obtain rfl : n = m := by simpa [hh] using hm
          exact ⟨by omega, fun heq => by omega⟩
      · obtain rfl : best = id := by simpa [hbest] using hid
        obtain ⟨a', ha', hmax⟩ := hs.best_some hbest
        obtain rfl : a = a' := by simpa [ha] using ha'
        refine ⟨a, extends_push.position ha, fun {j c} => forall_push (P := fun j c =>
          c.height ≤ a.height ∧ (c.height = a.height → best ≤ j)) ?_ ?_ j c⟩
        · exact ⟨by omega, fun _ => by omega⟩
        · exact fun _ _ hc => hmax hc

/-! ### Indexes that grew -/

/-- What insertions make of an index. -/
inductive Grows (ix : ChainIndex) : ChainIndex → Prop where
  | refl : Grows ix ix
  | insert {later later' b id} : Grows ix later → later.insert b = .ok (later', id) → Grows ix later'

variable {later later' : ChainIndex}

theorem Grows.push (h : ix.Grows later) (hb : later.checkInsert b = .ok ()) : ix.Grows (later.push b) :=
  h.insert (insert_eq_ok.2 ⟨hb, rfl, rfl⟩)

theorem Grows.trans (h : ix.Grows later) (h' : later.Grows later') : ix.Grows later' := by
  induction h' with
  | refl => exact h
  | insert _ hinsert ih => exact ih.insert hinsert

theorem Grows.sound (h : ix.Grows later) (hs : ix.Sound) : later.Sound := by
  induction h with
  | refl => exact hs
  | insert _ hinsert ih =>
    obtain ⟨hchecked, rfl, -⟩ := insert_eq_ok.1 hinsert
    exact ih.push hchecked

/-- No insertion changes an old position. -/
theorem Grows.extends (h : ix.Grows later) : ix.view.Extends later.view := by
  induction h with
  | refl => exact ⟨fun hb => hb⟩
  | insert _ hinsert ih =>
    obtain ⟨-, rfl, -⟩ := insert_eq_ok.1 hinsert
    exact ⟨fun hb => extends_push.position (ih.position hb)⟩

end ChainIndex

end StakeChain
