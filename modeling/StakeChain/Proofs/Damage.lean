import Mathlib.Data.Finset.Card
import Mathlib.Data.Finset.Range
import StakeChain.Proofs.Run
/-!
Damaged views. A view may know an id by a link and have no position for it, and an output view may fail
to load an output. The second is reported as it is. The first is not: a walk that is lost on its way
down to the block of a staked output counts as one that does not find the block, so the check gives a
verdict about the coinstake, at every depth and in every version of the protocol. The walk for the
modifier of a kernel goes down over the same blocks, and reports them.
-/

namespace StakeChain

namespace View

/-- The walk back from an id, followed while it is above a height, runs into an id without a
position. -/
inductive Lost (v : View) (height : Nat) : Nat → Prop where
  | missing {id : Nat} : v.position id = none → Lost v height id
  | behind {id : Nat} {b : Position} {prev : Nat} : v.position id = some b → height < b.height →
      b.prev = some prev → Lost v height prev → Lost v height id

variable {v : View} {outputs : OutputView} {p : Parameters} {prev id height : Nat} {tx : Transaction}
  {nBits blockTime : UInt32} {o : OutPoint} {source : StakeSource}

/-! ### The walk that reports -/

/-- A walk that is lost after that many blocks, all above a height. -/
def LostAfter (v : View) (height : Nat) : Nat → Nat → Prop
  | 0, id => v.position id = none
  | n + 1, id => ∃ b prev, v.position id = some b ∧ height < b.height ∧ b.prev = some prev ∧
      v.LostAfter height n prev

theorem Lost.exists_lostAfter (h : v.Lost height id) : ∃ n, v.LostAfter height n id := by
  induction h with
  | missing hnone => exact ⟨0, hnone⟩
  | behind hb habove hprev _ ih =>
    obtain ⟨n, hn⟩ := ih
    exact ⟨n + 1, _, _, hb, habove, hprev, hn⟩

/-- A walk is lost at one place only. -/
theorem LostAfter.unique {n m : Nat} (h : v.LostAfter height n id) (h' : v.LostAfter height m id) :
    n = m := by
  induction n generalizing m id with
  | zero =>
    cases m with
    | zero => rfl
    | succ m =>
      obtain ⟨b, -, hb, -⟩ := h'
      rw [h] at hb
      simp at hb
  | succ n ih =>
    obtain ⟨b, prev, hb, -, hprev, hrest⟩ := h
    cases m with
    | zero =>
      rw [h'] at hb
      simp at hb
    | succ m =>
      obtain ⟨b', prev', hb', -, hprev', hrest'⟩ := h'
      obtain rfl : b = b' := by simpa [hb] using hb'
      obtain rfl : prev = prev' := by simpa [hprev] using hprev'
      rw [ih hrest hrest']

/-- Every block on the way has an id of its own below the size. -/
theorem LostAfter.exists_id {n : Nat} (h : v.LostAfter height n id) :
    ∀ k < n, ∃ j < v.size, v.LostAfter height (k + 1) j := by
  induction n generalizing id with
  | zero => intro k hk; omega
  | succ n ih =>
    intro k hk
    obtain ⟨b, prev, hb, habove, hprev, hrest⟩ := h
    rcases Nat.lt_succ_iff_lt_or_eq.1 hk with hk | rfl
    · exact ih hrest k hk
    · exact ⟨id, position_lt_size hb, b, prev, hb, habove, hprev, hrest⟩

/-- A walk that is lost does not go in a circle, so it meets no more blocks than the view has. -/
theorem LostAfter.le_size {n : Nat} (h : v.LostAfter height n id) : n ≤ v.size := by
  choose! place hsize hplace using h.exists_id
  have hmaps : ∀ k ∈ Finset.range n, place k ∈ Finset.range v.size := by
    intro k hk
    exact Finset.mem_range.2 (hsize k (Finset.mem_range.1 hk))
  have hinj : Set.InjOn place (Finset.range n) := by
    intro k hk l hl heq
    have hk' := hplace k (Finset.mem_range.1 hk)
    have hl' := hplace l (Finset.mem_range.1 hl)
    rw [← heq] at hl'
    exact Nat.succ.inj (hk'.unique hl')
  simpa using Finset.card_le_card_of_injOn place hmaps hinj

theorem LostAfter.trailWithin_eq {n steps : Nat} (h : v.LostAfter height n id) (hn : n < steps) :
    ∃ x, (v.trailWithin steps (some id)).lost = some x ∧
      ∀ b ∈ (v.trailWithin steps (some id)).blocks, height < b.height := by
  induction n generalizing steps id with
  | zero =>
    obtain ⟨steps, rfl⟩ := Nat.exists_eq_succ_of_ne_zero (Nat.ne_of_gt hn)
    have hnone : v.position id = none := h
    exact ⟨id, by simp [trailWithin, hnone], by simp [trailWithin, hnone]⟩
  | succ n ih =>
    obtain ⟨steps, rfl⟩ := Nat.exists_eq_succ_of_ne_zero (Nat.ne_zero_of_lt hn)
    obtain ⟨b, prev, hb, habove, hprev, hrest⟩ := h
    obtain ⟨x, hlost, hblocks⟩ := ih hrest (Nat.lt_of_succ_lt_succ hn)
    refine ⟨x, by simpa [trailWithin, hb, hprev] using hlost, fun c hc => ?_⟩
    have hc : c = b ∨ c ∈ (v.trailWithin steps (some prev)).blocks := by
      simpa [trailWithin, hb, hprev] using hc
    rcases hc with rfl | hc
    · exact habove
    · exact hblocks c hc

/-- A lost walk is reported with the id that has no position. -/
theorem Lost.takeWhile_trail (h : v.Lost height id) :
    ∃ x, (v.trail id).takeWhile (fun b => height < b.height) = .error (.missingPosition x) := by
  obtain ⟨n, hn⟩ := h.exists_lostAfter
  obtain ⟨x, hlost, hblocks⟩ := hn.trailWithin_eq (Nat.lt_succ_of_le hn.le_size)
  have hall : (v.trail id).blocks.all (fun b => decide (height < b.height)) = true :=
    List.all_eq_true.2 fun b hb => decide_eq_true (hblocks b hb)
  have hlost : (v.trail id).lost = some x := hlost
  refine ⟨x, ?_⟩
  rw [Trail.takeWhile, if_pos hall, Trail.ended, hlost]

/-- Between version 0.3 and version 0.5 the modifier of a kernel is not found where the walk is lost, and
the damage is reported as such. -/
theorem Lost.kernelModifier_eq {block : SourceBlock} {time : UInt32} (h : v.Lost block.height prev)
    (h03 : p.inForce .v03 time = true) (h05 : p.inForce .v05 time = false) :
    ∃ x, v.kernelModifier p prev block time = .error (.missingPosition x) := by
  obtain ⟨x, hx⟩ := h.takeWhile_trail
  cases h with
  | missing hnone =>
    refine ⟨prev, ?_⟩
    simp [kernelModifier, h03, resolve, hnone, bind, Except.bind]
  | @behind _ b _ hb habove _ _ =>
    refine ⟨x, ?_⟩
    have hnot : ¬ b.height < block.height := by omega
    simp [kernelModifier, h03, h05, resolve_eq hb, hnot, hx, bind, Except.bind]

/-! ### The check that does not -/

/-- A lost walk finds no ancestor, however many steps it may take. -/
theorem Lost.ancestorWithin_eq_none (h : v.Lost height id) (steps : Nat) :
    v.ancestorWithin height steps id = none := by
  induction h generalizing steps with
  | missing hnone =>
    cases steps with
    | zero => rfl
    | succ steps => rw [ancestorWithin, hnone, Option.bind_none]
  | behind hb habove hprev _ ih =>
    cases steps with
    | zero => rfl
    | succ steps =>
      rw [ancestorWithin, hb, Option.bind_some, if_neg (by omega), if_neg (by omega), hprev,
        Option.bind_some]
      exact ih steps

theorem Lost.kernelSource_eq (h : v.Lost source.block.height prev) (ho : tx.kernelInput? = some o)
    (hsource : outputs o = .ok (some source)) : v.kernelSource outputs prev tx =
      .error (.rejected (.prevoutNotInChain o source.block.hash)) := by
  have hnone : v.ancestor prev source.block.height = none := h.ancestorWithin_eq_none _
  rw [kernelSource, ho]
  simp only [OutputView.source, hsource, bind, Except.bind, pure, Except.pure, hnone, Option.bind_none,
    Option.map_none]
  rfl

/-- An error of the output view ends the check. -/
theorem kernelSource_eq_of_error {e : ConsensusError} (ho : tx.kernelInput? = some o)
    (herror : outputs o = .error e) : v.kernelSource outputs prev tx = .error e := by
  rw [kernelSource, ho]
  simp only [OutputView.source, herror, bind, Except.bind]

/-- What ends the search for the source ends the check. -/
theorem checkCoinstake_eq_of_error {e : ConsensusError}
    (h : v.kernelSource outputs prev tx = .error e) :
    v.checkCoinstake outputs p prev tx nBits blockTime = .error e := by
  rw [checkCoinstake, h]
  rfl

end View

/-- In every view, a coinstake whose kernel resolves to a source is refused as spending an output off the
branch when the walk from `prev` down to the source's height is lost, though the walk for a kernel's
modifier over the same blocks reports what is missing. An error of the output view is returned as it
is. -/
theorem lost_walk_refused (v : View) (outputs : OutputView) (p : Parameters) (prev : Nat)
    (tx : Transaction) (nBits blockTime : UInt32) (o : OutPoint) (ho : tx.kernelInput? = some o) :
    (∀ source, outputs o = .ok (some source) → v.Lost source.block.height prev →
      v.checkCoinstake outputs p prev tx nBits blockTime =
        .error (.rejected (.prevoutNotInChain o source.block.hash)) ∧
      ∀ time, p.inForce .v03 time = true → p.inForce .v05 time = false →
        ∃ x, v.kernelModifier p prev source.block time = .error (.missingPosition x)) ∧
    (∀ e, outputs o = .error e →
      v.checkCoinstake outputs p prev tx nBits blockTime = .error e) := by
  refine ⟨fun source hsource hlost => ⟨?_, fun time h03 h05 => ?_⟩, fun e herror => ?_⟩
  · exact View.checkCoinstake_eq_of_error (hlost.kernelSource_eq ho hsource)
  · exact hlost.kernelModifier_eq h03 h05
  · exact View.checkCoinstake_eq_of_error (View.kernelSource_eq_of_error ho herror)

namespace SmallChain

/-- A view of one block, whose link leads nowhere. -/
def torn : View := .ofPositions #[⟨some 7, 9, 1600000000, 1, digest 20, ⟨0⟩, 5, 0, .zero⟩]

/-- An output some blocks further down. -/
def deep : StakeSource where
  outpoint := ⟨digest 1, 0⟩
  output := ⟨1000000000000, [1]⟩
  txTime := none
  block := ⟨digest 9, 3, 1500000000⟩
  txOffset := 81

theorem lost_torn : torn.Lost deep.block.height 0 :=
  .behind rfl (by decide) rfl (.missing rfl)

end SmallChain

open SmallChain in
theorem lost_walk_refused_torn :
    torn.checkCoinstake (fun _ => .ok (some deep)) parameters 0 (stake 3) 0x207fffff 1600003600 =
      .error (.rejected (.prevoutNotInChain ⟨digest 1, 0⟩ (digest 9))) :=
  (lost_walk_refused torn (fun _ => .ok (some deep)) parameters 0 (stake 3) 0x207fffff 1600003600
    ⟨digest 1, 0⟩ (by decide)).1 deep rfl lost_torn |>.1

open SmallChain in
/-- A lost walk is not kept apart from verdicts. -/
theorem lost_walk_not_reported :
    ¬ (∀ (v : View) (outputs : OutputView) (p : Parameters) (prev : Nat) (tx : Transaction)
      (nBits blockTime : UInt32) (o : OutPoint) (source : StakeSource),
      tx.kernelInput? = some o → outputs o = .ok (some source) → v.Lost source.block.height prev →
      ∃ e, v.checkCoinstake outputs p prev tx nBits blockTime = .error e ∧ e.isRejection = false) := by
  intro hreported
  obtain ⟨e, herror, hkind⟩ := hreported torn (fun _ => .ok (some deep)) parameters 0 (stake 3)
    0x207fffff 1600003600 ⟨digest 1, 0⟩ deep (by decide) rfl lost_torn
  have hrefused : torn.checkCoinstake (fun _ => .ok (some deep)) parameters 0 (stake 3) 0x207fffff
      1600003600 = .error (.rejected (.prevoutNotInChain ⟨digest 1, 0⟩ (digest 9))) :=
    View.checkCoinstake_eq_of_error (lost_torn.kernelSource_eq (by decide) rfl)
  rw [hrefused] at herror
  obtain rfl := Except.error.inj herror
  simp [ConsensusError.isRejection] at hkind

end StakeChain
