import Mathlib.Data.List.Basic
import StakeChain.Chain.SuperMajority
import StakeChain.Proofs.Run
/-!
What a majority of block versions counts. The walk keeps two counters and stops at the first that is full; it
comes to the same verdict as a count over the whole walk: of the first proof-of-stake blocks, as many as the
window takes, those that have the version. So the verdict can only turn for the better when the window grows
or when less is asked for.
-/

namespace StakeChain

/-- Of the first `window` proof-of-stake blocks of a walk, those that have version `minVersion` or later. -/
def upgraded (minVersion : Int32) (window : Nat) (walk : List Position) : List Position :=
  ((walk.filter (·.flags.proofOfStake)).take window).filter (minVersion ≤ ·.version)

namespace View

/-- The walk back from an id to the block that has none before it, nearest block first. -/
inductive WalkBack (v : View) : Option Nat → List Position → Prop where
  | done : WalkBack v none []
  | step {id b walk} : v.position id = some b → WalkBack v b.prev walk →
      WalkBack v (some id) (b :: walk)

end View

variable {v : View} {minVersion minVersion' : Int32} {required window window' : Nat} {b : Position}
  {walk : List Position} {tip : Option Nat}

/-! ### The count -/

theorem upgraded_zero : upgraded minVersion 0 walk = [] := by simp [upgraded]

theorem upgraded_nil : upgraded minVersion window [] = [] := by simp [upgraded]

theorem upgraded_staked (hb : b.flags.proofOfStake = true) :
    (upgraded minVersion (window + 1) (b :: walk)).length =
      (if minVersion ≤ b.version then 1 else 0) + (upgraded minVersion window walk).length := by
  rw [upgraded, List.filter_cons_of_pos (by simpa using hb), List.take_succ_cons, List.filter_cons]
  by_cases hversion : minVersion ≤ b.version
  · simp [upgraded, hversion, Nat.add_comm]
  · simp [upgraded, hversion]

theorem upgraded_worked (hb : b.flags.proofOfStake = false) :
    upgraded minVersion window (b :: walk) = upgraded minVersion window walk := by
  rw [upgraded, List.filter_cons_of_neg (by simp [hb]), upgraded]

/-- A larger window and an earlier version leave no block out. -/
theorem upgraded_sublist (hversion : minVersion' ≤ minVersion) (hwindow : window ≤ window') :
    (upgraded minVersion window walk).Sublist (upgraded minVersion' window' walk) := by
  have htake : (upgraded minVersion window walk).Sublist (upgraded minVersion window' walk) :=
    (List.take_sublist_take_left hwindow).filter _
  refine htake.trans (List.monotone_filter_right _ fun c hc => ?_)
  rw [decide_eq_true_eq] at hc ⊢
  exact Int32.le_trans hversion hc

namespace View

/-! ### The walk -/

theorem length_trailWithin_le (v : View) (steps : Nat) (tip : Option Nat) :
    (v.trailWithin steps tip).blocks.length ≤ steps := by
  induction steps generalizing tip with
  | zero => simp [trailWithin]
  | succ steps ih =>
    cases tip with
    | none => simp [trailWithin]
    | some id =>
      cases hb : v.position id with
      | none => simp [trailWithin, hb]
      | some b => simpa [trailWithin, hb] using ih b.prev

/-- Where links are sound the walk back is the branch. -/
theorem Ordered.walkBack (ho : v.Ordered) : ∀ tip, v.Indexed tip → v.WalkBack tip (v.branch tip) := by
  refine ho.tip_induction .done ?_
  intro id b hb ih
  rw [ho.branch_some hb]
  exact .step hb ih

/-- From counters that stand at `found` and `checked` the walk finds whether the blocks still to be counted
make up what is missing, when its steps take it to the end. -/
theorem WalkBack.countVersions_eq (h : v.WalkBack tip walk) {steps found checked : Nat}
    (hsteps : walk.length ≤ steps) :
    v.countVersions minVersion required window steps found checked tip =
      .ok (decide (required ≤ found + (upgraded minVersion (window - checked) walk).length)) := by
  induction h generalizing steps found checked with
  | done => cases steps <;> simp [countVersions, upgraded_nil]
  | @step id b walk hb _ ih =>
    obtain ⟨steps, rfl⟩ := Nat.exists_eq_succ_of_ne_zero (Nat.ne_zero_of_lt hsteps)
    have hsteps := Nat.le_of_succ_le_succ hsteps
    rw [countVersions]
    split
    · rename_i hstop
      rcases hstop with hfull | henough
      · rw [Nat.sub_eq_zero_of_le hfull, upgraded_zero, List.length_nil, Nat.add_zero]
      · simp [henough, Nat.le_add_right_of_le henough]
    · rename_i hon
      obtain ⟨hroom, -⟩ := not_or.1 hon
      simp only [resolve_eq hb]
      cases hkind : b.flags.proofOfStake with
      | true =>
        rw [if_pos rfl, ih hsteps, show window - checked = window - (checked + 1) + 1 by omega,
          upgraded_staked hkind]
        by_cases hversion : minVersion ≤ b.version
        · simp only [if_pos hversion, Nat.add_assoc]
        · simp only [if_neg hversion, Nat.zero_add]
      | false => rw [if_neg Bool.false_ne_true, ih hsteps, upgraded_worked hkind]

/-- The steps that the walk is given take it to the end of the branch. -/
theorem Ordered.hasSuperMajority_eq (ho : v.Ordered) {start : Nat} (hb : v.position start = some b) :
    v.hasSuperMajority minVersion start required window =
      .ok (decide (required ≤ (upgraded minVersion window (v.branch (some start))).length)) := by
  have hwalk := ho.walkBack (some start) (indexed_some.2 ⟨b, hb⟩)
  have hsteps : (v.branch (some start)).length ≤ (window + 1) * (v.size + 1) :=
    Nat.le_trans (v.length_trailWithin_le _ _) (Nat.le_mul_of_pos_left _ (Nat.succ_pos window))
  rw [hasSuperMajority, hwalk.countVersions_eq hsteps, Nat.zero_add, Nat.sub_zero]

/-- Version 0.6 is followed when its time has come and the majority stands. -/
theorem Ordered.followsV06_eq (ho : v.Ordered) (p : Parameters) {prev : Nat}
    (hb : v.position prev = some b) :
    v.followsV06 p prev = .ok (decide (p.switches.v06 ≤ b.time) &&
      decide (p.v06Majority.required.toNat ≤ (upgraded p.v06Majority.minVersion
        p.v06Majority.window.toNat (v.branch (some prev))).length)) := by
  rw [followsV06, resolve_eq hb, ho.hasSuperMajority_eq hb]
  by_cases htime : b.time < p.switches.v06
  · simp [htime, UInt32.not_le.2 htime, bind, Except.bind, pure, Except.pure]
  · simp [htime, UInt32.not_lt.1 htime, bind, Except.bind]

end View

/-- In every index made by insertions, from every block of it: the majority stands exactly when, of the first
`window` proof-of-stake blocks on the walk back, or of all there are, `required` or more have the version. It
still stands with a larger window, for fewer blocks or for an earlier version. Version 0.6 is followed after
the block exactly when the block is not before the switch and the majority of the rule stands. -/
theorem super_majority_counts {ix : ChainIndex} (hix : ChainIndex.empty.Grows ix) {start : Nat}
    {b : Position} (hb : ix.view.position start = some b) :
    ∃ walk, ix.view.WalkBack (some start) walk ∧
      (∀ minVersion required window, ix.view.hasSuperMajority minVersion start required window =
        .ok (decide (required ≤ (upgraded minVersion window walk).length))) ∧
      (∀ minVersion minVersion' required required' window window', minVersion' ≤ minVersion →
        required' ≤ required → window ≤ window' →
        ix.view.hasSuperMajority minVersion start required window = .ok true →
        ix.view.hasSuperMajority minVersion' start required' window' = .ok true) ∧
      ∀ p : Parameters, ix.view.followsV06 p start = .ok (decide (p.switches.v06 ≤ b.time) &&
        decide (p.v06Majority.required.toNat ≤ (upgraded p.v06Majority.minVersion
          p.v06Majority.window.toNat walk).length)) := by
  have ho := (hix.sound ChainIndex.sound_empty).linked.ordered
  refine ⟨ix.view.branch (some start), ho.walkBack _ (View.indexed_some.2 ⟨b, hb⟩),
    fun _ _ _ => ho.hasSuperMajority_eq hb, ?_, fun p => ho.followsV06_eq p hb⟩
  intro minVersion minVersion' required required' window window' hversion hrequired hwindow hstands
  rw [ho.hasSuperMajority_eq hb, Except.ok.injEq, decide_eq_true_eq] at hstands ⊢
  calc required' ≤ required := hrequired
    _ ≤ (upgraded minVersion window (ix.view.branch (some start))).length := hstands
    _ ≤ (upgraded minVersion' window' (ix.view.branch (some start))).length :=
      (upgraded_sublist hversion hwindow).length_le

namespace SmallChain

/-- A block of a row, staked or worked. -/
def link (prev : Option Nat) (height : Nat) (staked : Bool) (version : Int32) : Position where
  prev := prev
  height := height
  time := 1600000000
  version := version
  hash := digest (.ofNat height)
  flags := .ofFacts staked false false
  stakeModifier := 0
  checksum := 0
  proofHash := .zero

/-- Two staked blocks of five have the later version, and so has one that was worked for. -/
def mixed : ChainIndex :=
  [link none 0 false 1, link (some 0) 1 true 2, link (some 1) 2 false 2, link (some 2) 3 true 1,
    link (some 3) 4 true 2].foldl ChainIndex.push .empty

theorem grows_mixed : ChainIndex.empty.Grows mixed := by
  refine .push (.push (.push (.push (.push .refl ?_) ?_) ?_) ?_) ?_ <;> decide +kernel

end SmallChain

open SmallChain in
/-- Two of the last three staked blocks have the version, and only one of the last two. -/
theorem super_majority_counts_mixed : ∃ walk, mixed.view.WalkBack (some 4) walk ∧
    (upgraded 2 3 walk).length = 2 ∧ (upgraded 2 2 walk).length = 1 ∧
    mixed.view.followsV06 { parameters with v06Majority := ⟨2, 2, 3⟩ } 4 = .ok true ∧
    mixed.view.followsV06 { parameters with v06Majority := ⟨2, 2, 2⟩ } 4 = .ok false := by
  have htip : mixed.view.position 4 = some (link (some 3) 4 true 2) := rfl
  obtain ⟨walk, hwalk, hcount, -, hv06⟩ := super_majority_counts grows_mixed htip
  have hreach : ∀ required window verdict,
      mixed.view.hasSuperMajority 2 4 required window = .ok verdict →
      decide (required ≤ (upgraded 2 window walk).length) = verdict := fun required window _ h =>
    Except.ok.inj ((hcount 2 required window).symm.trans h)
  have hthree : (upgraded 2 3 walk).length = 2 := Nat.le_antisymm
    (Nat.le_of_not_lt (of_decide_eq_false (hreach 3 3 false rfl))) (of_decide_eq_true (hreach 2 3 true rfl))
  have htwo : (upgraded 2 2 walk).length = 1 := Nat.le_antisymm
    (Nat.le_of_not_lt (of_decide_eq_false (hreach 2 2 false rfl))) (of_decide_eq_true (hreach 1 2 true rfl))
  refine ⟨walk, hwalk, hthree, htwo, ?_, ?_⟩
  · rw [hv06]
    show Except.ok (_ && decide (2 ≤ (upgraded 2 3 walk).length)) = _
    rw [hthree]
    rfl
  · rw [hv06]
    show Except.ok (_ && decide (2 ≤ (upgraded 2 2 walk).length)) = _
    rw [htwo]
    rfl

end StakeChain
