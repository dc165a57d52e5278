import Mathlib.Order.Monotone.Basic
import StakeChain.Proofs.Draw
/-!
How the sections meet. Each is at least as long as the one before and the last is as long as the modifier
interval, so the rounds of a draw end later and later, and the last round ends where the interval of the block
before begins. A block past that end is reached by no round: it wins where nothing before it is left. And with
sections of some length a kernel's modifier is always searched for beyond the source.
-/

namespace StakeChain

variable {p : Parameters} {tip w : Position} {interval n r s : Nat}

/-- The sections of a modifier interval are longer the later they come and the longer the interval is, from a
third of the interval up to all of it. -/
structure Parameters.Sections (p : Parameters) : Prop where
  lengthens : ∀ n < 63, p.selectionSection n ≤ p.selectionSection (n + 1)
  grows : ∀ q : Parameters, p.modifierInterval ≤ q.modifierInterval →
    ∀ n < modifierRounds, p.selectionSection n ≤ q.selectionSection n
  first : p.selectionSection 0 = p.modifierInterval.toNat / 3
  last : p.selectionSection 63 = p.modifierInterval.toNat
  positive : 0 < p.selectionInterval

/-- The candidates whose hashes are not among those of the blocks taken. -/
def Candidate.without (taken : List Position) (cs : List Candidate) : List Candidate :=
  cs.filter fun c => c.block.hash ∉ taken.map Position.hash

/-- The rounds of a draw after `tip` from a window, for scores under the modifier `m`. -/
structure Rounds (p : Parameters) (tip : Position) (m : UInt64) (window winners : List Position) : Prop where
  /-- Each round takes its winner at its own stop, among the candidates that have not won before. -/
  takes : ∀ r < modifierRounds, winners[r]? = (Candidate.winner? (p.roundStop tip r)
    (Candidate.without (winners.take r) (Candidate.ofWindow window m))).map Candidate.block
  later : ∀ r s, r ≤ s → p.roundStop tip r ≤ p.roundStop tip s
  final : p.roundStop tip 63 = (p.intervalOf tip.time * p.modifierInterval.toNat : Nat)
  /-- When a block past the last stop wins, the hashes of all blocks before it have won. -/
  past : ∀ (r : Nat) (w : Position), winners[r]? = some w →
    p.intervalOf tip.time * p.modifierInterval.toNat < w.time.toNat →
    ∀ b ∈ window, b.place < w.place → ∃ s < r, ∃ a : Position, winners[s]? = some a ∧ a.hash = b.hash

/-! ### Sections -/

theorem sectionLength_le_succ (interval n : Nat) :
    sectionLength interval n ≤ sectionLength interval (n + 1) := by
  have hdivisor : 63 + (63 - (n + 1)) * (sectionRatio - 1) ≤ 63 + (63 - n) * (sectionRatio - 1) :=
    Nat.add_le_add_left (Nat.mul_le_mul_right _ (by omega)) _
  exact Nat.div_le_div_left hdivisor (by omega)

theorem sectionLength_le_of_le {longer : Nat} (h : interval ≤ longer) (n : Nat) :
    sectionLength interval n ≤ sectionLength longer n :=
  Nat.div_le_div_right (Nat.mul_le_mul_right _ h)

theorem sectionLength_zero (interval : Nat) : sectionLength interval 0 = interval / 3 := by
  change interval * 63 / (3 * 63) = interval / 3
  exact Nat.mul_div_mul_right _ _ (by decide)

theorem sectionsLength_mono (interval : Nat) : Monotone (sectionsLength interval) :=
  monotone_nat_of_le_succ fun _ => Nat.le_add_right _ _

theorem Parameters.sections (hp : 0 < p.modifierInterval) : p.Sections where
  lengthens n _ := sectionLength_le_succ _ n
  grows _ h n _ := sectionLength_le_of_le (UInt32.le_iff_toNat_le.1 h) n
  first := sectionLength_zero _
  last := sectionLength_last _
  positive := selectionInterval_pos hp

theorem Parameters.roundStop_mono (p : Parameters) (tip : Position) (h : r ≤ s) :
    p.roundStop tip r ≤ p.roundStop tip s := by
  have hsections := sectionsLength_mono p.modifierInterval.toNat (Nat.add_le_add_right h 1)
  rw [roundStop, roundStop]
  omega

/-- The last round ends where the interval of the block before begins. -/
theorem Parameters.roundStop_last (p : Parameters) (tip : Position) :
    p.roundStop tip 63 = (p.intervalOf tip.time * p.modifierInterval.toNat : Nat) :=
  Int.sub_add_cancel _ _

/-! ### Rounds -/

namespace Candidate

variable {c first : Candidate} {cs rest : List Candidate} {taken : List Position} {stop : Int} {left : Nat}

theorem mem_without : c ∈ without taken cs ↔ c ∈ cs ∧ ∀ a ∈ taken, a.hash ≠ c.block.hash := by
  simp [without]

theorem without_nil : without [] cs = cs := by simp [without]

theorem without_cons : without (w :: taken) cs = without taken (cs.filter fun c => c.block.hash != w.hash) := by
  rw [without, without, List.filter_filter]
  congr 1
  funext c
  simp [Bool.and_comm, bne, beq_eq_decide]

/-- The winner of each round, among the candidates left by the rounds before. -/
theorem getElem?_winners (p : Parameters) (start : Int) (round : Nat) (hr : r < left) (cs : List Candidate) :
    (winners p left round (start + sectionsLength p.modifierInterval.toNat round) cs)[r]? =
      (winner? (start + sectionsLength p.modifierInterval.toNat (round + r + 1)) (without
        ((winners p left round (start + sectionsLength p.modifierInterval.toNat round) cs).take r) cs)).map
          block := by
  induction left generalizing round r cs with
  | zero => simp at hr
  | succ left ih =>
    rw [winners]
    simp only [add_selectionSection]
    cases hw : winner? (start + sectionsLength p.modifierInterval.toNat (round + 1)) cs with
    | none =>
      cases cs with
      | nil => simp [without, winner?]
      | cons first rest => simp [winner?] at hw
    | some w =>
      cases r with
      | zero => simp [without_nil, hw]
      | succ r =>
        have hround : round + (r + 1) + 1 = round + 1 + r + 1 := by omega
        dsimp only
        rw [List.getElem?_cons_succ, ih (round + 1) (Nat.lt_of_succ_lt_succ hr), List.take_succ_cons,
          without_cons, hround]

/-- A winner that the round has not reached is the first candidate. -/
theorem winner?_late {w : Candidate} (hw : winner? stop (first :: rest) = some w)
    (hlate : ¬ w.block.InTime stop) : w = first := by
  obtain rfl := Option.some.inj hw
  rcases List.mem_cons.1 lowest_mem with heq | hmem
  · exact heq
  · have htime := List.mem_takeWhile_imp hmem
    exact absurd (of_decide_eq_true htime) hlate

/-- Where the winner is late, no candidate stands before it. -/
theorem le_of_winner?_late {w : Candidate} (h : cs.Pairwise fun a b => a.block.place ≤ b.block.place)
    (hw : winner? stop cs = some w) (hlate : ¬ w.block.InTime stop) (hc : c ∈ cs) :
    w.block.place ≤ c.block.place := by
  cases cs with
  | nil => simp at hc
  | cons first rest =>
    rw [winner?_late hw hlate]
    rcases List.mem_cons.1 hc with rfl | hc
    · exact le_refl _
    · exact (List.pairwise_cons.1 h).1 c hc

end Candidate

open Candidate

theorem Parameters.not_inTime_of_past (p : Parameters) (hr : r < modifierRounds)
    (hpast : p.intervalOf tip.time * p.modifierInterval.toNat < w.time.toNat) :
    ¬ w.InTime (p.roundStop tip r) := by
  have hstop := p.roundStop_mono tip (Nat.le_of_lt_succ hr)
  rw [p.roundStop_last] at hstop
  rw [Position.InTime]
  omega

/-- Winners that are taken one after another by the rounds of a draw. -/
theorem Rounds.of_takes {m : UInt64} {window winners : List Position}
    (hlength : winners.length ≤ modifierRounds)
    (takes : ∀ r < modifierRounds, winners[r]? = (winner? (p.roundStop tip r)
      (without (winners.take r) (ofWindow window m))).map block) : Rounds p tip m window winners where
  takes := takes
  later r s := p.roundStop_mono tip
  final := p.roundStop_last tip
  past := by
    intro r w hw hpast b hb hbefore
    have hr : r < modifierRounds := Nat.lt_of_lt_of_le (List.getElem?_eq_some_iff.1 hw).1 hlength
    rw [takes r hr, Option.map_eq_some_iff] at hw
    obtain ⟨c, hc, rfl⟩ := hw
    obtain ⟨d, hd, rfl⟩ : ∃ d ∈ ofWindow window m, d.block = b := by
      rw [← mem_blocks, blocks_ofWindow]
      exact List.mem_toFinset.2 hb
    -- What stands before the winner is not left to the round, and so its hash has won.
    have hgone : d ∉ without (winners.take r) (ofWindow window m) := fun hleft =>
      not_lt.2 (le_of_winner?_late ((pairwise_ofWindow window m).sublist List.filter_sublist) hc
        (p.not_inTime_of_past hr hpast) hleft) hbefore
    obtain ⟨a, ha, hhash⟩ : ∃ a ∈ winners.take r, a.hash = d.block.hash := by
      simpa [mem_without, hd] using hgone
    obtain ⟨s, hs⟩ := List.mem_iff_getElem?.1 ha
    rw [List.getElem?_take, Option.ite_none_right_eq_some] at hs
    exact ⟨s, hs.1, a, hs.2, hhash⟩

/-- The winners of a draw are taken by its rounds. -/
theorem rounds_winners (p : Parameters) (tip : Position) (m : UInt64) (window : List Position) :
    Rounds p tip m window (winners p modifierRounds 0 (p.windowStart tip) (ofWindow window m)) := by
  refine .of_takes (length_winners_le p _ _ _ _) fun r hr => ?_
  have hround := getElem?_winners p (p.windowStart tip) 0 hr (ofWindow window m)
  simpa [sectionsLength, Parameters.roundStop] using hround

namespace View

variable {v : View} {prev : Nat} {source : SourceBlock} {time : UInt32} {modifier : UInt64}

/-- A new modifier is drawn from the window that begins a selection interval before the last stop. -/
theorem nextModifier_eq_generated (h : v.nextModifier p (some prev) = .ok ⟨modifier, true⟩) :
    ∃ tip last window, v.resolve prev = .ok tip ∧ v.lastGenerated prev = .ok last ∧
      (v.trail prev).takeWhile (fun b => p.windowStart tip ≤ (b.time.toNat : Int)) = .ok window ∧
      drawModifier p last.stakeModifier (p.windowStart tip) window.reverse = modifier := by
  simp only [nextModifier, bind_eq_ok, guard_eq_ok] at h
  obtain ⟨tip, htip, last, hlast, -, h⟩ := h
  split at h
  · simp [pure_eq_ok] at h
  · simp only [bind_eq_ok, pure_eq_ok, NextModifier.mk.injEq, and_true] at h
    obtain ⟨window, hwindow, hmodifier⟩ := h
    exact ⟨tip, last, window, htip, hlast, hwindow, hmodifier⟩

/-! ### Beyond the source -/

/-- No walk looks a hash up. -/
theorem trailWithin_lookup (v : View) (lookup : Hash → Option Nat) (steps : Nat) (tip : Option Nat) :
    { v with lookup := lookup }.trailWithin steps tip = v.trailWithin steps tip := by
  induction steps generalizing tip with
  | zero => rfl
  | succ steps ih =>
    cases tip with
    | none => rfl
    | some id => simp only [trailWithin, ih]

end View

theorem blockReaching_ne_source (hp : 0 < p.modifierInterval) (start : UInt32) (blocks : List Position) :
    blockReaching (start.toNat + p.selectionInterval) start.toNat none blocks ≠ some none := by
  rw [blockReaching_eq_find? (Nat.lt_add_of_pos_right (Parameters.selectionInterval_pos hp))]
  cases blocks.find? _ <;> simp

/-- Nothing is looked up for a kernel's modifier, since the source itself is never arrived at. -/
theorem View.kernelModifier_lookup (hp : 0 < p.modifierInterval) (v : View) (lookup : Hash → Option Nat)
    (prev : Nat) (source : SourceBlock) (time : UInt32) :
    { v with lookup := lookup }.kernelModifier p prev source time = v.kernelModifier p prev source time := by
  have htrail : { v with lookup := lookup }.trail prev = v.trail prev := v.trailWithin_lookup lookup _ _
  have hresolve : { v with lookup := lookup }.resolve = v.resolve := rfl
  unfold kernelModifier
  rw [htrail, hresolve]
  cases htip : v.resolve prev with
  | error e => rfl
  | ok tip =>
    cases hsegment : (v.trail prev).takeWhile fun b => source.height < b.height with
    | error e => rfl
    | ok segment =>
      simp only [ok_bind]
      cases hreach : blockReaching (source.time.toNat + p.selectionInterval) source.time.toNat none
          segment.reverse with
      | none => rfl
      | some reached =>
        cases reached with
        | none => exact absurd hreach (blockReaching_ne_source hp source.time segment.reverse)
        | some b => rfl

/-- For every modifier interval but zero the sections grow longer from a third of the interval to all of it.
Whenever a new modifier is drawn, in whatever view, its bits are the entropy bits of the winners of its rounds.
These end by the sections, the last of them where the interval of the block before begins, and a block past that
wins no round before all blocks that precede it have won. The walk to a kernel's modifier always goes on beyond
the source, to the first late generation if there is one, and nothing is looked up for it. -/
theorem sections_meet (hp : 0 < p.modifierInterval) :
    p.Sections ∧
    (∀ (v : View) (prev : Nat) (modifier : UInt64), v.nextModifier p (some prev) = .ok ⟨modifier, true⟩ →
      ∃ tip last window, v.resolve prev = .ok tip ∧ v.lastGenerated prev = .ok last ∧
        (v.trail prev).takeWhile (fun b => p.windowStart tip ≤ (b.time.toNat : Int)) = .ok window ∧
        drawModifier p last.stakeModifier (p.windowStart tip) window.reverse = modifier ∧
        (∀ r, modifier.toNat.testBit r = (winners p modifierRounds 0 (p.windowStart tip)
          (ofWindow window.reverse last.stakeModifier))[r]?.any (·.flags.entropy)) ∧
        Rounds p tip last.stakeModifier window.reverse (winners p modifierRounds 0 (p.windowStart tip)
          (ofWindow window.reverse last.stakeModifier))) ∧
    ∀ (v : View) (prev : Nat) (source : SourceBlock) (time : UInt32),
      (∀ blocks, blockReaching (source.time.toNat + p.selectionInterval) source.time.toNat none blocks =
        (blocks.find? fun b => b.flags.generated &&
          source.time.toNat + p.selectionInterval ≤ b.time.toNat).map some) ∧
      (∀ blocks, blockReaching (source.time.toNat + p.selectionInterval) source.time.toNat none blocks ≠
        some none) ∧
      ∀ lookup, { v with lookup := lookup }.kernelModifier p prev source time =
        v.kernelModifier p prev source time := by
  refine ⟨p.sections hp, fun v prev modifier hnext => ?_, fun v prev source time => ⟨fun blocks => ?_, ?_, ?_⟩⟩
  · obtain ⟨tip, last, window, htip, hlast, hwindow, hmodifier⟩ := View.nextModifier_eq_generated hnext
    refine ⟨tip, last, window, htip, hlast, hwindow, hmodifier, fun r => ?_, rounds_winners p tip _ _⟩
    rw [← hmodifier, testBit_drawModifier]
  · exact blockReaching_eq_find? (Nat.lt_add_of_pos_right (Parameters.selectionInterval_pos hp)) none blocks
  · exact blockReaching_ne_source hp source.time
  · exact fun lookup => v.kernelModifier_lookup hp lookup prev source time

namespace SmallChain

/-- A block ten seconds into its interval, behind the two blocks of one time. -/
def late : CandidateBlock := { after 25 1600003570 [] with prevHash := some level.hash }

end SmallChain

/-- In a window of no more blocks than there are rounds every block wins. -/
theorem mem_winners (p : Parameters) (m : UInt64) (start : Int) {window : List Position}
    (hhashes : (window.map Position.hash).Nodup) (hlength : window.length ≤ modifierRounds) (hw : w ∈ window) :
    w ∈ winners p modifierRounds 0 start (ofWindow window m) := by
  have hdrawn := drawn_winners p m start hhashes.of_map (fun a ha b hb hab =>
    List.inj_on_of_nodup_map hhashes (by simpa using ha) (by simpa using hb) hab) modifierRounds
  have hsub : (winners p modifierRounds 0 start (ofWindow window m)).toFinset ⊆ window.toFinset := fun a ha =>
    hdrawn.mem (List.mem_toFinset.1 ha)
  have hcard : window.toFinset.card ≤ (winners p modifierRounds 0 start (ofWindow window m)).toFinset.card := by
    have hwindow := List.toFinset_card_le window
    rw [List.toFinset_card_of_nodup hdrawn.nodup, hdrawn.length]
    omega
  rw [← List.mem_toFinset, Finset.eq_of_subset_of_card_le hsub hcard, List.mem_toFinset]
  exact hw

open SmallChain in
/-- A block past the last stop is in a window with two others, and wins when both of these have won. -/
theorem sections_meet_late : ∃ (tip last w : Position) (window : List Position) (modifier : UInt64) (r : Nat),
    (Run.of parameters [first, early, level, late]).state.index.view.nextModifier parameters (some 3) =
        .ok ⟨modifier, true⟩ ∧
      (Run.of parameters [first, early, level, late]).state.index.view.resolve 3 = .ok tip ∧
      parameters.intervalOf tip.time * parameters.selectionSection 63 < w.time.toNat ∧
      window.map Position.hash = [early.hash, level.hash, late.hash] ∧
      (winners parameters modifierRounds 0 (parameters.windowStart tip)
        (ofWindow window last.stakeModifier))[r]? = some w ∧
      modifier.toNat.testBit r = w.flags.entropy ∧
      ∀ b ∈ window, b.place < w.place → ∃ s < r, ∃ a : Position,
        (winners parameters modifierRounds 0 (parameters.windowStart tip)
          (ofWindow window last.stakeModifier))[s]? = some a ∧ a.hash = b.hash := by
  have hgenerated : ((Run.of parameters [first, early, level, late]).state.index.view.nextModifier parameters
      (some 3)).toOption.map NextModifier.generated = some true := by decide +kernel
  have htime : ((Run.of parameters [first, early, level, late]).state.index.view.resolve 3).toOption.map
      Position.time = some late.time := by decide +kernel
  have hblocks : (((Run.of parameters [first, early, level, late]).state.index.view.trail 3).takeWhile
      fun b => 1600001473 ≤ (b.time.toNat : Int)).toOption.map (List.map fun b => (b.hash, b.time)) =
        some [(late.hash, late.time), (level.hash, level.time), (early.hash, early.time)] := by decide +kernel
  obtain ⟨⟨modifier, _⟩, hnext, rfl⟩ := Option.map_eq_some_iff.1 hgenerated
  obtain ⟨hsections, hrounds, -⟩ := sections_meet (show 0 < parameters.modifierInterval by decide)
  have hnext := toOption_eq_some.1 hnext
  obtain ⟨tip, last, window, htip, -, hwindow, -, hbits, hdrawn⟩ := hrounds _ _ _ hnext
  have htime : tip.time = late.time := by
    rw [htip] at htime
    exact Option.some.inj htime
  have hstart : parameters.windowStart tip = 1600001473 := by
    rw [Parameters.windowStart, htime]
    decide
  have hblocks : window.reverse.map (fun b => (b.hash, b.time)) =
      [(early.hash, early.time), (level.hash, level.time), (late.hash, late.time)] := by
    rw [hstart] at hwindow
    rw [hwindow] at hblocks
    have hwalk : window.map (fun b => (b.hash, b.time)) = [(late.hash, late.time), (level.hash, level.time),
        (early.hash, early.time)] := Option.some.inj hblocks
    rw [List.map_reverse, hwalk]
    rfl
  have hhashes : window.reverse.map Position.hash = [early.hash, level.hash, late.hash] := by
    simpa [Function.comp_def] using congrArg (List.map Prod.fst) hblocks
  obtain ⟨w, hw, hwfields⟩ : ∃ w ∈ window.reverse, (w.hash, w.time) = (late.hash, late.time) := by
    rw [← List.mem_map, hblocks]
    simp
  have hpast : parameters.intervalOf tip.time * parameters.modifierInterval.toNat < w.time.toNat := by
    rw [htime, (Prod.mk.inj hwfields).2]
    decide
  have hwins := mem_winners parameters last.stakeModifier (parameters.windowStart tip)
    (by rw [hhashes]; decide) (by rw [← List.length_map Position.hash, hhashes]; decide) hw
  obtain ⟨r, hr⟩ := List.mem_iff_getElem?.1 hwins
  refine ⟨tip, last, w, window.reverse, modifier, r, hnext, htip, ?_, hhashes, hr, ?_, hdrawn.past r w hr hpast⟩
  · rw [hsections.last]
    exact hpast
  · rw [hbits, hr]
    rfl

end StakeChain
