import Mathlib.Order.Bounds.Basic
import StakeChain.Proofs.Internal
/-!
What a search finds. It tries one time after the other and keeps the last target that it computed, but
it comes to the same answer as if the kernel were checked anew at every time. The output and the modifier
are those that the check of a coinstake takes, so what was found passes that check, with one exception:
the search never asks how deep the output is, and finds one that may not stake yet.
-/

namespace StakeChain

/-! ### Numbers in order -/

/-- The first hit among consecutive numbers. -/
theorem findSome?_range'_eq_some {α : Type} {f : Nat → Option α} {start count : Nat} {found : α} :
    (List.range' start count).findSome? f = some found ↔
      ∃ n, start ≤ n ∧ n < start + count ∧ f n = some found ∧ ∀ k, start ≤ k → k < n → f k = none := by
  induction count generalizing start with
  | zero =>
    refine iff_of_false (by simp) ?_
    rintro ⟨n, hstart, hend, -⟩
    omega
  | succ count ih =>
    rw [List.range'_succ, List.findSome?_cons]
    cases hstart : f start with
    | some x =>
      constructor
      · rintro ⟨⟩
        exact ⟨start, Nat.le_refl _, by omega, hstart, fun k hk hlt => by omega⟩
      · rintro ⟨n, hle, -, hn, hnone⟩
        obtain rfl : start = n := by
          refine Nat.le_antisymm hle (Nat.not_lt.1 fun hlt => ?_)
          simp [hnone start (Nat.le_refl _) hlt] at hstart
        exact hstart.symm.trans hn
    | none =>
      dsimp only
      rw [ih]
      constructor
      · rintro ⟨n, hle, hend, hn, hnone⟩
        refine ⟨n, by omega, by omega, hn, fun k hk hlt => ?_⟩
        rcases Nat.eq_or_lt_of_le hk with rfl | hk
        · exact hstart
        · exact hnone k hk hlt
      · rintro ⟨n, hle, hend, hn, hnone⟩
        have hne : start ≠ n := by
          rintro rfl
          simp [hstart] at hn
        exact ⟨n, by omega, by omega, hn, fun k hk hlt => hnone k (by omega) hlt⟩

/-- Numbers up to a time are times. -/
theorem toNat_ofNat_of_le {n : Nat} {last : UInt32} (h : n ≤ last.toNat) : (UInt32.ofNat n).toNat = n :=
  UInt32.toNat_ofNat_of_lt' (Nat.lt_of_le_of_lt h last.toNat_lt)

namespace StakeSource

variable {s : StakeSource} {p : Parameters} {m : KernelModifier} {nBits first last t : UInt32}
  {perCoinDay weight : Nat} {proof : Hash}

/-- Staking at a time without a search: the time has to be one at which coins may stake, and the kernel
has to pass. -/
def stakesAt (s : StakeSource) (p : Parameters) (m : KernelModifier) (nBits t : UInt32) :
    Option (UInt32 × Hash) :=
  if p.isStakeTime t then (s.checkKernel p m nBits t).toOption.map fun proof => (t, proof) else none

theorem stakesAt_eq_some {found : UInt32 × Hash} : s.stakesAt p m nBits t = some found ↔
    p.isStakeTime t = true ∧ found.1 = t ∧ s.checkKernel p m nBits t = .ok found.2 := by
  unfold stakesAt
  rw [Option.ite_none_right_eq_some, Option.map_eq_some_iff]
  refine and_congr_right fun _ => ?_
  cases s.checkKernel p m nBits t with
  | error e => simp [Except.toOption]
  | ok proof =>
    rw [Except.toOption, Except.ok.injEq]
    constructor
    · rintro ⟨_, ⟨⟩, rfl⟩
      exact ⟨rfl, rfl⟩
    · rintro ⟨rfl, rfl⟩
      exact ⟨found.2, rfl, rfl⟩

/-- Where staking is allowed and the source is mature, the hash alone decides. -/
theorem stakesAt_of_checkTimes (htime : p.isStakeTime t = true)
    (hmature : s.checkTimes p t = .ok ()) : s.stakesAt p m nBits t =
      if (s.kernelHash m nBits t).toNat ≤
          p.weightedTarget nBits s.output.value s.effectiveTime t then
        some (t, s.kernelHash m nBits t) else none := by
  split
  · rename_i htarget
    exact stakesAt_eq_some.2
      ⟨htime, rfl, checkKernel_eq_ok.2 ⟨checkTimes_eq_ok.1 hmature, rfl, htarget⟩⟩
  · rename_i htarget
    refine Option.eq_none_iff_forall_ne_some.2 fun found hfound => htarget ?_
    obtain ⟨-, hproof, hmeets⟩ := checkKernel_eq_ok.1 (stakesAt_eq_some.1 hfound).2.2
    exact hproof ▸ hmeets

theorem stakesAt_of_not (h : ¬ (p.isStakeTime t && (s.checkTimes p t).isOk) = true) :
    s.stakesAt p m nBits t = none := by
  refine Option.eq_none_iff_forall_ne_some.2 fun found hfound => h ?_
  obtain ⟨htime, -, hkernel⟩ := stakesAt_eq_some.1 hfound
  rw [htime, checkTimes_eq_ok.2 (checkKernel_eq_ok.1 hkernel).1]
  rfl

/-! ### The target kept -/

/-- The target kept belongs to the weight kept with it. -/
def Keeps (s : StakeSource) (p : Parameters) (perCoinDay : Nat) (c : CachedTarget) : Prop :=
  c.target = p.targetForWeight perCoinDay s.output.value c.weight

theorem targetFrom_eq {c : Option CachedTarget} (hc : ∀ k ∈ c, s.Keeps p perCoinDay k) :
    s.targetFrom p perCoinDay c weight =
      ⟨weight, p.targetForWeight perCoinDay s.output.value weight⟩ := by
  unfold targetFrom
  cases c with
  | none => rfl
  | some k =>
    have hk : k.target = _ := hc k rfl
    by_cases hweight : k.weight = weight
    · subst hweight
      simp only [if_true, ← hk]
    · simp only [if_neg hweight]

/-- The search tries the times in order, and its answer is the first at which the source stakes. -/
theorem searchWithin_eq {count time : Nat} {c : Option CachedTarget}
    (hc : ∀ k ∈ c, s.Keeps p (Target.ofCompact nBits) k) :
    s.searchWithin p m nBits (Target.ofCompact nBits) count time c =
      (List.range' time count).findSome? fun time => s.stakesAt p m nBits (UInt32.ofNat time) := by
  induction count generalizing time c with
  | zero => rfl
  | succ count ih =>
    rw [searchWithin, List.range'_succ, List.findSome?_cons]
    dsimp only
    split
    · rename_i hallowed
      obtain ⟨htime, hmature⟩ := Bool.and_eq_true_iff.1 hallowed
      obtain ⟨⟨⟩, hmature⟩ := exists_of_isOk hmature
      rw [stakesAt_of_checkTimes htime hmature, targetFrom_eq hc]
      by_cases htarget : (s.kernelHash m nBits (UInt32.ofNat time)).toNat ≤
          p.weightedTarget nBits s.output.value s.effectiveTime (UInt32.ofNat time)
      · rw [if_pos htarget]
        exact if_pos htarget
      · rw [if_neg htarget]
        refine (if_neg htarget).trans (ih fun k hk => ?_)
        obtain rfl := Option.some.inj hk
        rfl
    · rename_i hnot
      rw [stakesAt_of_not hnot]
      exact ih hc

theorem search_eq : s.search p m nBits first last =
    (List.range' first.toNat (last.toNat + 1 - first.toNat)).findSome?
      fun time => s.stakesAt p m nBits (UInt32.ofNat time) :=
  searchWithin_eq (by simp)

theorem search_eq_some : s.search p m nBits first last = some (t, proof) ↔
    first ≤ t ∧ t ≤ last ∧ s.stakesAt p m nBits t = some (t, proof) ∧
      ∀ u, first ≤ u → u < t → s.stakesAt p m nBits u = none := by
  rw [search_eq, findSome?_range'_eq_some]
  constructor
  · rintro ⟨n, hfirst, hend, hstakes, hnone⟩
    obtain ⟨-, htime, -⟩ := stakesAt_eq_some.1 hstakes
    have hle : n ≤ last.toNat := by omega
    obtain rfl : n = t.toNat := by
      rw [show t = UInt32.ofNat n from htime, toNat_ofNat_of_le hle]
    rw [UInt32.ofNat_toNat] at hstakes
    exact ⟨hfirst, hle, hstakes, fun u hu hlt => by simpa using hnone u.toNat hu hlt⟩
  · rintro ⟨hfirst, hle, hstakes, hnone⟩
    have hfirst : first.toNat ≤ t.toNat := hfirst
    have hle : t.toNat ≤ last.toNat := hle
    refine ⟨t.toNat, hfirst, by omega, by simpa using hstakes, fun k hk hlt => ?_⟩
    have htoNat := toNat_ofNat_of_le (Nat.le_of_lt hlt)
    refine hnone _ ?_ ?_
    · rwa [UInt32.le_iff_toNat_le, htoNat]
    · rwa [UInt32.lt_iff_toNat_lt, htoNat]

theorem search_eq_none : s.search p m nBits first last = none ↔
    ∀ u, first ≤ u → u ≤ last → s.stakesAt p m nBits u = none := by
  rw [search_eq, List.findSome?_eq_none_iff]
  constructor
  · intro h u hfirst hle
    have hfirst : first.toNat ≤ u.toNat := hfirst
    have hle : u.toNat ≤ last.toNat := hle
    simpa using h u.toNat (List.mem_range'_1.2 ⟨hfirst, by omega⟩)
  · intro h n hn
    obtain ⟨hfirst, hend⟩ := List.mem_range'_1.1 hn
    have hle : n ≤ last.toNat := by omega
    have htoNat := toNat_ofNat_of_le hle
    refine h _ ?_ ?_
    · rwa [UInt32.le_iff_toNat_le, htoNat]
    · rwa [UInt32.le_iff_toNat_le, htoNat]

/-- What is found lies in the range, and its kernel passes. -/
theorem search_finds (h : s.search p m nBits first last = some (t, proof)) :
    first ≤ t ∧ t ≤ last ∧ p.isStakeTime t = true ∧ s.checkKernel p m nBits t = .ok proof := by
  obtain ⟨hfirst, hle, hstakes, -⟩ := search_eq_some.1 h
  obtain ⟨htime, -, hkernel⟩ := stakesAt_eq_some.1 hstakes
  exact ⟨hfirst, hle, htime, hkernel⟩

/-- The times from `first` to `last` at which the source stakes: coins may stake then, and the kernel
passes. -/
def stakeTimes (s : StakeSource) (p : Parameters) (m : KernelModifier) (nBits first last : UInt32) :
    Set UInt32 :=
  {t | first ≤ t ∧ t ≤ last ∧ p.isStakeTime t = true ∧ ∃ proof, s.checkKernel p m nBits t = .ok proof}

theorem stakesAt_eq_none : s.stakesAt p m nBits t = none ↔
    ¬ (p.isStakeTime t = true ∧ ∃ proof, s.checkKernel p m nBits t = .ok proof) := by
  rw [Option.eq_none_iff_forall_ne_some]
  constructor
  · rintro h ⟨htime, proof, hkernel⟩
    exact h (t, proof) (stakesAt_eq_some.2 ⟨htime, rfl, hkernel⟩)
  · intro h found hfound
    obtain ⟨htime, -, hkernel⟩ := stakesAt_eq_some.1 hfound
    exact h ⟨htime, found.2, hkernel⟩

/-- However the targets are kept on the way, a search finds the least of the times at which the source
stakes, with the proof that a check at that time gives, and nothing when there is no such time. -/
theorem search_least_time (s : StakeSource) (p : Parameters) (m : KernelModifier)
    (nBits first last : UInt32) :
    (∀ t proof, s.search p m nBits first last = some (t, proof) ↔
      IsLeast (s.stakeTimes p m nBits first last) t ∧ s.checkKernel p m nBits t = .ok proof) ∧
    (s.search p m nBits first last = none ↔ s.stakeTimes p m nBits first last = ∅) ∧
    (last < first → s.search p m nBits first last = none) := by
  refine ⟨fun t proof => ?_, ?_, fun hempty => search_eq_none.2 fun u hfirst hle => ?_⟩
  · rw [search_eq_some, stakesAt_eq_some]
    constructor
    · rintro ⟨hfirst, hle, ⟨htime, -, hkernel⟩, hnone⟩
      refine ⟨⟨⟨hfirst, hle, htime, proof, hkernel⟩, fun u hu => ?_⟩, hkernel⟩
      obtain ⟨hu, -, hstakes⟩ := hu
      exact UInt32.not_lt.1 fun hlt => stakesAt_eq_none.1 (hnone u hu hlt) hstakes
    · rintro ⟨⟨⟨hfirst, hle, htime, -⟩, hleast⟩, hkernel⟩
      refine ⟨hfirst, hle, ⟨htime, rfl, hkernel⟩, fun u hu hlt => stakesAt_eq_none.2 fun hstakes => ?_⟩
      exact UInt32.not_lt.2 (hleast ⟨hu, UInt32.le_trans (UInt32.le_of_lt hlt) hle, hstakes⟩) hlt
  · rw [search_eq_none, Set.eq_empty_iff_forall_notMem]
    constructor
    · rintro h u ⟨hfirst, hle, hstakes⟩
      exact stakesAt_eq_none.1 (h u hfirst hle) hstakes
    · exact fun h u hfirst hle => stakesAt_eq_none.2 fun hstakes => h u ⟨hfirst, hle, hstakes⟩
  · exact absurd (UInt32.le_trans hfirst hle) (UInt32.not_le.2 hempty)

end StakeSource

/-! ### What the check asks besides -/

/-- A coinstake with the time of its block fits where coins may stake. -/
theorem Parameters.fits_self {p : Parameters} {t : UInt32} :
    p.Fits t t ↔ p.isStakeTime t = true := by
  constructor
  · intro hfits
    cases h09 : p.inForce .v09 t with
    | true => simp [isStakeTime, hfits.grid h09]
    | false => simp [isStakeTime, h09]
  · intro htime
    refine ⟨fun h09 => ?_, fun _ => rfl, fun _ => ⟨UInt32.le_refl t, Nat.le_add_right _ _⟩⟩
    simpa [isStakeTime, h09] using htime

/-- A version that is not switched on between two times is in force at both or at neither. -/
theorem Parameters.inForce_eq {p : Parameters} {f : Feature} {first t : UInt32} (hle : first ≤ t)
    (h : ¬ (first < f.switchTime p.switches ∧ f.switchTime p.switches ≤ t)) :
    p.inForce f t = p.inForce f first := by
  rw [inForce, inForce, decide_eq_decide]
  exact ⟨fun ht => UInt32.not_lt.1 fun hlt => h ⟨hlt, ht⟩, fun hf => UInt32.le_trans hf hle⟩

/-- Two versions decide on which modifier a kernel has, and not the time otherwise. -/
theorem View.kernelModifier_congr {v : View} {p : Parameters} {prev : Nat} {source : SourceBlock}
    {first t : UInt32} (h03 : p.inForce .v03 t = p.inForce .v03 first)
    (h05 : p.inForce .v05 t = p.inForce .v05 first) :
    v.kernelModifier p prev source t = v.kernelModifier p prev source first := by
  simp only [View.kernelModifier, h03, h05]

/-- A search that succeeds has found its output at the best tip, and searches it with the modifier of the
first time. -/
theorem ChainState.search_eq_ok {s : ChainState} {o : OutPoint} {nBits first last : UInt32}
    {found : Option (UInt32 × Hash)} : s.search o nBits first last = .ok found ↔
      ∃ tip source m, s.index.best = some tip ∧
        s.outputs.get? s.index.view (some tip) o = some source ∧
        s.index.view.kernelModifier s.parameters tip source.block first = .ok m ∧
        source.search s.parameters m nBits first last = found := by
  unfold search
  cases s.index.best with
  | none => simp [throw, throwThe, MonadExceptOf.throw]
  | some tip =>
    dsimp only
    cases hget : s.outputs.get? s.index.view (some tip) o with
    | none => simp [hget, throw, throwThe, MonadExceptOf.throw]
    | some source =>
      simp only [bind_eq_ok, mapError_eq_ok, pure_eq_ok]
      constructor
      · rintro ⟨m, hm, hsearch⟩
        exact ⟨tip, source, m, rfl, hget, hm, hsearch⟩
      · rintro ⟨_, source', m, ⟨⟩, hget', hm, hsearch⟩
        obtain rfl : source = source' := by simpa [hget] using hget'
        exact ⟨m, hm, hsearch⟩

/-- In every run, a time and a proof that a search has found, where neither version 0.3 nor version 0.5 is
switched on after the first time tried, are what a coinstake of the output gets at the best tip, as soon as
the output is deep enough there. While it is not, and the search does not tell, the coinstake is refused. -/
theorem found_kernel_stakes (p : Parameters) (offers : List CandidateBlock) (o : OutPoint)
    (nBits first last t : UInt32) (proof : Hash)
    (hfound : (Run.of p offers).state.search o nBits first last = .ok (some (t, proof)))
    (h03 : ¬ (first < p.switches.v03 ∧ p.switches.v03 ≤ t))
    (h05 : ¬ (first < p.switches.v05 ∧ p.switches.v05 ≤ t)) :
    let s := (Run.of p offers).state
    ∃ tip a source, s.index.best = some tip ∧ s.index.view.position tip = some a ∧
      s.outputs.get? s.index.view (some tip) o = some source ∧ first ≤ t ∧ t ≤ last ∧
      ∀ tx : Transaction, tx.time = none → tx.kernelInput? = some o →
        let depth := a.height - source.block.height
        s.index.view.checkCoinstake (s.outputs.outputView s.index.view (some tip)) p tip tx nBits t =
          if depth < p.stakeMinDepth.toNat - 1 then
            .error (.rejected (.tooShallow depth (p.stakeMinDepth.toNat - 1)))
          else .ok proof := by
  intro s
  have hr := Run.reached_of p offers
  have hl : s.index.view.Linked := hr.faithful.sound.linked
  obtain ⟨tip, source, m, hbest, hget, hm, hsearch⟩ := ChainState.search_eq_ok.1 hfound
  obtain ⟨a, ha, -⟩ := hr.faithful.sound.index.best_some hbest
  rw [hr.parameters] at hm hsearch
  obtain ⟨hfirst, hlast, htime, hkernel⟩ := StakeSource.search_finds hsearch
  refine ⟨tip, a, source, hbest, ha, hget, hfirst, hlast, fun tx hnone ho => ?_⟩
  have hsource : s.index.view.kernelSource (s.outputs.outputView s.index.view (some tip)) tip tx =
      .ok source :=
    hl.kernelSource_found ha ho (congrArg Except.ok hget) (hr.staked.hasBlock hl ha hget)
  have hfits : p.checkCoinstakeTime t t = .ok () :=
    Parameters.checkCoinstakeTime_eq_ok.2 (Parameters.fits_self.2 htime)
  have hmodifier : s.index.view.kernelModifier p tip source.block t = .ok m := by
    rw [View.kernelModifier_congr (Parameters.inForce_eq hfirst h03)
      (Parameters.inForce_eq hfirst h05)]
    exact hm
  have htip : s.index.view.resolve tip = .ok a := View.resolve_eq ha
  rw [View.checkCoinstake, hnone, Option.getD_none, hsource]
  simp only [bind, Except.bind, hfits, htip, hmodifier, hkernel, mapError_ok, throw,
    throwThe, MonadExceptOf.throw]

namespace SmallChain

/-- The small chain's parameters with the depth of regression testing. -/
def tenDeep : Parameters := { parameters with stakeMinDepth := 10 }

end SmallChain

open SmallChain in
/-- After the first block, a search for its output succeeds, and the output stakes at the time found. -/
theorem found_kernel_stakes_first : ∃ proof,
    (Run.of parameters [first]).state.search kernel 0x207fffff 1600003600 1600003600 =
      .ok (some (1600003600, proof)) ∧
    (Run.of parameters [first]).state.index.view.checkCoinstake
      ((Run.of parameters [first]).state.outputs.outputView
        (Run.of parameters [first]).state.index.view (some 0)) parameters 0 (stake 3) 0x207fffff
      1600003600 = .ok proof := by
  have hfacts : ((Run.of parameters [first]).state.search kernel 0x207fffff 1600003600
        1600003600).map (Option.map Prod.fst) = .ok (some 1600003600) ∧
      (Run.of parameters [first]).state.index.best = some 0 := by decide +kernel
  obtain ⟨⟨found, hsearch, htime⟩, hbest⟩ := And.imp_left map_eq_ok.1 hfacts
  obtain ⟨⟨t, proof⟩, rfl, rfl⟩ := Option.map_eq_some_iff.1 htime
  obtain ⟨tip, a, source, htip, -, -, -, -, hstakes⟩ := found_kernel_stakes parameters [first] kernel
    0x207fffff 1600003600 1600003600 1600003600 proof hsearch (by decide) (by decide)
  obtain rfl : 0 = tip := by simpa [hbest] using htip
  refine ⟨proof, hsearch, ?_⟩
  rw [hstakes (stake 3) rfl rfl, if_neg]
  exact Nat.not_lt_zero _

open SmallChain in
/-- A search finds an output that is not deep enough to stake. -/
theorem found_kernel_too_shallow :
    ¬ (∀ (p : Parameters) (offers : List CandidateBlock) (o : OutPoint)
      (nBits first last t : UInt32) (proof : Hash),
      (Run.of p offers).state.search o nBits first last = .ok (some (t, proof)) →
      ¬ (first < p.switches.v03 ∧ p.switches.v03 ≤ t) →
      ¬ (first < p.switches.v05 ∧ p.switches.v05 ≤ t) →
      ∀ (tip : Nat) (tx : Transaction), (Run.of p offers).state.index.best = some tip →
        tx.time = none → tx.kernelInput? = some o →
        (Run.of p offers).state.index.view.checkCoinstake
          ((Run.of p offers).state.outputs.outputView (Run.of p offers).state.index.view (some tip)) p
          tip tx nBits t = .ok proof) := by
  intro hstakes
  have hfacts : ((Run.of tenDeep [first]).state.search kernel 0x207fffff 1600003600 1600003600).map
        (Option.map Prod.fst) = .ok (some 1600003600) ∧
      (Run.of tenDeep [first]).state.index.best = some 0 ∧
      (Run.of tenDeep [first]).state.index.view.checkCoinstake
        ((Run.of tenDeep [first]).state.outputs.outputView (Run.of tenDeep [first]).state.index.view
          (some 0)) tenDeep 0 (stake 3) 0x207fffff 1600003600 =
        .error (.rejected (.tooShallow 0 9)) := by decide +kernel
  obtain ⟨⟨found, hsearch, htime⟩, hbest, hrefused⟩ := And.imp_left map_eq_ok.1 hfacts
  obtain ⟨⟨t, proof⟩, rfl, rfl⟩ := Option.map_eq_some_iff.1 htime
  have hpasses := hstakes tenDeep [first] kernel 0x207fffff 1600003600 1600003600 1600003600 proof hsearch
    (by decide) (by decide) 0 (stake 3) hbest rfl rfl
  rw [hrefused] at hpasses
  simp at hpasses

end StakeChain
