import StakeChain.Proofs.KernelModifier
import StakeChain.Proofs.Recompute
import StakeChain.Proofs.Staking
/-!
The schedule of stake modifiers. Between two generations on a branch every block hands on the modifier of
the block before it, and a new one is due when the block before lies in a later interval than the last
generation. Where the times of a branch never decrease, no interval sees two generations.
-/

namespace StakeChain

namespace View

/-- The last generation on the branch that ends at `tip` is that of the block `m` at `id`. -/
structure LastGeneration (v : View) (tip id : Nat) (m : Position) : Prop where
  reached : Relation.ReflTransGen v.Parent id tip
  found : v.position id = some m
  generated : m.flags.generated = true
  after : ∀ k c, Relation.TransGen v.Parent id k → Relation.ReflTransGen v.Parent k tip →
    v.position k = some c → c.flags.generated = false

/-- Two generations that follow one another on a branch, that of `m` at `i` and that of `n` at `j`. -/
structure Consecutive (v : View) (i : Nat) (m : Position) (j : Nat) (n : Position) : Prop where
  first : v.position i = some m
  second : v.position j = some n
  generated : m.flags.generated = true ∧ n.flags.generated = true
  ahead : Relation.TransGen v.Parent i j
  between : ∀ k c, Relation.TransGen v.Parent i k → Relation.TransGen v.Parent k j →
    v.position k = some c → c.flags.generated = false

/-- On the branch that ends at `tip` no block is earlier than the block before it. -/
def InOrder (v : View) (tip : Nat) : Prop :=
  ∀ id prev b a, Relation.ReflTransGen v.Parent id tip → v.position id = some b →
    b.prev = some prev → v.position prev = some a → a.time ≤ b.time

/-- The schedule by which modifiers are handed on and generated. -/
structure Scheduled (v : View) (p : Parameters) : Prop where
  inherits : ∀ {id prev b a}, v.position id = some b → b.prev = some prev →
    v.position prev = some a → b.flags.generated = false → b.stakeModifier = a.stakeModifier
  renews : ∀ {i m j n prev a}, v.Consecutive i m j n → n.prev = some prev →
    v.position prev = some a → p.intervalOf m.time < p.intervalOf a.time
  waits : ∀ {i m j n k b prev a}, v.Consecutive i m j n → Relation.TransGen v.Parent i k →
    Relation.TransGen v.Parent k j → v.position k = some b → b.prev = some prev →
    v.position prev = some a → p.intervalOf a.time ≤ p.intervalOf m.time
  apart : ∀ {tip i m j n}, v.InOrder tip → Relation.ReflTransGen v.Parent i tip →
    Relation.ReflTransGen v.Parent j tip → v.position i = some m → v.position j = some n →
    m.flags.generated = true → n.flags.generated = true → i ≠ j →
    p.intervalOf m.time ≠ p.intervalOf n.time

variable {v : View} {p : Parameters} {tip id i j prev : Nat} {a b m n : Position}

/-! ### The last generation -/

theorem Parent.prev_eq (h : v.Parent i j) (hb : v.position j = some b) : b.prev = some i := by
  obtain ⟨c, hc, hprev⟩ := h
  obtain rfl : b = c := by simpa [hb] using hc
  exact hprev

/-- Blocks further on have greater ids. -/
theorem Linked.lt_of_ahead (hl : v.Linked) (h : Relation.TransGen v.Parent i j) : i < j := by
  induction h with
  | single hparent =>
    obtain ⟨b, hb, hprev⟩ := hparent
    exact hl.descends hb hprev
  | tail _ hparent ih =>
    obtain ⟨b, hb, hprev⟩ := hparent
    exact ih.trans (hl.descends hb hprev)

/-- The walk back from a tip finds the last generation. -/
theorem LastGeneration.find? (ho : v.Ordered) (h : v.LastGeneration tip id m) :
    (v.branch (some tip)).find? (·.flags.generated) = some m := by
  obtain ⟨hreach, hm, hgenerated, hafter⟩ := h
  induction hreach with
  | refl => rw [ho.branch_some hm, List.find?_cons_of_pos (by simpa using hgenerated)]
  | @tail k j hreach hparent ih =>
    obtain ⟨c, hc, hprev⟩ := hparent
    have hstep : Relation.TransGen v.Parent id j := .tail' hreach ⟨c, hc, hprev⟩
    have hquiet := hafter j c hstep .refl hc
    rw [ho.branch_some hc, hprev, List.find?_cons_of_neg (by simp [hquiet])]
    exact ih fun k c' hk hkj hc' => hafter k c' hk (hkj.tail ⟨c, hc, hprev⟩) hc'

/-- Behind a generation, and behind every block up to it, the generation before is the last. -/
theorem Consecutive.last (h : v.Consecutive i m j n) {k : Nat} (hk : Relation.TransGen v.Parent i k)
    (hkj : Relation.ReflTransGen v.Parent k j) (hb : v.position k = some b)
    (hprev : b.prev = some prev) : v.LastGeneration prev i m := by
  obtain ⟨q, hq, hparent⟩ := Relation.TransGen.tail'_iff.1 hk
  obtain rfl : prev = q := by simpa [hprev] using hparent.prev_eq hb
  refine ⟨hq, h.first, h.generated.1, fun l c hl hlq hc => h.between l c hl ?_ hc⟩
  exact (Relation.TransGen.tail' hlq hparent).trans_left hkj

/-- Where some block of a branch has a new modifier, the walk finds the last such block. -/
theorem Linked.nextModifier_eq_ok (hl : v.Linked) (ha : v.position prev = some a)
    (hlast : (v.branch (some prev)).find? (·.flags.generated) = some m) {next : NextModifier}
    (h : v.nextModifier p (some prev) = .ok next) :
    (next.generated = false → next.modifier = m.stakeModifier) ∧
      (next.generated = true ↔ p.intervalOf m.time < p.intervalOf a.time) := by
  rw [hl.ordered.nextModifier_eq ha hlast] at h
  split at h
  · simp at h
  · split at h
    · rename_i hwait
      obtain rfl := Except.ok.inj h
      simpa using hwait
    · rename_i hdue
      obtain rfl := Except.ok.inj h
      simpa using hdue

/-! ### Times in order -/

theorem InOrder.of_reaches (h : v.InOrder tip) (hreach : Relation.ReflTransGen v.Parent id tip) :
    v.InOrder id :=
  fun k prev b a hk hb hprev ha => h k prev b a (hk.trans hreach) hb hprev ha

/-- Where the times of a branch are in order, no block is later than one above it. -/
theorem Linked.branch_times (hl : v.Linked) : ∀ tip, v.Indexed tip → (∀ id ∈ tip, v.InOrder id) →
    (v.branch tip).Pairwise fun b a => a.time ≤ b.time := by
  refine hl.tip_induction (by simp) ?_
  intro id b hb ih horder
  have horder := horder id rfl
  rw [hl.branch_some hb, List.pairwise_cons]
  cases hprev : b.prev with
  | none => simp
  | some prev =>
    obtain ⟨a, ha, -⟩ := hl.parent hb hprev
    have hbehind := ih fun k hk => by
      obtain rfl : prev = k := by simpa [hprev] using hk
      exact horder.of_reaches (.single ⟨b, hb, hprev⟩)
    rw [hprev] at hbehind
    refine ⟨fun c hc => ?_, hbehind⟩
    have hab : a.time ≤ b.time := horder id prev b a .refl hb hprev ha
    rw [hl.branch_some ha] at hbehind hc
    rcases List.mem_cons.1 hc with rfl | hc
    · exact hab
    · exact UInt32.le_trans ((List.pairwise_cons.1 hbehind).1 c hc) hab

/-- No generation of a branch in order is later than the last one. -/
theorem time_le_of_find? {bs : List Position} (hbs : bs.Pairwise fun b a => a.time ≤ b.time)
    (hlast : bs.find? (·.flags.generated) = some m) (hn : n ∈ bs) (hgenerated : n.flags.generated = true) :
    n.time ≤ m.time := by
  obtain ⟨-, above, below, rfl, hquiet⟩ := List.find?_eq_some_iff_append.1 hlast
  rcases List.mem_append.1 hn with habove | hbelow
  · have := hquiet n habove
    simp [hgenerated] at this
  · rcases List.mem_cons.1 hbelow with rfl | hbelow
    · exact UInt32.le_refl _
    · exact (List.pairwise_cons.1 (List.pairwise_append.1 hbs).2.1).1 n hbelow

end View

theorem Parameters.intervalOf_mono (p : Parameters) {s t : UInt32} (h : s ≤ t) :
    p.intervalOf s ≤ p.intervalOf t := Nat.div_le_div_right h

namespace Run

variable {p : Parameters} {r : Run} {id i j prev tip : Nat} {a b m n : Position}

/-! ### Along a run -/

/-- On the branch behind a block some generation is the last, and the schedule follows from it: a block
without a new modifier has the modifier of that generation, and a block gets a new one exactly when the
block before is in a later interval. -/
theorem Reached.follows (h : Reached p r) (hb : r.state.index.view.position id = some b)
    (hprev : b.prev = some prev) (ha : r.state.index.view.position prev = some a)
    (hlast : (r.state.index.view.branch (some prev)).find? (·.flags.generated) = some m) :
    (b.flags.generated = false → b.stakeModifier = m.stakeModifier) ∧
      (b.flags.generated = true ↔ p.intervalOf m.time < p.intervalOf a.time) := by
  obtain ⟨c, d, hrecords⟩ := h.faithful.records hb
  have hnext := hrecords.nextModifier
  rw [hprev, h.parameters] at hnext
  exact h.faithful.sound.linked.nextModifier_eq_ok ha hlast hnext

theorem Reached.exists_last (h : Reached p r) (ha : r.state.index.view.position prev = some a) :
    ∃ m, (r.state.index.view.branch (some prev)).find? (·.flags.generated) = some m :=
  Option.isSome_iff_exists.1 (List.find?_isSome.2 (h.faithful.sound.exists_generated ⟨a, ha⟩))

/-- Every block has the modifier of the last generation up to it. -/
theorem Reached.stakeModifier_eq (h : Reached p r) (hb : r.state.index.view.position id = some b)
    (hlast : (r.state.index.view.branch (some id)).find? (·.flags.generated) = some m) :
    b.stakeModifier = m.stakeModifier := by
  have hl := h.faithful.sound.linked
  rw [hl.branch_some hb] at hlast
  cases hgenerated : b.flags.generated with
  | true =>
    rw [List.find?_cons_of_pos (by simpa using hgenerated)] at hlast
    rw [Option.some.inj hlast]
  | false =>
    rw [List.find?_cons_of_neg (by simp [hgenerated])] at hlast
    cases hprev : b.prev with
    | none => simp [hprev] at hlast
    | some prev =>
      obtain ⟨a, ha, -⟩ := hl.parent hb hprev
      rw [hprev] at hlast
      exact (h.follows hb hprev ha hlast).1 hgenerated

/-- On a branch in order a later generation lies in a later interval. -/
theorem Reached.intervalOf_lt (h : Reached p r) (horder : r.state.index.view.InOrder j)
    (hm : r.state.index.view.position i = some m) (hn : r.state.index.view.position j = some n)
    (hgm : m.flags.generated = true) (hgn : n.flags.generated = true)
    (hahead : Relation.TransGen r.state.index.view.Parent i j) :
    p.intervalOf m.time < p.intervalOf n.time := by
  have hl := h.faithful.sound.linked
  obtain ⟨prev, hreach, hparent⟩ := Relation.TransGen.tail'_iff.1 hahead
  have hprev := hparent.prev_eq hn
  obtain ⟨a, ha, -⟩ := hl.parent hn hprev
  obtain ⟨last, hlast⟩ := h.exists_last ha
  have hbehind := hl.branch_times (some prev) (View.indexed_some.2 ⟨a, ha⟩) fun k hk => by
    obtain rfl := Option.some.inj hk
    exact horder.of_reaches (.single hparent)
  have hmem : m ∈ r.state.index.view.branch (some prev) := (hl.mem_branch_iff ha).2 ⟨i, hreach, hm⟩
  calc p.intervalOf m.time
      ≤ p.intervalOf last.time := p.intervalOf_mono (View.time_le_of_find? hbehind hlast hmem hgm)
    _ < p.intervalOf a.time := (h.follows hn hprev ha hlast).2.1 hgn
    _ ≤ p.intervalOf n.time := p.intervalOf_mono (horder j prev n a .refl hn hprev ha)

theorem Reached.scheduled (h : Reached p r) : r.state.index.view.Scheduled p where
  inherits := by
    intro id prev b a hb hprev ha hquiet
    obtain ⟨m, hlast⟩ := h.exists_last ha
    rw [(h.follows hb hprev ha hlast).1 hquiet, h.stakeModifier_eq ha hlast]
  renews := by
    intro i m j n prev a hconsecutive hprev ha
    have hlast := hconsecutive.last hconsecutive.ahead .refl hconsecutive.second hprev
    exact (h.follows hconsecutive.second hprev ha (hlast.find? h.faithful.sound.linked.ordered)).2.1
      hconsecutive.generated.2
  waits := by
    intro i m j n k b prev a hconsecutive hk hkj hb hprev ha
    have hlast := hconsecutive.last hk hkj.to_reflTransGen hb hprev
    have hquiet := hconsecutive.between k b hk hkj hb
    refine Nat.not_lt.1 fun hdue => ?_
    have := (h.follows hb hprev ha (hlast.find? h.faithful.sound.linked.ordered)).2.2 hdue
    simp [hquiet] at this
  apart := by
    intro tip i m j n horder hi hj hm hn hgm hgn hne
    rcases View.comparable hi hj with heq | hahead | hahead
    · exact absurd heq hne
    · exact Nat.ne_of_lt (h.intervalOf_lt (horder.of_reaches hj) hm hn hgm hgn hahead)
    · exact Nat.ne_of_gt (h.intervalOf_lt (horder.of_reaches hi) hn hm hgn hgm hahead)

end Run

/-- In every run modifiers follow the schedule: a block without a new one has that of the block before; of
two generations that follow one another the later comes as soon as the block before it lies in a later
interval than the earlier one, and not sooner; and on a branch in order no interval has two of them. -/
theorem modifier_schedule (p : Parameters) (offers : List CandidateBlock) :
    (Run.of p offers).state.index.view.Scheduled p := (Run.reached_of p offers).scheduled

open SmallChain in
/-- In the small chain a third block has a new modifier, and by the schedule the second lies in a later
interval than the first. -/
theorem modifier_schedule_renewed : ∃ m a n,
    (Run.of parameters [first, second, renewed]).state.index.view.Consecutive 0 m 2 n ∧
      (Run.of parameters [first, second, renewed]).state.index.view.position 1 = some a ∧
      parameters.intervalOf m.time < parameters.intervalOf a.time := by
  have hflags : (Run.of parameters [first, second, renewed]).state.index.positions.map
      (fun b => (b.prev, b.flags.generated)) =
        #[(none, true), (some 0, false), (some 1, true)] := by decide +kernel
  have found : ∀ id prev generated,
      ((Run.of parameters [first, second, renewed]).state.index.positions.map
        (fun b => (b.prev, b.flags.generated)))[id]? = some (prev, generated) →
      ∃ b, (Run.of parameters [first, second, renewed]).state.index.view.position id = some b ∧
        b.prev = prev ∧ b.flags.generated = generated := by
    intro id prev generated hid
    rw [Array.getElem?_map, Option.map_eq_some_iff] at hid
    obtain ⟨b, hb, hpair⟩ := hid
    obtain ⟨hprev, hgenerated⟩ := Prod.mk.inj hpair
    exact ⟨b, hb, hprev, hgenerated⟩
  obtain ⟨m, hm, -, hgm⟩ := found 0 none true (by rw [hflags]; rfl)
  obtain ⟨a, ha, hprev, hga⟩ := found 1 (some 0) false (by rw [hflags]; rfl)
  obtain ⟨n, hn, hnprev, hgn⟩ := found 2 (some 1) true (by rw [hflags]; rfl)
  have hconsecutive :
      (Run.of parameters [first, second, renewed]).state.index.view.Consecutive 0 m 2 n := by
    refine ⟨hm, hn, ⟨hgm, hgn⟩, .tail (.single ⟨a, ha, hprev⟩) ⟨n, hn, hnprev⟩, ?_⟩
    intro k c hk hk2 hc
    have hl := (Run.reached_of parameters [first, second, renewed]).faithful.sound.linked
    have hpos := hl.lt_of_ahead hk
    have hlt := hl.lt_of_ahead hk2
    obtain rfl : k = 1 := by omega
    obtain rfl : a = c := by simpa [ha] using hc
    exact hga
  exact ⟨m, a, n, hconsecutive, ha,
    (modifier_schedule parameters [first, second, renewed]).renews hconsecutive hnprev ha⟩

end StakeChain
