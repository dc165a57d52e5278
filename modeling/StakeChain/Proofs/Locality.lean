import Mathlib.Data.List.Induction
import Mathlib.Data.List.Nodup
import StakeChain.Proofs.Run
/-!
Verdicts are local to a branch. Two runs that built the branch of a block from the same blocks agree
behind it, so both give a candidate the same verdict: neither other branches, nor the order in which
blocks came, nor the ids they got have a say. From this it follows that every order of offering a set
of blocks, parents first, accepts the same blocks.
-/

namespace StakeChain

namespace ChainState

variable {s s' : ChainState} {b : CandidateBlock} {tip tip' : Option Nat}

theorem check_eq (hprev : s.predecessor b = .ok tip) :
    s.check b = (s.evaluateAfter b tip).map Prod.snd := by
  simp only [check, evaluate, hprev]
  rfl

/-- States that agree behind a block give it the same verdict. -/
theorem Agree.check (h : s.Agree s' tip tip') (hprev : s.predecessor b = .ok tip)
    (hprev' : s'.predecessor b = .ok tip') : s.check b = s'.check b := by
  rw [check_eq hprev, check_eq hprev', h.evaluateAfter b]
  cases s.evaluateAfter b tip <;> rfl

/-- A block that names an indexed predecessor and is new is checked behind that predecessor. -/
theorem predecessor_of_lookup {h : Hash} {id : Nat} (hh : b.prevHash = some h)
    (hid : s.index.lookup? h = some id) (hnew : s.index.lookup? b.hash = none) :
    s.predecessor b = .ok (some id) :=
  predecessor_eq_ok.2 ⟨hnew, Or.inl ⟨h, id, hh, hid, rfl⟩⟩

end ChainState

namespace Run

variable {p : Parameters} {r r' : Run} {b c : CandidateBlock} {d : ValidatedBlock}
  {l l' : List CandidateBlock}

/-- One block accepted in two runs, behind tips at which they agree, has positions that differ in their
links only. -/
theorem Records.position_eq {i j : Nat} {a a' : Position} {d' : ValidatedBlock}
    (h : r.Records i a c d) (h' : r'.Records j a' c d')
    (hagree : r.state.Agree r'.state a.prev a'.prev) : a' = { a with prev := a'.prev } := by
  have hsame := hagree.evaluateAfter c
  rw [h.evaluated, h'.evaluated] at hsame
  exact (Prod.mk.inj (Except.ok.inj hsame)).1

/-- Runs that built the branches of two tips from the same blocks agree at these tips. -/
theorem Faithful.agree (hf : r.Faithful) (hf' : r'.Faithful)
    (hp : r.state.parameters = r'.state.parameters) : ∀ tip, r.state.index.view.Indexed tip →
    ∀ tip', r'.state.index.view.Indexed tip' →
      r.branch (r.state.hashAt tip) = r'.branch (r'.state.hashAt tip') →
      r.state.Agree r'.state tip tip' := by
  refine hf.sound.linked.tip_induction ?_ ?_
  · intro tip' htip' hbranch
    cases tip' with
    | none => exact .root hp
    | some j =>
      obtain ⟨a', ha'⟩ := View.indexed_some.1 htip'
      obtain ⟨c', d', h'⟩ := hf'.records ha'
      rw [ChainState.hashAt_some ha', h'.branch] at hbranch
      simp at hbranch
  · intro i a ha ih tip' htip' hbranch
    obtain ⟨c, d, h⟩ := hf.records ha
    rw [ChainState.hashAt_some ha, h.branch] at hbranch
    cases tip' with
    | none => simp at hbranch
    | some j =>
      obtain ⟨a', ha'⟩ := View.indexed_some.1 htip'
      obtain ⟨c', d', h'⟩ := hf'.records ha'
      rw [ChainState.hashAt_some ha', h'.branch, List.append_singleton_inj] at hbranch
      obtain ⟨hbehind, rfl⟩ := hbranch
      have hagree : r.state.Agree r'.state a.prev a'.prev := by
        refine ih _ (hf'.sound.linked.indexed_prev ha') ?_
        rw [← h.link, ← h'.link]
        exact hbehind
      have hposition := h.position_eq h' hagree
      have hunlinked : a.unlinked = a'.unlinked := by
        rw [hposition]
        rfl
      refine .behind hp ⟨hf.sound.linked, hf'.sound.linked, ⟨a, ha⟩, ⟨a', ha'⟩, ?_⟩
        (hf.sound.exists_generated ⟨a, ha⟩) ?_
      · rw [hf.sound.linked.branch_some ha, hf'.sound.linked.branch_some ha', List.map_cons,
          List.map_cons, hunlinked, hagree.blocks]
      · rw [h.live, h'.live, hagree.live_eq, hposition]

/-- Runs that built the branch of a block's predecessor from the same blocks give it the same
verdict. -/
theorem Reached.check_eq (hr : Reached p r) (hr' : Reached p r') {h : Hash}
    (hh : b.prevHash = some h) (hknown : (r.state.index.lookup? h).isSome)
    (hknown' : (r'.state.index.lookup? h).isSome) (hnew : r.state.index.lookup? b.hash = none)
    (hnew' : r'.state.index.lookup? b.hash = none) (hbranch : r.branch (some h) = r'.branch (some h)) :
    r.state.check b = r'.state.check b := by
  obtain ⟨i, hi⟩ := Option.isSome_iff_exists.1 hknown
  obtain ⟨j, hj⟩ := Option.isSome_iff_exists.1 hknown'
  obtain ⟨a, ha, hash⟩ := hr.faithful.sound.linked.lookup_iff.1 hi
  obtain ⟨a', ha', hash'⟩ := hr'.faithful.sound.linked.lookup_iff.1 hj
  have hagree : r.state.Agree r'.state (some i) (some j) := by
    refine hr.faithful.agree hr'.faithful (hr.parameters.trans hr'.parameters.symm) _
      (View.indexed_some.2 ⟨a, ha⟩) _ (View.indexed_some.2 ⟨a', ha'⟩) ?_
    rw [ChainState.hashAt_some ha, ChainState.hashAt_some ha', hash, hash']
    exact hbranch
  exact hagree.check (ChainState.predecessor_of_lookup hh hi hnew)
    (ChainState.predecessor_of_lookup hh hj hnew')

/-! ### Orders of offering -/

/-- Blocks with hashes of their own, at most one of them without predecessor, in an order that has
every parent before its children. -/
structure ParentsFirst (l : List CandidateBlock) : Prop where
  distinct : (l.map CandidateBlock.hash).Nodup
  first : ∀ b ∈ l, ∀ c ∈ l, b.prevHash = none → c.prevHash = none → b = c
  ordered : l.Pairwise fun b c => b.prevHash ≠ some c.hash

/-- An offer is logged exactly when its check succeeds. -/
theorem Reached.log_offer (hr : Reached p r) (b : CandidateBlock) :
    (r.offer b).log = match r.state.check b with
      | .ok d => (b, d) :: r.log
      | .error _ => r.log := by
  have hl := hr.faithful.sound.linked
  unfold Run.offer
  cases haccept : r.state.accept b with
  | ok result =>
    obtain ⟨s, a⟩ := result
    obtain ⟨prev, position, hprev, heval, -, -⟩ := (ChainState.accept_eq_ok hl).1 haccept
    simp [ChainState.check_eq hprev, heval, Except.map]
  | error e =>
    cases hcheck : r.state.check b with
    | error e' => rfl
    | ok d =>
      obtain ⟨⟨position, d'⟩, heval, rfl⟩ := map_eq_ok.1 hcheck
      obtain ⟨prev, hprev, hafter⟩ := bind_eq_ok.1 heval
      have hok := (ChainState.accept_eq_ok (a := ⟨r.state.index.size, d'⟩) hl).2
        ⟨prev, position, hprev, hafter, rfl, rfl⟩
      rw [haccept] at hok
      simp at hok

theorem ParentsFirst.ne (h : ParentsFirst l) {m₁ m₂ : List CandidateBlock} (hl : l = m₁ ++ m₂)
    (hb : b ∈ m₁) (hc : c ∈ m₂) : b.hash ≠ c.hash := by
  have hdistinct := h.distinct
  rw [hl, List.map_append] at hdistinct
  exact (List.nodup_append.1 hdistinct).2.2 _ (List.mem_map_of_mem hb) _ (List.mem_map_of_mem hc)

/-- The blocks of a run's log were offered. -/
theorem mem_of_log {e : CandidateBlock × ValidatedBlock} (he : e ∈ (of p l).log) : e.1 ∈ l := by
  obtain ⟨new, hlog, hsub⟩ := log_offers (start p) l
  have hall : (of p l).log = new := hlog.trans (List.append_nil new)
  rw [hall] at he
  exact List.mem_reverse.1 (hsub.subset (List.mem_map_of_mem he))

theorem branchTo_append {new earlier : List CandidateBlock} {h : Hash}
    (hnew : ∀ c ∈ new, c.hash ≠ h) : branchTo (new ++ earlier) (some h) = branchTo earlier (some h) := by
  induction new with
  | nil => rfl
  | cons c new ih =>
    obtain ⟨hhead, htail⟩ := List.forall_mem_cons.1 hnew
    have hne : (some h : Option Hash) ≠ some c.hash := fun heq => hhead (Option.some.inj heq).symm
    rw [List.cons_append, branchTo_ne hne, ih htail]

/-- Later offers of blocks with other hashes leave a branch as it is. -/
theorem branch_offers {m : List CandidateBlock} {h : Hash} (hm : ∀ c ∈ m, c.hash ≠ h) :
    (m.foldl Run.offer r).branch (some h) = r.branch (some h) := by
  obtain ⟨new, hlog, hsub⟩ := log_offers r m
  rw [branch, hlog, List.map_append]
  exact branchTo_append fun c hc => hm c (List.mem_reverse.1 (hsub.subset hc))

/-- An entry whose block is not among later offers was there before them. -/
theorem mem_log_of_offers {m : List CandidateBlock} {e : CandidateBlock × ValidatedBlock}
    (he : e ∈ (m.foldl Run.offer r).log) (hm : e.1 ∉ m) : e ∈ r.log := by
  obtain ⟨new, hlog, hsub⟩ := log_offers r m
  rw [hlog] at he
  rcases List.mem_append.1 he with he | he
  · exact absurd (List.mem_reverse.1 (hsub.subset (List.mem_map_of_mem he))) hm
  · exact he

theorem mem_offers_log {m : List CandidateBlock} {e : CandidateBlock × ValidatedBlock}
    (he : e ∈ r.log) : e ∈ (m.foldl Run.offer r).log := by
  obtain ⟨new, hlog, -⟩ := log_offers r m
  rw [hlog]
  exact List.mem_append_right _ he

/-- A block with a position was accepted. -/
theorem Faithful.logged (hf : r.Faithful) {h : Hash} {id : Nat}
    (hid : r.state.index.lookup? h = some id) : ∃ e ∈ r.log, e.1.hash = h := by
  obtain ⟨a, ha, hash⟩ := hf.sound.linked.lookup_iff.1 hid
  obtain ⟨c, d, hrec⟩ := hf.records ha
  exact ⟨(c, d), hrec.logged, hrec.hash.symm.trans hash⟩

/-- In a run that is not empty a block without predecessor was accepted. -/
theorem Faithful.exists_first (hf : r.Faithful) (hsize : r.state.index.size ≠ 0) :
    ∃ e ∈ r.log, e.1.prevHash = none := by
  obtain ⟨b, hb⟩ := ChainIndex.exists_position (Nat.pos_of_ne_zero hsize)
  obtain ⟨c, d, hrec⟩ := hf.records hb
  refine ⟨(c, d), hrec.logged, ?_⟩
  cases hprev : b.prev with
  | none => rw [hrec.link, hprev, ChainState.hashAt_none]
  | some prev => exact absurd (hf.sound.linked.descends hb hprev) (by omega)

/-- A verdict moves to a run where the block is new and that has built the predecessor's branch from
the same blocks, or is empty where there is no predecessor. -/
theorem Reached.check_moved (hr : Reached p r) (hr' : Reached p r') (hcheck : r.state.check b = .ok d)
    (hnew : r'.state.index.lookup? b.hash = none)
    (hparent : ∀ e ∈ r.log, b.prevHash = some e.1.hash →
      e ∈ r'.log ∧ r.branch (some e.1.hash) = r'.branch (some e.1.hash))
    (hfirst : b.prevHash = none → r'.state.index.size = 0) :
    r'.state.check b = .ok d ∧ r.branch b.prevHash = r'.branch b.prevHash := by
  obtain ⟨result, heval, -⟩ := map_eq_ok.1 hcheck
  obtain ⟨prev, hprev, -⟩ := bind_eq_ok.1 heval
  obtain ⟨hlook, ⟨h, id, hh, hid, -⟩ | ⟨hh, -, rfl⟩⟩ := ChainState.predecessor_eq_ok.1 hprev
  · obtain ⟨e, he, rfl⟩ := hr.faithful.logged hid
    obtain ⟨hmem, hbranch⟩ := hparent e he hh
    obtain ⟨id', b', hrec⟩ := hr'.faithful.placed hmem
    have hid' : r'.state.index.lookup? e.1.hash = some id' :=
      hr'.faithful.sound.linked.lookup_iff.2 ⟨b', hrec.found, hrec.hash⟩
    rw [← hr.check_eq hr' hh (by simp [ChainIndex.lookup?, hid]) (by simp [hid']) hlook hnew hbranch]
    exact ⟨hcheck, by rw [hh, hbranch]⟩
  · have hprev' : r'.state.predecessor b = .ok none :=
      ChainState.predecessor_eq_ok.2 ⟨hnew, Or.inr ⟨hh, hfirst hh, rfl⟩⟩
    have hroot : r.state.Agree r'.state none none :=
      .root (hr.parameters.trans hr'.parameters.symm)
    rw [← hroot.check hprev hprev']
    exact ⟨hcheck, by rw [hh, branch_none, branch_none]⟩

/-- The run `r'` has accepted what `r` has, on the same branches. -/
def Carried (r r' : Run) : Prop := ∀ e ∈ r.log,
  e ∈ r'.log ∧ r.branch (some e.1.hash) = r'.branch (some e.1.hash)

section Step

variable {m₁ m₂ : List CandidateBlock} (h' : ParentsFirst l') (hl' : l' = m₁ ++ b :: m₂)
  (hcarried : r.Carried (of p l')) (hfresh : ∀ e ∈ r.log, e.1.hash ≠ b.hash)

include h' hl' hcarried hfresh

/-- In an order that has parents first, what carries the parent of a block has accepted it before the
block's turn. -/
theorem Carried.parent : ∀ e ∈ r.log, b.prevHash = some e.1.hash →
    e ∈ (of p m₁).log ∧ r.branch (some e.1.hash) = (of p m₁).branch (some e.1.hash) := by
  intro e he hprev
  obtain ⟨hmem, hsame⟩ := hcarried e he
  have hout : e.1 ∉ b :: m₂ := by
    intro hin
    rcases List.mem_cons.1 hin with heq | hlater
    · exact hfresh e he (congrArg _ heq)
    · have hordered := h'.ordered
      rw [hl', List.pairwise_append, List.pairwise_cons] at hordered
      exact hordered.2.1.1 _ hlater hprev
  rw [hl', of_append] at hmem hsame
  have hmem' := mem_log_of_offers hmem hout
  exact ⟨hmem', hsame.trans (branch_offers fun c hc => (h'.ne hl' (mem_of_log hmem') hc).symm)⟩

theorem Carried.check (hr : Reached p r) (hcheck : r.state.check b = .ok d) :
    (of p m₁).state.check b = .ok d ∧ r.branch b.prevHash = (of p m₁).branch b.prevHash := by
  have hr' : Reached p (of p m₁) := reached_of p m₁
  have hne : ∀ c ∈ m₁, c.hash ≠ b.hash := fun c hc => h'.ne hl' hc List.mem_cons_self
  refine hr.check_moved hr' hcheck ?_ (hcarried.parent h' hl' hfresh) ?_
  · refine Option.eq_none_iff_forall_ne_some.2 fun id hid => ?_
    obtain ⟨e, he, hash⟩ := hr'.faithful.logged hid
    exact hne _ (mem_of_log he) hash
  · -- Another block without predecessor cannot have been offered before.
    intro hnone
    by_contra hsize
    obtain ⟨e, he, hroot⟩ := hr'.faithful.exists_first hsize
    have hm := mem_of_log he
    have heq := h'.first e.1 (by simp [hl', hm]) b (by simp [hl']) hroot hnone
    exact hne _ hm (congrArg _ heq)

theorem Carried.offer (hr : Reached p r) : (r.offer b).Carried (of p l') := by
  intro e he
  have hlog := hr.log_offer b
  have old : e ∈ r.log → e ∈ (of p l').log ∧
      (r.offer b).branch (some e.1.hash) = (of p l').branch (some e.1.hash) := by
    intro he
    obtain ⟨hmem, hbranch⟩ := hcarried e he
    refine ⟨hmem, Eq.trans ?_ hbranch⟩
    exact branch_offers (m := [b]) (by simpa using (hfresh e he).symm)
  rw [hlog] at he
  cases hcheck : r.state.check b with
  | error error =>
    rw [hcheck] at he
    exact old he
  | ok d =>
    rw [hcheck] at hlog he
    rcases List.mem_cons.1 he with rfl | he
    · obtain ⟨hcheck', hbranch⟩ := hcarried.check h' hl' hfresh hr hcheck
      have hlog' : ((of p m₁).offer b).log = (b, d) :: (of p m₁).log := by
        rw [(reached_of p m₁).log_offer, hcheck']
      have hsplit : l' = (m₁ ++ [b]) ++ m₂ := by simpa using hl'
      have hne : ∀ c ∈ m₂, c.hash ≠ b.hash := fun c hc => (h'.ne hsplit (by simp) hc).symm
      rw [hl', of_append, List.foldl_cons]
      refine ⟨mem_offers_log (by simp [hlog']), ?_⟩
      rw [branch_offers hne]
      simp only [branch, hlog, hlog', List.map_cons, branchTo, if_pos]
      exact congrArg (· ++ [b]) hbranch
    · exact old he

end Step

/-- What a part of one order accepts, another order of the blocks carries. -/
theorem carried_of_perm (h : ParentsFirst l) (h' : ParentsFirst l') (hperm : l.Perm l') :
    ∀ l₁ l₂, l = l₁ ++ l₂ → (of p l₁).Carried (of p l') := by
  intro l₁
  induction l₁ using List.reverseRecOn with
  | nil => intro _ _ e he; simp [of, start] at he
  | append_singleton l₁ b ih =>
    intro l₂ hl
    have hl₁ : l = l₁ ++ b :: l₂ := by simpa using hl
    obtain ⟨m₁, m₂, hl'⟩ := List.append_of_mem (hperm.mem_iff.1 (by simp [hl₁] : b ∈ l))
    rw [of_append]
    exact (ih _ hl₁).offer h' hl' (fun e he => h.ne hl₁ (mem_of_log he) List.mem_cons_self)
      (reached_of p l₁)

theorem ParentsFirst.nodup_log (h : ParentsFirst l) : (of p l).log.Nodup := by
  obtain ⟨new, hlog, hsub⟩ := log_offers (start p) l
  have hall : (of p l).log = new := hlog.trans (List.append_nil new)
  rw [hall]
  exact (hsub.nodup (List.nodup_reverse.2 (List.Nodup.of_map _ h.distinct))).of_map _

/-- Every order of the blocks, parents first, accepts the same blocks and derives the same of them. -/
theorem log_perm (h : ParentsFirst l) (h' : ParentsFirst l') (hperm : l.Perm l') :
    (of p l).log.Perm (of p l').log := by
  refine (List.perm_ext_iff_of_nodup h.nodup_log h'.nodup_log).2 fun e => ⟨?_, ?_⟩
  · exact fun he => (carried_of_perm h h' hperm l [] (by simp) e he).1
  · exact fun he => (carried_of_perm h' h hperm.symm l' [] (by simp) e he).1

/-- The best height is known from what was accepted. -/
theorem Faithful.bestHeight_le (hf : r.Faithful) (hf' : r'.Faithful) (hlog : r.log ⊆ r'.log) {n : Nat}
    (hn : r.state.index.bestHeight? = some n) :
    ∃ m, r'.state.index.bestHeight? = some m ∧ n ≤ m := by
  obtain ⟨id, a, -, ha, rfl⟩ := hf.sound.index.exists_of_bestHeight hn
  obtain ⟨c, d, hrec⟩ := hf.records ha
  obtain ⟨id', a', hrec'⟩ := hf'.placed (hlog hrec.logged)
  obtain ⟨m, hm, hle⟩ := hf'.sound.index.height_le_best hrec'.found
  exact ⟨m, hm, by rw [hrec.height, ← hrec'.height]; exact hle⟩

theorem bestHeight_perm (hr : Reached p r) (hr' : Reached p r') (hlog : r.log.Perm r'.log) :
    r.state.index.bestHeight? = r'.state.index.bestHeight? := by
  refine Option.ext fun n => ?_
  have one : ∀ {r r' : Run}, Reached p r → Reached p r' → r.log.Perm r'.log →
      r.state.index.bestHeight? = some n → r'.state.index.bestHeight? = some n := by
    intro r r' hr hr' hlog hn
    obtain ⟨m, hm, hle⟩ := hr.faithful.bestHeight_le hr'.faithful hlog.subset hn
    obtain ⟨n', hn', hle'⟩ := hr'.faithful.bestHeight_le hr.faithful hlog.symm.subset hm
    obtain rfl : n = n' := by simpa [hn] using hn'
    rw [hm, Nat.le_antisymm hle' hle]
  exact ⟨one hr hr' hlog, one hr' hr hlog.symm⟩

end Run

/-- Validation is local to a branch. Any two runs with the same parameters give the same verdict, the
derived values or the error, of a block that is new to both and whose predecessor's branch both built
from the same blocks. So every order of offering blocks, parents first, accepts the same blocks with
the same derived values, and reaches the same best height. -/
theorem validation_local (p : Parameters) :
    (∀ (offers offers' : List CandidateBlock) (b : CandidateBlock) (h : Hash),
      b.prevHash = some h →
      ((Run.of p offers).state.index.lookup? h).isSome →
      ((Run.of p offers').state.index.lookup? h).isSome →
      (Run.of p offers).state.index.lookup? b.hash = none →
      (Run.of p offers').state.index.lookup? b.hash = none →
      (Run.of p offers).branch (some h) = (Run.of p offers').branch (some h) →
      (Run.of p offers).state.check b = (Run.of p offers').state.check b) ∧
    (∀ l l' : List CandidateBlock, Run.ParentsFirst l → Run.ParentsFirst l' → l.Perm l' →
      (Run.of p l).log.Perm (Run.of p l').log ∧
      (Run.of p l).state.index.bestHeight? = (Run.of p l').state.index.bestHeight?) := by
  refine ⟨?_, ?_⟩
  · intro offers offers' b h hh hknown hknown' hnew hnew' hbranch
    exact (Run.reached_of p offers).check_eq (Run.reached_of p offers') hh hknown hknown' hnew hnew'
      hbranch
  · intro l l' h h' hperm
    have hlog := Run.log_perm (p := p) h h' hperm
    exact ⟨hlog, Run.bestHeight_perm (Run.reached_of p l) (Run.reached_of p l') hlog⟩

open SmallChain in
/-- A staked block gets the same verdict whether or not another block was accepted before it, and both
orders of the two accept the same. -/
theorem validation_local_staked :
    (Run.of parameters [first, plain]).state.check staked =
        (Run.of parameters [first]).state.check staked ∧
      (Run.of parameters [first, plain, staked]).log.Perm
        (Run.of parameters [first, staked, plain]).log := by
  obtain ⟨hcheck, horder⟩ := validation_local parameters
  refine ⟨?_, (horder _ _ ⟨by decide, by decide, by decide⟩ ⟨by decide, by decide, by decide⟩ ?_).1⟩
  · exact hcheck _ _ _ first.hash rfl (by decide +kernel) (by decide +kernel) (by decide +kernel)
      (by decide +kernel) (by decide +kernel)
  · exact (List.Perm.swap _ _ _).cons _

end StakeChain
