import StakeChain.Proofs.Atomic
import StakeChain.Proofs.KernelInput
/-!
The times that transactions claim. A run keeps them with the outputs, and reads one again when a block stakes the
output: with the time of its block in place of a missing one. Nothing else is read, so two runs over blocks that
differ in claimed times give the same answers as long as each block stakes an output of the same time. No version
of the protocol puts an end to this: a claimed time of a staked output enters its kernel.
-/

namespace StakeChain

/-! ### Without claimed times -/

/-- The transaction without the time that it claims. -/
def Transaction.untimed (tx : Transaction) : Transaction := { tx with time := none }

/-- The source without the time that its transaction claims. -/
def StakeSource.untimed (a : StakeSource) : StakeSource := { a with txTime := none }

def OutputEntry.untimed (e : OutputEntry) : OutputEntry := { e with source := e.source.untimed }

def OutputStore.untimed (s : OutputStore) : OutputStore := ⟨s.entries.map OutputEntry.untimed⟩

def ChainState.untimed (s : ChainState) : ChainState := { s with outputs := s.outputs.untimed }

/-- The second block is the first one, where transactions other than the coinstake may claim other times. -/
structure CandidateBlock.Retimed (b b' : CandidateBlock) : Prop where
  hash : b.hash = b'.hash
  prevHash : b.prevHash = b'.prevHash
  time : b.time = b'.time
  version : b.version = b'.version
  nBits : b.nBits = b'.nBits
  transactions : b.transactions.map Transaction.untimed = b'.transactions.map Transaction.untimed
  signatureDigest : b.signatureDigest = b'.signatureDigest
  coinstake : b.coinstake? = b'.coinstake?

theorem CandidateBlock.Retimed.refl (b : CandidateBlock) : b.Retimed b := by
  constructor <;> rfl

theorem transactionOffsets_untimed (txs : List Transaction) :
    transactionOffsets (txs.map Transaction.untimed) = transactionOffsets txs := by
  rw [transactionOffsets, transactionOffsets, List.length_map, List.map_map]
  rfl

theorem map_modify {α β : Type} {f : α → α} {g : α → β} {f' : β → β} (h : ∀ a, g (f a) = f' (g a))
    (l : List α) (i : Nat) : (l.modify i f).map g = (l.map g).modify i f' := by
  induction l generalizing i with
  | nil => cases i <;> rfl
  | cons a l ih =>
    cases i with
    | zero => exact congrArg (· :: l.map g) (h a)
    | succ i => exact congrArg (g a :: ·) (ih i)

namespace OutputStore

variable {s : OutputStore} {v : View} {n : Nat} {tip : Option Nat} {o : OutPoint} {block : SourceBlock}

theorem untimed_toList (s : OutputStore) :
    s.untimed.entries.toList = s.entries.toList.map OutputEntry.untimed := Array.toList_map

theorem ext_toList {s s' : OutputStore} (h : s.entries.toList = s'.entries.toList) : s = s' := by
  obtain ⟨⟨l⟩⟩ := s
  obtain ⟨⟨l'⟩⟩ := s'
  obtain rfl : l = l' := h
  rfl

theorem get?_untimed : s.untimed.get? v tip o = (s.get? v tip o).map StakeSource.untimed := by
  simp only [get?, untimed, Array.find?_map, Option.map_map]
  rfl

/-- Claimed times make no output available and none missing. -/
theorem checkSpendable_untimed (txs : List Transaction) :
    s.untimed.checkSpendable v tip (txs.map Transaction.untimed) = s.checkSpendable v tip txs := by
  have hspends : ∀ created, spends created (txs.map Transaction.untimed) = spends created txs := by
    induction txs with
    | nil => exact fun _ => rfl
    | cons tx rest ih =>
      intro created
      rw [List.map_cons, spends, spends, ih]
      rfl
  simp only [checkSpendable, hspends, get?_untimed, Option.isSome_map]

theorem spend_untimed : (s.spend v n o).untimed = s.untimed.spend v n o := by
  refine ext_toList ?_
  rw [untimed_toList, spend_toList, spend_toList, untimed_toList, List.findIdx?_map]
  have hlive : isLive v (some n) o ∘ OutputEntry.untimed = isLive v (some n) o := rfl
  rw [hlive]
  cases s.entries.toList.findIdx? (isLive v (some n) o) with
  | none => rfl
  | some i =>
    refine map_modify ?_ _ _
    exact fun _ => rfl

theorem create_untimed {tx : Transaction} {offset : Nat} :
    (s.create n block tx offset).untimed = s.untimed.create n block tx.untimed offset := by
  refine ext_toList ?_
  rw [untimed_toList, create_toList, create_toList, untimed_toList, List.map_append, Unspent.created,
    Unspent.created, List.map_map, List.map_map, List.map_map]
  rfl

/-- Connecting blocks without their claimed times gives the outputs without theirs. -/
theorem connect_untimed (txs : List Transaction) :
    (s.connect v n block txs).untimed = s.untimed.connect v n block (txs.map Transaction.untimed) := by
  have hspends : ∀ (os : List OutPoint) (s : OutputStore), (os.foldl (fun s o => s.spend v n o) s).untimed =
      os.foldl (fun s o => s.spend v n o) s.untimed := by
    intro os
    induction os with
    | nil => exact fun _ => rfl
    | cons o os ih =>
      intro s
      rw [List.foldl_cons, ih, spend_untimed, List.foldl_cons]
  have happlies : ∀ (ts : List (Transaction × Nat)) (s : OutputStore),
      (ts.foldl (fun s t => s.apply v n block t.1 t.2) s).untimed =
        (ts.map fun t => (t.1.untimed, t.2)).foldl (fun s t => s.apply v n block t.1 t.2) s.untimed := by
    intro ts
    induction ts with
    | nil => exact fun _ => rfl
    | cons t ts ih =>
      intro s
      rw [List.foldl_cons, ih, List.map_cons, List.foldl_cons, apply, create_untimed, hspends]
      rfl
  rw [connect, connect, happlies, transactionOffsets_untimed, List.zip_map_left]
  rfl

end OutputStore

/-! ### What a coinstake reads of a time -/

/-- The source, where its transaction claims the time that it counts for. -/
def StakeSource.settled (a : StakeSource) : StakeSource := { a with txTime := some a.effectiveTime }

theorem StakeSource.settled_eq {a a' : StakeSource} (h : a.untimed = a'.untimed)
    (htime : a.effectiveTime = a'.effectiveTime) : a.settled = a'.settled := by
  obtain ⟨o, out, t, block, offset⟩ := a
  obtain ⟨o', out', t', block', offset'⟩ := a'
  simp only [untimed, mk.injEq] at h
  obtain ⟨rfl, rfl, -, rfl, rfl⟩ := h
  simp only [settled, htime]

theorem StakeSource.map_settled_eq {x y : Option StakeSource}
    (h : x.map StakeSource.untimed = y.map StakeSource.untimed)
    (htime : x.map StakeSource.effectiveTime = y.map StakeSource.effectiveTime) :
    x.map StakeSource.settled = y.map StakeSource.settled := by
  cases x <;> cases y <;> simp only [Option.map_none, Option.map_some, reduceCtorEq, Option.some.injEq] at *
  exact StakeSource.settled_eq h htime

namespace View

variable {v : View} {prev : Nat} {tx : Transaction} {outputs outputs' : OutputView}

theorem kernelSource_settled : v.kernelSource (fun o => (outputs o).map (Option.map StakeSource.settled))
    prev tx = (v.kernelSource outputs prev tx).map StakeSource.settled := by
  unfold kernelSource OutputView.source
  cases tx.kernelInput? with
  | none => rfl
  | some o =>
    simp only [bind, Except.bind, pure, Except.pure, throw, throwThe, MonadExceptOf.throw]
    cases outputs o with
    | error e => rfl
    | ok found =>
      cases found with
      | none => rfl
      | some a =>
        simp only [Except.map, Option.map_some, StakeSource.settled]
        split <;> rfl

/-- The check of a coinstake reads of the output only the time that it counts for. -/
theorem checkCoinstake_settled {p : Parameters} {nBits time : UInt32} :
    v.checkCoinstake (fun o => (outputs o).map (Option.map StakeSource.settled)) p prev tx nBits time =
      v.checkCoinstake outputs p prev tx nBits time := by
  unfold checkCoinstake
  rw [kernelSource_settled]
  cases v.kernelSource outputs prev tx <;> rfl

/-- The check of a coinstake reads of the outputs only the one that it stakes. -/
theorem checkCoinstake_congr {p : Parameters} {nBits time : UInt32}
    (h : ∀ o, tx.kernelInput? = some o → outputs o = outputs' o) :
    v.checkCoinstake outputs p prev tx nBits time = v.checkCoinstake outputs' p prev tx nBits time := by
  have hsource : v.kernelSource outputs prev tx = v.kernelSource outputs' prev tx := by
    unfold kernelSource OutputView.source
    cases ho : tx.kernelInput? with
    | none => rfl
    | some o => simp only [h o ho]
  unfold checkCoinstake
  rw [hsource]

end View

/-! ### Two states that differ in claimed times -/

namespace ChainState

variable {s s' : ChainState} {b b' : CandidateBlock} {prev : Option Nat}

/-- The output that a block behind `prev` stakes. -/
def stakedSource? (s : ChainState) (b : CandidateBlock) (prev : Option Nat) : Option StakeSource :=
  (b.coinstake?.bind Transaction.kernelInput?).bind (s.outputs.get? s.index.view prev)

/-- The time that the output counts for which a block stakes behind its predecessor. -/
def stakedTime? (s : ChainState) (b : CandidateBlock) : Option UInt32 :=
  (s.predecessor b).toOption.bind fun prev => (s.stakedSource? b prev).map StakeSource.effectiveTime

section Untimed

variable (hs : s.untimed = s'.untimed)

include hs

theorem parameters_of_untimed : s.parameters = s'.parameters := (congrArg ChainState.parameters hs :)

theorem index_of_untimed : s.index = s'.index := (congrArg ChainState.index hs :)

theorem outputs_of_untimed : s.outputs.untimed = s'.outputs.untimed := (congrArg ChainState.outputs hs :)

theorem coinstakes_of_untimed : s.coinstakes = s'.coinstakes := (congrArg ChainState.coinstakes hs :)

theorem get?_of_untimed (tip : Option Nat) (o : OutPoint) :
    (s.outputs.get? s.index.view tip o).map StakeSource.untimed =
      (s'.outputs.get? s'.index.view tip o).map StakeSource.untimed := by
  rw [← OutputStore.get?_untimed, ← OutputStore.get?_untimed, outputs_of_untimed hs, index_of_untimed hs]

variable (hb : b.Retimed b')

include hb

theorem predecessor_of_untimed : s.predecessor b = s'.predecessor b' := by
  simp only [predecessor, index_of_untimed hs, hb.hash, hb.prevHash]

theorem checkSpendable_of_untimed (tip : Option Nat) :
    s.outputs.checkSpendable s.index.view tip b.transactions =
      s'.outputs.checkSpendable s'.index.view tip b'.transactions := by
  refine (OutputStore.checkSpendable_untimed _).symm.trans (Eq.trans ?_ (OutputStore.checkSpendable_untimed _))
  rw [outputs_of_untimed hs, index_of_untimed hs, hb.transactions]

/-- Outputs that are equal but for claimed times, and count for the same time, stake alike. -/
theorem proofOf_of_untimed (htime : (s.stakedSource? b prev).map StakeSource.effectiveTime =
    (s'.stakedSource? b' prev).map StakeSource.effectiveTime) : s.proofOf b prev = s'.proofOf b' prev := by
  unfold proofOf
  rw [← hb.coinstake, ← hb.nBits, ← hb.time, ← parameters_of_untimed hs, ← index_of_untimed hs]
  cases htx : b.coinstake? with
  | none => rfl
  | some tx =>
    cases prev with
    | none => rfl
    | some id =>
      have hcheck : s.index.view.checkCoinstake (s.outputs.outputView s.index.view (some id)) s.parameters id tx
          b.nBits b.time = s.index.view.checkCoinstake (s'.outputs.outputView s.index.view (some id))
          s.parameters id tx b.nBits b.time := by
        -- Settled, the outputs staked on both sides are equal, and no other output is looked at.
        rw [← View.checkCoinstake_settled,
          ← @View.checkCoinstake_settled _ _ _ (s'.outputs.outputView s.index.view (some id))]
        refine View.checkCoinstake_congr fun o ho => ?_
        have hget := get?_of_untimed hs (some id) o
        simp only [stakedSource?, ← hb.coinstake, htx, Option.bind_some, ho, ← index_of_untimed hs] at htime hget
        exact congrArg Except.ok (StakeSource.map_settled_eq hget htime)
      simp only [hcheck]

/-- The check of a block behind `prev` depends on claimed times through the output staked only. -/
theorem evaluateAfter_of_untimed (htime : (s.stakedSource? b prev).map StakeSource.effectiveTime =
    (s'.stakedSource? b' prev).map StakeSource.effectiveTime) :
    s.evaluateAfter b prev = s'.evaluateAfter b' prev := by
  have hspendable := checkSpendable_of_untimed hs hb prev
  rw [index_of_untimed hs] at hspendable
  simp only [evaluateAfter, CandidateBlock.unsummed, nextHeight, proofOf_of_untimed hs hb htime, hspendable,
    parameters_of_untimed hs, index_of_untimed hs, hb.time, hb.hash, hb.version, hb.signatureDigest]

theorem evaluate_of_untimed (htime : s.stakedTime? b = s'.stakedTime? b') :
    s.evaluate b = s'.evaluate b' := by
  have hpredecessor := predecessor_of_untimed hs hb
  unfold evaluate
  simp only [stakedTime?, hpredecessor] at htime ⊢
  cases hprev : s'.predecessor b' with
  | error e => rfl
  | ok prev =>
    simp only [hprev, Except.toOption, Option.bind_some] at htime
    exact evaluateAfter_of_untimed hs hb htime

/-- Connecting the blocks at one position leaves states that again differ in claimed times only. -/
theorem connected_of_untimed (position : Position) :
    (s.connected b position).untimed = (s'.connected b' position).untimed := by
  simp only [untimed, connected, OutputStore.connect_untimed, parameters_of_untimed hs, index_of_untimed hs,
    outputs_of_untimed hs, coinstakes_of_untimed hs, hb.transactions, hb.coinstake, hb.nBits]

end Untimed

end ChainState

namespace Run

/-- The answers to blocks offered one after another. -/
def answers (r : Run) : List CandidateBlock → List (Except StateError AcceptedBlock)
  | [] => []
  | b :: rest => (r.state.accept b).map Prod.snd :: (r.offer b).answers rest

/-- The times that the outputs count for which blocks offered one after another stake. -/
def stakedTimes (r : Run) : List CandidateBlock → List (Option UInt32)
  | [] => []
  | b :: rest => r.state.stakedTime? b :: (r.offer b).stakedTimes rest

variable {p p' : Parameters} {r r' : Run} {b b' : CandidateBlock}

/-- A block and its retimed form get one answer where they stake outputs of one time, and the states stay the
same but for claimed times. -/
theorem Reached.offer_of_untimed (hr : Reached p r) (hr' : Reached p' r')
    (hs : r.state.untimed = r'.state.untimed) (hb : b.Retimed b')
    (htime : r.state.stakedTime? b = r'.state.stakedTime? b') :
    (r.state.accept b).map Prod.snd = (r'.state.accept b').map Prod.snd ∧
      (r.offer b).state.untimed = (r'.offer b').state.untimed := by
  have hevaluate := ChainState.evaluate_of_untimed hs hb htime
  have haccept := ChainState.accept_eq hr.faithful.sound.linked b
  have haccept' := ChainState.accept_eq hr'.faithful.sound.linked b'
  rw [hevaluate] at haccept
  cases heval : r'.state.evaluate b' with
  | error e =>
    rw [heval] at haccept haccept'
    refine ⟨by rw [haccept, haccept']; rfl, ?_⟩
    rw [offer_of_error haccept, offer_of_error haccept']
    exact hs
  | ok derived =>
    rw [heval] at haccept haccept'
    refine ⟨?_, ?_⟩
    · rw [haccept, haccept', ChainState.index_of_untimed hs]
      rfl
    · rw [state_offer_of_ok haccept, state_offer_of_ok haccept']
      exact ChainState.connected_of_untimed hs hb derived.1

theorem Reached.answers_of_untimed {blocks blocks' : List CandidateBlock}
    (hblocks : List.Forall₂ CandidateBlock.Retimed blocks blocks') (hr : Reached p r) (hr' : Reached p' r')
    (hs : r.state.untimed = r'.state.untimed) (htimes : r.stakedTimes blocks = r'.stakedTimes blocks') :
    r.answers blocks = r'.answers blocks' ∧
      (blocks.foldl Run.offer r).state.untimed = (blocks'.foldl Run.offer r').state.untimed := by
  -- Along the blocks the states stay equal but for claimed times, which is what the next block needs.
  induction hblocks generalizing r r' with
  | nil => exact ⟨rfl, hs⟩
  | cons hb _ ih =>
    obtain ⟨htime, htimes⟩ := List.cons.inj htimes
    obtain ⟨hanswer, hnext⟩ := hr.offer_of_untimed hr' hs hb htime
    obtain ⟨hanswers, hlast⟩ := ih (hr.offer _) (hr'.offer _) hnext htimes
    refine ⟨?_, hlast⟩
    rw [answers, answers, hanswer, hanswers]

end Run

/-- Two runs over blocks that differ in claimed times, other than those of coinstakes, give the same answers
where each block stakes an output that counts for the same time in both, and their states then differ in claimed
times only. Two outputs that differ in claimed times have the same kernel message, which is what the kernel hash
is taken of, exactly when they count for the same time. -/
theorem claimed_times_by_stake (p : Parameters) (blocks blocks' : List CandidateBlock)
    (hblocks : List.Forall₂ CandidateBlock.Retimed blocks blocks')
    (htimes : (Run.start p).stakedTimes blocks = (Run.start p).stakedTimes blocks') :
    (Run.start p).answers blocks = (Run.start p).answers blocks' ∧
    (Run.of p blocks).state.untimed = (Run.of p blocks').state.untimed ∧
    (∀ (a : StakeSource) m nBits time,
      a.kernelHash m nBits time = .doubleSha256 (a.kernelMessage m nBits time)) ∧
    ∀ a a' : StakeSource, a.untimed = a'.untimed → ∀ m nBits time,
      (a.kernelMessage m nBits time = a'.kernelMessage m nBits time ↔ a.effectiveTime = a'.effectiveTime) := by
  obtain ⟨hanswers, hstates⟩ := Run.Reached.answers_of_untimed hblocks (.start (p := p)) .start rfl htimes
  refine ⟨hanswers, hstates, StakeSource.kernelHash_eq, fun a a' h m nBits time => ?_⟩
  rw [StakeSource.kernelMessage_eq_iff]
  have hblock : a.block = a'.block := (congrArg StakeSource.block h :)
  have hoffset : a.txOffset = a'.txOffset := (congrArg StakeSource.txOffset h :)
  have houtpoint : a.outpoint = a'.outpoint := (congrArg StakeSource.outpoint h :)
  constructor
  · exact StakeSource.Twin.effectiveTime
  · intro htime
    exact ⟨congrArg _ hblock, hoffset, htime, congrArg _ houtpoint⟩

namespace SmallChain

/-- The first block, where its coinbase claims a time. -/
def claiming (time : UInt32) : CandidateBlock :=
  { first with transactions := [⟨digest 1, some time, [.null], [⟨1000000000000, [1]⟩], 100⟩] }

theorem first_claiming (time : UInt32) : first.Retimed (claiming time) := by
  constructor <;> rfl

/-- The block that stakes the first one's output, with a target that it misses. -/
def missing : CandidateBlock := { staked with nBits := 0x1e7fffff }

theorem claiming_own_time : (Run.start parameters).stakedTimes [first, staked] = [none, some 1600000000] ∧
    (Run.start parameters).stakedTimes [claiming 1600000000, staked] = [none, some 1600000000] := by
  decide +kernel

theorem claiming_zero : ((Run.start parameters).answers [first, missing]).map Except.isOk = [true, false] ∧
    ((Run.start parameters).answers [claiming 0, missing]).map Except.isOk = [true, true] := by
  decide +kernel

end SmallChain

open SmallChain in
/-- To claim the block's own time changes no answer. -/
theorem claimed_times_by_stake_own : (Run.start parameters).answers [first, staked] =
    (Run.start parameters).answers [claiming 1600000000, staked] := by
  obtain ⟨hfirst, hclaiming⟩ := claiming_own_time
  exact (claimed_times_by_stake parameters _ _ (.cons (first_claiming _) (.cons (CandidateBlock.Retimed.refl _) .nil))
    (hfirst.trans hclaiming.symm)).1

open SmallChain in
/-- With transactions of version 10 from the beginning, a coinbase that claims a time makes a block valid that
stakes its output. -/
theorem claimed_time_stakes : ¬ ∀ (p : Parameters) (blocks blocks' : List CandidateBlock),
    Feature.v10.switchTime p.switches = 0 → List.Forall₂ CandidateBlock.Retimed blocks blocks' →
    (Run.start p).answers blocks = (Run.start p).answers blocks' := by
  intro hsame
  obtain ⟨hrefused, haccepted⟩ := claiming_zero
  have hanswers := hsame parameters [first, missing] [claiming 0, missing] rfl
    (.cons (first_claiming _) (.cons (CandidateBlock.Retimed.refl _) .nil))
  rw [hanswers, haccepted] at hrefused
  simp at hrefused

end StakeChain
