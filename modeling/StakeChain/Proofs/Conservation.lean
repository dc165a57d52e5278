import StakeChain.Proofs.Connecting
import StakeChain.Proofs.Run
/-!
Connecting a block loses no output and makes none twice. After the check of the inputs none of them is passed
over: the check looks at the branch of the predecessor and at the outpoints created before in the block, and
what it has found there is still unspent when the connection comes to it, since no other input of the block
has the same outpoint.
-/

namespace StakeChain

namespace OutputStore

variable {s : OutputStore} {v : View} {n i : Nat} {block : SourceBlock} {o : OutPoint}
  {tx : Transaction} {offset : Nat} {tip : Option Nat}

/-! ### No input is passed over -/

/-- No entry is one of the null outpoint. -/
def NoNull (s : OutputStore) : Prop :=
  ∀ (i : Nat) (e : OutputEntry), s.entries[i]? = some e → e.source.outpoint.isNull = false

theorem NoNull.mark (h : s.NoNull) : (s.mark n i).NoNull := by
  intro j e hj
  rw [getElem?_mark] at hj
  split at hj
  · obtain ⟨d, hd, rfl⟩ := Option.map_eq_some_iff.1 hj
    exact h j d hd
  · exact h j e hj

theorem NoNull.create (h : s.NoNull) (htx : tx.outputs.length < UInt32.size) :
    (s.create n block tx offset).NoNull := by
  intro j e hj
  rw [getElem?_create] at hj
  split at hj
  · exact h j e hj
  · obtain ⟨source, hsource, rfl⟩ := Option.map_eq_some_iff.1 hj
    obtain ⟨o, ho, rfl⟩ := List.mem_map.1 (List.mem_of_getElem? hsource)
    exact Transaction.created_isNull htx o ho

theorem NoNull.findIdx?_eq_none (h : s.NoNull) (ho : o.isNull = true) :
    s.entries.toList.findIdx? (isLive v tip o) = none := by
  refine List.findIdx?_eq_none_iff.2 fun e he => ?_
  obtain ⟨i, hi⟩ := List.mem_iff_getElem?.1 he
  rw [Array.getElem?_toList] at hi
  refine Bool.eq_false_iff.2 fun hlive => ?_
  have hout := eq_of_beq (Bool.and_eq_true_iff.1 hlive).1
  have hnot := h i e hi
  rw [hout, ho] at hnot
  simp at hnot

theorem NoNull.spend (h : s.NoNull) : (s.spend v n o).NoNull := by
  cases hi : s.entries.toList.findIdx? (isLive v (some n) o) with
  | none =>
    rw [spend_eq_self hi]
    exact h
  | some i =>
    rw [spend_eq_mark hi]
    exact h.mark

theorem NoNull.apply (h : s.NoNull) (htx : tx.outputs.length < UInt32.size) :
    (s.apply v n block tx offset).NoNull :=
  (spends_induction (fun _ _ h => h.spend) tx.inputs h).create htx

theorem NoNull.applies {ts : List (Transaction × Nat)} (h : s.NoNull)
    (houtputs : ∀ t ∈ ts, t.1.outputs.length < UInt32.size) :
    (ts.foldl (fun s t => s.apply v n block t.1 t.2) s).NoNull := by
  induction ts generalizing s with
  | nil => exact h
  | cons t ts ih =>
    obtain ⟨htx, houtputs⟩ := List.forall_mem_cons.1 houtputs
    exact ih (h.apply htx) houtputs

theorem isSome_get? : (s.get? v tip o).isSome = (s.entries.toList.findIdx? (isLive v tip o)).isSome := by
  rw [get?, Option.isSome_map, ← Array.find?_toList, List.isSome_find?, List.findIdx?_isSome]

theorem exists_of_isSome_get? (h : (s.get? v tip o).isSome = true) : ∃ i e,
    s.entries.toList.findIdx? (isLive v tip o) = some i ∧ s.entries[i]? = some e ∧
      e.source.outpoint = o ∧ e.liveAt v tip = true := by
  rw [isSome_get?] at h
  obtain ⟨i, hi⟩ := Option.isSome_iff_exists.1 h
  obtain ⟨hlt, hlive, -⟩ := List.findIdx?_eq_some_iff_getElem.1 hi
  obtain ⟨hout, hlive⟩ := Bool.and_eq_true_iff.1 hlive
  exact ⟨i, _, hi, Array.getElem?_eq_getElem hlt, eq_of_beq hout, hlive⟩

/-- The inputs of a transaction, where each is there, are all spent. -/
theorem connects_inputs {os : List OutPoint} (hnull : s.NoNull)
    (honce : (os.filter fun o => !o.isNull).Nodup)
    (hthere : ∀ o ∈ os, o.isNull = false → (s.get? v (some n) o).isSome = true) :
    ∃ marks, Connects v n block s (os.map .spend) marks (os.foldl (fun s o => s.spend v n o) s) := by
  induction os generalizing s with
  | nil => exact ⟨[], .done⟩
  | cons o os ih =>
    obtain ⟨hhead, hothers⟩ := List.forall_mem_cons.1 hthere
    rw [List.map_cons, List.foldl_cons]
    cases ho : o.isNull with
    | true =>
      rw [List.filter_cons_of_neg (by simp [ho])] at honce
      rw [spend_eq_self (hnull.findIdx?_eq_none ho)]
      obtain ⟨marks, h⟩ := ih hnull honce hothers
      exact ⟨marks, .null ho h⟩
    | false =>
      rw [List.filter_cons_of_pos (by simp [ho]), List.nodup_cons] at honce
      obtain ⟨i, e, hi, hentry, hout, hlive⟩ := exists_of_isSome_get? (hhead ho)
      have hothers : ∀ o' ∈ os, o'.isNull = false →
          ((s.mark n i).get? v (some n) o').isSome = true := by
        intro o' ho' ho0
        have hne : o ≠ o' := by
          rintro rfl
          exact honce.1 (List.mem_filter.2 ⟨ho', by simp [ho]⟩)
        rw [isSome_get?, ← spend_eq_mark hi, findIdx?_spend hne, ← isSome_get?]
        exact hothers o' ho' ho0
      rw [spend_eq_mark hi]
      obtain ⟨marks, h⟩ := ih hnull.mark honce.2 hothers
      exact ⟨i :: marks, .mark ho hentry hout hlive h⟩

/-- The outputs that a transaction has added are there. -/
theorem isSome_get?_created (hself : v.onBranch n (some n) = true)
    (ho : o ∈ tx.created.map Prod.fst) :
    ((s.create n block tx offset).get? v (some n) o).isSome = true := by
  obtain ⟨x, hx, rfl⟩ := List.mem_map.1 ho
  rw [isSome_get?, List.findIdx?_isSome, create_toList, List.any_append, List.any_map]
  refine Bool.or_eq_true_iff.2 (Or.inr (List.any_eq_true.2 ⟨_, List.mem_map_of_mem hx, ?_⟩))
  simp [isLive, OutputEntry.liveAt, hself]

/-- Transactions that can be applied are, without passing over an input. -/
theorem connects_apply (hself : v.onBranch n (some n) = true) {ts : List (Transaction × Nat)}
    (hnull : s.NoNull) (houtputs : ∀ t ∈ ts, t.1.outputs.length < UInt32.size)
    (hspendable : Spendable (fun o => (s.get? v (some n) o).isSome = true) (ts.map Prod.fst)) :
    ∃ marks, Connects v n block s (Step.ofTransactions ts) marks
      (ts.foldl (fun s t => s.apply v n block t.1 t.2) s) := by
  induction ts generalizing s with
  | nil => exact ⟨[], .done⟩
  | cons t ts ih =>
    obtain ⟨tx, offset⟩ := t
    obtain ⟨htx, houtputs⟩ := List.forall_mem_cons.1 houtputs
    obtain ⟨honce, hthere⟩ := hspendable.head
    obtain ⟨marks, hinputs⟩ : ∃ marks, Connects v n block s (tx.inputs.map .spend) marks
        (tx.inputs.foldl (fun s o => s.spend v n o) s) := connects_inputs hnull honce hthere
    have hrest : Spendable (fun o =>
        ((s.apply v n block tx offset).get? v (some n) o).isSome = true) (ts.map Prod.fst) := by
      refine hspendable.tail (fun o hsome hspent => ?_) fun o ho => isSome_get?_created hself ho
      rw [isSome_get?, ← findIdx?_spends hspent] at hsome
      obtain ⟨i, hi⟩ := Option.isSome_iff_exists.1 hsome
      rw [isSome_get?, apply, findIdx?_create hi, Option.isSome_some]
    obtain ⟨marks', h⟩ := ih (hnull.apply htx) houtputs hrest
    exact ⟨marks ++ marks', hinputs.append (.create h)⟩

end OutputStore

/-! ### Accepted blocks -/

/-- The numbers of a block's outputs have thirty-two bits. -/
def CandidateBlock.Numbered (b : CandidateBlock) : Prop :=
  ∀ tx ∈ b.transactions, tx.outputs.length < UInt32.size

theorem CandidateBlock.Numbered.zip {b : CandidateBlock} (h : b.Numbered) :
    ∀ t ∈ b.transactions.zip (transactionOffsets b.transactions), t.1.outputs.length < UInt32.size :=
  fun _ ht => h _ (List.of_mem_zip ht).1

/-- In a run of numbered blocks no stored output has the null outpoint. -/
theorem Run.Reached.noNull {p : Parameters} {r : Run} (h : Reached p r)
    (hlog : ∀ c ∈ r.log.map Prod.fst, c.Numbered) : r.state.outputs.NoNull := by
  induction h with
  | start =>
    intro i e hi
    simp [Run.start, ChainState.empty, OutputStore.empty] at hi
  | accept hr haccept ih =>
    rw [List.map_cons, List.forall_mem_cons] at hlog
    obtain ⟨hb, hlog⟩ := hlog
    obtain ⟨prev, position, -, -, -, rfl⟩ :=
      (ChainState.accept_eq_ok hr.faithful.sound.linked).1 haccept
    exact (ih hlog).applies hb.zip

namespace ChainState

/-- What connecting block `n` does to the outputs: its inputs that are not null have marked one live entry
each, none of them twice; no other entry is marked; and the outputs that remain unspent, on the branch of
the block and in all, are as many as they should be. -/
structure Conserves (s s' : ChainState) (b : CandidateBlock) (n : Nat) (position : Position)
    (marks : List Nat) : Prop where
  found : s'.index.view.position n = some position
  link : s.hashAt position.prev = b.prevHash
  connects : OutputStore.Connects s'.index.view n ⟨position.hash, position.height, position.time⟩ s.outputs
    (OutputStore.Step.ofBlock b.transactions) marks s'.outputs
  outpoints : marks.map (fun i => s'.outputs.entries[i]?.map fun e => e.source.outpoint) =
    (spentOutpoints b.transactions).map some
  distinct : marks.Nodup
  marked : ∀ i, s'.outputs.timesSpent n i = if i ∈ marks then 1 else 0
  unspent : s'.outputs.unspentCount s'.index.view (some n) + (spentOutpoints b.transactions).length =
    s.outputs.unspentCount s.index.view position.prev + (createdOutputs b.transactions).length
  behind : s'.outputs.unspentCount s'.index.view position.prev =
    s.outputs.unspentCount s.index.view position.prev
  size : s'.outputs.size = s.outputs.size + (createdOutputs b.transactions).length

variable {s : ChainState} {b : CandidateBlock} {prev : Option Nat} {position : Position}
  {derived : ValidatedBlock}

/-- Before a block is connected it is not among those that spent an entry. -/
theorem Sound.timesSpent (hs : s.Sound) (i : Nat) : s.outputs.timesSpent s.index.size i = 0 := by
  rw [OutputStore.timesSpent]
  cases hi : s.outputs.entries[i]? with
  | none => rfl
  | some e =>
    have hnot : s.index.size ∉ e.spenders := fun hmem => Nat.lt_irrefl _
      ((hs.below e (Array.mem_toList_iff.2 (Array.mem_of_getElem? hi))).2 _ hmem)
    simp [List.count_eq_zero.2 hnot]

section Step

variable (he : s.Evaluated b prev position derived) (hs : s.Sound) (hprev : s.predecessor b = .ok prev)
  (hnull : s.outputs.NoNull) (hb : b.Numbered)

include he hs hprev hnull hb

/-- A block that was checked is connected without passing over an input. -/
theorem Evaluated.connects : ∃ marks, OutputStore.Connects (s.index.push position).view s.index.size
    ⟨position.hash, position.height, position.time⟩ s.outputs (OutputStore.Step.ofBlock b.transactions)
    marks (s.connected b position).outputs := by
  refine OutputStore.connects_apply (he.onBranch_self hs hprev) hnull hb.zip ?_
  -- Before its transactions the new tip sees what its predecessor sees, on which the check was made.
  rw [map_fst_zip_transactionOffsets]
  refine (Spendable.congr fun o => ?_).1 (OutputStore.checkSpendable_eq_ok.1 he.spendable)
  rw [OutputStore.get?_eq_find?, OutputStore.get?_eq_find?, he.live_before hs hprev]
  rfl

theorem Evaluated.conserves :
    ∃ marks, s.Conserves (s.connected b position) b s.index.size position marks := by
  have hself := he.onBranch_self hs hprev
  obtain ⟨marks, h⟩ := he.connects hs hprev hnull hb
  have houtpoints := h.outpoints
  have hunspent := h.unspentCount_eq hself
  have hsize := h.size_eq
  rw [OutputStore.Step.flatMap_spent] at houtpoints
  rw [OutputStore.Step.length_created] at hunspent hsize
  have hlength : marks.length = (spentOutpoints b.transactions).length := by
    simpa using congrArg List.length houtpoints
  refine ⟨marks, ChainIndex.position_push_size, ?_, h, houtpoints, h.nodup hself, fun i => ?_, ?_, ?_,
    hsize⟩
  · rw [he.position_prev, prevHash_eq hs.linked hprev]
  · have hcount := h.timesSpent_eq i
    rw [hs.timesSpent, Nat.zero_add] at hcount
    by_cases hmem : i ∈ marks
    · rw [if_pos hmem, ← List.count_eq_one_of_mem (h.nodup hself) hmem]
      exact hcount
    · rw [if_neg hmem, ← List.count_eq_zero.2 hmem]
      exact hcount
  · have hbehind : s.outputs.unspentCount (s.index.push position).view (some s.index.size) =
        s.outputs.unspentCount s.index.view prev := by
      rw [OutputStore.unspentCount_eq, OutputStore.unspentCount_eq, he.live_before hs hprev]
      rfl
    rw [he.position_prev, ← hbehind, ← hlength]
    exact hunspent
  · have hkept := (he.extends_connected hs hprev).live prev (predecessor_indexed hs.linked hprev)
    rw [he.position_prev, OutputStore.unspentCount_eq, OutputStore.unspentCount_eq]
    exact congrArg List.length hkept

end Step

end ChainState

/-- In every run of numbered blocks, connecting an accepted block passes over none of its inputs: each that
is not null marks one entry, and the outputs add up. -/
theorem connecting_conserves (p : Parameters) (offers : List CandidateBlock) (b : CandidateBlock)
    (s' : ChainState) (a : AcceptedBlock) (hb : b.Numbered)
    (hlog : ∀ c ∈ (Run.of p offers).log.map Prod.fst, c.Numbered)
    (haccept : (Run.of p offers).state.accept b = .ok (s', a)) :
    ∃ position marks, (Run.of p offers).state.Conserves s' b a.id position marks := by
  have hr := Run.reached_of p offers
  have hs := hr.faithful.sound
  obtain ⟨prev, position, hprev, heval, hid, rfl⟩ := (ChainState.accept_eq_ok hs.linked).1 haccept
  rw [hid]
  exact ⟨position, (ChainState.evaluateAfter_eq_ok heval).conserves hs hprev (hr.noNull hlog) hb⟩

open SmallChain in
/-- The staked block of the small chain marks one entry. -/
theorem connecting_conserves_staked : ∃ s' a position i,
    (Run.of parameters [first]).state.accept staked = .ok (s', a) ∧
    (Run.of parameters [first]).state.Conserves s' staked a.id position [i] := by
  have hfacts : ((Run.of parameters [first]).state.accept staked).isOk = true ∧
      (Run.of parameters [first]).log.map Prod.fst = [first] ∧
      (spentOutpoints staked.transactions).length = 1 := by decide +kernel
  obtain ⟨hok, hblocks, hspent⟩ := hfacts
  obtain ⟨⟨s', a⟩, haccept⟩ := exists_of_isOk hok
  have hlog : ∀ c ∈ (Run.of parameters [first]).log.map Prod.fst, c.Numbered := by
    rw [hblocks]
    exact List.forall_mem_singleton.2 (by unfold CandidateBlock.Numbered; decide)
  obtain ⟨position, marks, h⟩ := connecting_conserves parameters [first] staked s' a
    (by unfold CandidateBlock.Numbered; decide) hlog haccept
  have hlength := congrArg List.length h.outpoints
  rw [List.length_map, List.length_map, hspent, List.length_eq_one_iff] at hlength
  obtain ⟨i, rfl⟩ := hlength
  exact ⟨s', a, position, i, haccept, h⟩

end StakeChain
