import Mathlib.Data.List.Count
import StakeChain.Proofs.Conservation
import StakeChain.Proofs.Staking
/-!
The outputs of one branch, counted by outpoint. Transactions may repeat an identifier, and then the store has
several entries for one outpoint; what it keeps is a balance. What is live of an outpoint and what the branch
has spent of it is what the branch has created, and an entry is spent by one block of a branch at most. So an
outpoint that the branch has created once is live once at most, and spent once at most.
-/

namespace StakeChain

/-- The outpoints that transactions create, in order. -/
def createdOutpoints (txs : List Transaction) : List OutPoint :=
  (txs.flatMap Transaction.created).map Prod.fst

theorem createdOutpoints_cons (tx : Transaction) (rest : List Transaction) :
    createdOutpoints (tx :: rest) = tx.created.map Prod.fst ++ createdOutpoints rest := by
  simp [createdOutpoints]

theorem createdOutpoints_append (txs more : List Transaction) :
    createdOutpoints (txs ++ more) = createdOutpoints txs ++ createdOutpoints more := by
  simp [createdOutpoints]

theorem spentOutpoints_append (txs more : List Transaction) :
    spentOutpoints (txs ++ more) = spentOutpoints txs ++ spentOutpoints more := by
  simp [spentOutpoints]

theorem count_spentOutpoints_null (txs : List Transaction) {o : OutPoint} (ho : o.isNull = true) :
    (spentOutpoints txs).count o = 0 :=
  List.count_eq_zero.2 fun hmem => by simp [(mem_spentOutpoints.1 hmem).2] at ho

namespace View

variable {v : View} {x y : Nat} {tip : Option Nat}

/-- What is on a branch has a position. -/
theorem exists_of_onBranch (h : v.onBranch x tip = true) : ∃ b, v.position x = some b := by
  cases hx : v.position x with
  | some b => exact ⟨b, rfl⟩
  | none => cases tip <;> simp [onBranch, hx] at h

theorem Linked.onBranch_trans (hl : v.Linked) (hxy : v.onBranch x (some y) = true)
    (hy : v.onBranch y tip = true) : v.onBranch x tip = true := by
  cases tip with
  | none => simp at hy
  | some id =>
    obtain ⟨htip, hreach⟩ := hl.onBranch_iff.1 hy
    exact hl.onBranch_iff.2 ⟨htip, (hl.onBranch_iff.1 hxy).2.trans hreach⟩

end View

/-! ### The balance of a list of outputs -/

namespace Unspent

variable {l : Unspent} {o : OutPoint} {block : SourceBlock} {tx : Transaction} {offset : Nat}
  {rest : List Transaction}

/-- The outpoints of the outputs, with repetitions. -/
def outpoints (l : Unspent) : List OutPoint := l.map StakeSource.outpoint

theorem outpoints_spend (l : Unspent) (o : OutPoint) : (l.spend o).outpoints = l.outpoints.erase o := by
  rw [outpoints, outpoints, spend, List.erase_eq_eraseP, List.eraseP_map]
  congr 2
  funext source
  exact Bool.beq_comm

theorem outpoints_spends (os : List OutPoint) (l : Unspent) :
    (os.foldl spend l).outpoints = l.outpoints.diff os := by
  induction os generalizing l with
  | nil => rfl
  | cons o os ih => rw [List.foldl_cons, ih, outpoints_spend, List.diff_cons]

theorem outpoints_apply (l : Unspent) : (l.apply block tx offset).outpoints =
    l.outpoints.diff tx.inputs ++ tx.created.map Prod.fst := by
  rw [apply, outpoints, List.map_append]
  refine congrArg₂ _ (outpoints_spends tx.inputs l) ?_
  simp [created]

/-- A transaction takes an outpoint as often as it spends it, and adds it as often as it creates it. -/
theorem count_apply (block : SourceBlock) (offset : Nat)
    (h : Spendable (· ∈ l.outpoints) (tx :: rest)) (ho : o.isNull = false) :
    (l.apply block tx offset).outpoints.count o + (tx.inputs.filter fun o => !o.isNull).count o =
      l.outpoints.count o + (tx.created.map Prod.fst).count o := by
  obtain ⟨honce, hthere⟩ := h.head
  have hinputs : (tx.inputs.filter fun o => !o.isNull).count o = tx.inputs.count o :=
    List.count_filter (by simp [ho])
  have henough : tx.inputs.count o ≤ l.outpoints.count o := by
    by_cases hmem : o ∈ tx.inputs
    · have hone := List.nodup_iff_count_le_one.1 honce o
      have hsome := List.count_pos_iff.2 (hthere o hmem ho)
      omega
    · rw [List.count_eq_zero.2 hmem]
      omega
  rw [outpoints_apply, List.count_append, List.count_diff, hinputs]
  omega

theorem spendable_apply (block : SourceBlock) (offset : Nat)
    (h : Spendable (· ∈ l.outpoints) (tx :: rest)) :
    Spendable (· ∈ (l.apply block tx offset).outpoints) rest := by
  refine h.tail (fun o ho hunspent => ?_) fun o ho => ?_
  · rw [outpoints_apply]
    exact List.mem_append_left _ (List.mem_diff_of_mem ho hunspent)
  · rw [outpoints_apply]
    exact List.mem_append_right _ ho

theorem count_applies (block : SourceBlock) {ts : List (Transaction × Nat)}
    (h : Spendable (· ∈ l.outpoints) (ts.map Prod.fst)) (ho : o.isNull = false) :
    (ts.foldl (fun l t => l.apply block t.1 t.2) l).outpoints.count o +
        (spentOutpoints (ts.map Prod.fst)).count o =
      l.outpoints.count o + (createdOutpoints (ts.map Prod.fst)).count o := by
  induction ts generalizing l with
  | nil => simp [spentOutpoints, createdOutpoints]
  | cons t ts ih =>
    rw [List.map_cons] at h
    have hfirst := count_apply block t.2 h ho
    have hrest := ih (spendable_apply block t.2 h)
    rw [List.foldl_cons, List.map_cons, spentOutpoints_cons, createdOutpoints_cons, List.count_append,
      List.count_append]
    omega

/-- A block that may be applied keeps the balance. -/
theorem count_connect (block : SourceBlock) {txs : List Transaction} (h : Spendable (· ∈ l.outpoints) txs)
    (ho : o.isNull = false) : (l.connect block txs).outpoints.count o + (spentOutpoints txs).count o =
      l.outpoints.count o + (createdOutpoints txs).count o := by
  have hparts : Spendable (· ∈ l.outpoints) ((txs.zip (transactionOffsets txs)).map Prod.fst) := by
    rwa [map_fst_zip_transactionOffsets]
  have hbalance := count_applies block hparts ho
  rwa [map_fst_zip_transactionOffsets] at hbalance

end Unspent

/-! ### Who created and who spent an entry -/

/-- An entry is spent on top of its creator only, and by one block of a branch. -/
structure OutputEntry.Tidy (v : View) (e : OutputEntry) : Prop where
  above : ∀ x ∈ e.spenders, v.onBranch e.creator (some x) = true
  once : ∀ x ∈ e.spenders, ∀ y ∈ e.spenders, v.onBranch x (some y) = true → x = y

namespace OutputStore

variable {s : OutputStore} {v w : View} {n i : Nat} {block : SourceBlock} {o : OutPoint}
  {tx : Transaction} {offset : Nat} {tip : Option Nat} {e : OutputEntry}

/-- Every entry is tidy, and no later block than `n` has spent one. -/
def Tidy (v : View) (n : Nat) (s : OutputStore) : Prop :=
  ∀ (i : Nat) (e : OutputEntry), s.entries[i]? = some e → e.Tidy v ∧ ∀ x ∈ e.spenders, x ≤ n

section Connect

variable (hself : v.onBranch n (some n) = true) (hlast : ∀ x, x < n → v.onBranch n (some x) = false)

include hself hlast

/-- A live entry that block `n` spends was spent on other branches only. -/
theorem tidy_spent (he : e.Tidy v) (hbound : ∀ x ∈ e.spenders, x ≤ n)
    (hlive : e.liveAt v (some n) = true) :
    OutputEntry.Tidy v { e with spenders := e.spenders ++ [n] } := by
  obtain ⟨hcreator, hoff⟩ := OutputEntry.liveAt_iff.1 hlive
  have hbelow : ∀ x ∈ e.spenders, v.onBranch n (some x) = false := by
    intro x hx
    refine hlast x (Nat.lt_of_le_of_ne (hbound x hx) ?_)
    rintro rfl
    simp [hoff x hx] at hself
  constructor
  · intro x hx
    rcases List.mem_append.1 hx with hx | hx
    · exact he.above x hx
    · obtain rfl := List.mem_singleton.1 hx
      exact hcreator
  · intro x hxs y hys hon
    rcases List.mem_append.1 hxs with hx | hx <;> rcases List.mem_append.1 hys with hy | hy
    · exact he.once x hx y hy hon
    · obtain rfl := List.mem_singleton.1 hy
      simp [hoff x hx] at hon
    · obtain rfl := List.mem_singleton.1 hx
      simp [hbelow y hy] at hon
    · rw [List.mem_singleton.1 hx, List.mem_singleton.1 hy]

theorem Tidy.spend (h : s.Tidy v n) : (s.spend v n o).Tidy v n := by
  cases hi : s.entries.toList.findIdx? (isLive v (some n) o) with
  | none =>
    rw [spend_eq_self hi]
    exact h
  | some i =>
    rw [spend_eq_mark hi]
    intro j e hj
    rw [getElem?_mark] at hj
    split at hj
    · rename_i hij
      obtain ⟨d, hd, rfl⟩ := Option.map_eq_some_iff.1 hj
      obtain ⟨htidy, hbound⟩ := h j d hd
      have hlive : isLive v (some n) o d = true := by
        simpa [hij, hd] using List.of_findIdx?_eq_some hi
      refine ⟨tidy_spent hself hlast htidy hbound (Bool.and_eq_true_iff.1 hlive).2, fun x hx => ?_⟩
      rcases List.mem_append.1 hx with hx | hx
      · exact hbound x hx
      · exact Nat.le_of_eq (List.mem_singleton.1 hx)
    · exact h j e hj

omit hself hlast in
theorem Tidy.create (h : s.Tidy v n) : (s.create n block tx offset).Tidy v n := by
  intro j e hj
  rw [getElem?_create] at hj
  split at hj
  · exact h j e hj
  · obtain ⟨source, -, rfl⟩ := Option.map_eq_some_iff.1 hj
    exact ⟨⟨by simp, by simp⟩, by simp⟩

theorem Tidy.connect (h : s.Tidy v n) (block : SourceBlock) (txs : List Transaction) :
    (s.connect v n block txs).Tidy v n :=
  applies_induction (fun _ _ h => h.spend hself hlast) (fun _ _ _ h => h.create) _ h

end Connect

/-- The outpoint and the creator of every entry, in order. -/
def makers (s : OutputStore) : List (OutPoint × Nat) :=
  s.entries.toList.map fun e => (e.source.outpoint, e.creator)

theorem makers_spend : (s.spend v n o).makers = s.makers := by
  cases hi : s.entries.toList.findIdx? (isLive v (some n) o) with
  | none => rw [spend_eq_self hi]
  | some i =>
    refine List.ext_getElem? fun j => ?_
    rw [spend_eq_mark hi, makers, makers, List.getElem?_map, List.getElem?_map, Array.getElem?_toList,
      Array.getElem?_toList, getElem?_mark]
    split
    · rw [Option.map_map]
      rfl
    · rfl

theorem makers_spends (os : List OutPoint) :
    (os.foldl (fun s o => s.spend v n o) s).makers = s.makers :=
  spends_induction (P := fun s' => s'.makers = s.makers) (fun _ _ h => makers_spend.trans h) os rfl

theorem makers_create : (s.create n block tx offset).makers =
    s.makers ++ (tx.created.map Prod.fst).map fun o => (o, n) := by
  rw [makers, create_toList, List.map_append, Unspent.created]
  simp [makers]

/-- A block adds an entry for every outpoint that its transactions create, and no other. -/
theorem makers_connect (txs : List Transaction) : (s.connect v n block txs).makers =
    s.makers ++ (createdOutpoints txs).map fun o => (o, n) := by
  have applied : ∀ (ts : List (Transaction × Nat)) (s : OutputStore),
      (ts.foldl (fun s t => s.apply v n block t.1 t.2) s).makers =
        s.makers ++ (createdOutpoints (ts.map Prod.fst)).map fun o => (o, n) := by
    intro ts
    induction ts with
    | nil => simp [createdOutpoints]
    | cons t ts ih =>
      intro s
      rw [List.foldl_cons, ih, apply, makers_create, makers_spends, List.map_cons, createdOutpoints_cons,
        List.map_append, List.append_assoc]
  rw [connect, applied, map_fst_zip_transactionOffsets]

/-- The number of entries for an outpoint that were created on the branch of a tip. -/
def madeCount (s : OutputStore) (v : View) (tip : Option Nat) (o : OutPoint) : Nat :=
  s.entries.countP fun e => e.source.outpoint == o && v.onBranch e.creator tip

/-- The number of entries for an outpoint that are live at a tip. -/
def liveCount (s : OutputStore) (v : View) (tip : Option Nat) (o : OutPoint) : Nat :=
  s.entries.countP (isLive v tip o)

theorem madeCount_eq : s.madeCount v tip o = s.makers.countP fun m => m.1 == o && v.onBranch m.2 tip := by
  rw [madeCount, makers, List.countP_map, ← Array.countP_toList]
  rfl

theorem madeCount_congr {tip' : Option Nat}
    (h : ∀ e ∈ s.entries.toList, w.onBranch e.creator tip' = v.onBranch e.creator tip) :
    s.madeCount w tip' o = s.madeCount v tip o := by
  rw [madeCount, madeCount, ← Array.countP_toList, ← Array.countP_toList]
  exact List.countP_congr fun e he => by rw [h e he]

/-- Connecting a block counts its outputs on the branches that it is on. -/
theorem madeCount_connect (txs : List Transaction) : (s.connect v n block txs).madeCount w tip o =
    s.madeCount w tip o + if w.onBranch n tip then (createdOutpoints txs).count o else 0 := by
  rw [madeCount_eq, madeCount_eq, makers_connect, List.countP_append, List.countP_map]
  refine congrArg _ ?_
  cases hon : w.onBranch n tip <;> simp [hon, Function.comp_def, List.count]

theorem liveCount_eq : s.liveCount v tip o = (s.live v tip).outpoints.count o := by
  rw [liveCount, ← Array.countP_toList, Unspent.outpoints, live, List.map_map, List.count, List.countP_map,
    List.countP_filter]
  rfl

theorem liveCount_le : s.liveCount v tip o ≤ s.madeCount v tip o := by
  refine Array.countP_mono_left fun e _ hlive => ?_
  obtain ⟨hout, hlive⟩ := Bool.and_eq_true_iff.1 hlive
  rw [hout, (OutputEntry.liveAt_iff.1 hlive).1]
  rfl

theorem eq_of_length_le_one {l : List OutputEntry} {d : OutputEntry} (h : l.length ≤ 1) (he : e ∈ l)
    (hd : d ∈ l) : e = d := by
  match l, h with
  | [a], _ => rw [List.mem_singleton.1 he, List.mem_singleton.1 hd]

/-- Where an outpoint has one entry on a branch, it is the only one there. -/
theorem eq_of_madeCount_le_one {d : OutputEntry} (h : s.madeCount v tip o ≤ 1) (he : e ∈ s.entries)
    (hd : d ∈ s.entries) (heo : e.source.outpoint = o) (hdo : d.source.outpoint = o)
    (hetip : v.onBranch e.creator tip = true) (hdtip : v.onBranch d.creator tip = true) : e = d := by
  rw [madeCount, ← Array.countP_toList, List.countP_eq_length_filter] at h
  refine eq_of_length_le_one h ?_ ?_
  · exact List.mem_filter.2 ⟨Array.mem_toList_iff.2 he, by simp [heo, hetip]⟩
  · exact List.mem_filter.2 ⟨Array.mem_toList_iff.2 hd, by simp [hdo, hdtip]⟩

end OutputStore

namespace ChainState

variable {s : ChainState} {b : CandidateBlock} {prev : Option Nat} {position : Position}
  {derived : ValidatedBlock} {tip : Option Nat} {o : OutPoint}

/-- Every entry of the state's outputs is tidy. -/
def Tidy (s : ChainState) : Prop :=
  ∀ (i : Nat) (e : OutputEntry), s.outputs.entries[i]? = some e → e.Tidy s.index.view

section Step

variable (he : s.Evaluated b prev position derived) (hs : s.Sound)
  (hprev : s.predecessor b = .ok prev)

include he hs hprev

/-- A new block is on no older branch. -/
theorem Evaluated.onBranch_older {x : Nat} (hx : x < s.index.size) :
    (s.index.push position).view.onBranch s.index.size (some x) = false :=
  he.onBranch_size hs hprev (View.indexed_some.2 (ChainIndex.exists_position hx))

/-- In the view with the new block the entries are as tidy as before. -/
theorem Evaluated.tidy_old (h : s.Tidy) : s.outputs.Tidy (s.index.push position).view s.index.size := by
  intro i e hi
  have hmem : e ∈ s.outputs.entries.toList :=
    List.mem_iff_getElem?.2 ⟨i, by rw [Array.getElem?_toList]; exact hi⟩
  have hbelow := (hs.below e hmem).2
  have hold : ∀ x ∈ e.spenders, ∀ y, (s.index.push position).view.onBranch y (some x) =
      s.index.view.onBranch y (some x) := fun x hx y =>
    he.onBranch_old hs hprev (View.indexed_some.2 (ChainIndex.exists_position (hbelow x hx)))
  refine ⟨⟨fun x hx => ?_, fun x hx y hy hon => ?_⟩, fun x hx => Nat.le_of_lt (hbelow x hx)⟩
  · rw [hold x hx]
    exact (h i e hi).above x hx
  · rw [hold y hy] at hon
    exact (h i e hi).once x hx y hy hon

theorem Evaluated.tidy (h : s.Tidy) : (s.connected b position).Tidy := by
  have hconnected := (he.tidy_old hs hprev h).connect (he.onBranch_self hs hprev)
    (fun x hx => he.onBranch_older hs hprev hx) ⟨position.hash, position.height, position.time⟩
    b.transactions
  exact fun i e hi => (hconnected i e hi).1

/-- From an older tip the entries of the new block are not seen. -/
theorem Evaluated.madeCount_old (htip : s.index.view.Indexed tip) :
    (s.connected b position).outputs.madeCount (s.index.push position).view tip o =
      s.outputs.madeCount s.index.view tip o := by
  rw [connected, OutputStore.madeCount_connect, he.onBranch_size hs hprev htip]
  exact OutputStore.madeCount_congr fun e _ => he.onBranch_old hs hprev htip

/-- From its own tip the new block has made an entry for each of its outputs. -/
theorem Evaluated.madeCount_new :
    (s.connected b position).outputs.madeCount (s.index.push position).view (some s.index.size) o =
      s.outputs.madeCount s.index.view prev o + (createdOutpoints b.transactions).count o := by
  rw [connected, OutputStore.madeCount_connect, he.onBranch_self hs hprev, if_pos rfl]
  refine congrArg (· + _) (OutputStore.madeCount_congr fun e hmem => ?_)
  have hne : (e.creator == s.index.size) = false := by
    simpa using Nat.ne_of_lt (hs.below e hmem).1
  rw [he.onBranch_new hs hprev, hne, Bool.false_or]

end Step

end ChainState

namespace Run

variable {p : Parameters} {r : Run} {tip : Option Nat} {o : OutPoint}

/-- The transactions of the accepted blocks on the branch of a tip, first block first. -/
def transactions (r : Run) (tip : Option Nat) : List Transaction :=
  (r.branch (r.state.hashAt tip)).flatMap CandidateBlock.transactions

theorem transactions_none : r.transactions none = [] := by
  rw [transactions, ChainState.hashAt_none, branch_none, List.flatMap_nil]

theorem Records.transactions_eq {id : Nat} {b : Position} {c : CandidateBlock} {d : ValidatedBlock}
    (h : r.Records id b c d) :
    r.transactions (some id) = r.transactions b.prev ++ c.transactions := by
  rw [transactions, ChainState.hashAt_some h.found, h.branch, List.flatMap_append, h.link]
  simp [transactions]

theorem Reached.tidy (h : Reached p r) : r.state.Tidy := by
  induction h with
  | start =>
    intro i e hi
    simp [Run.start, ChainState.empty, OutputStore.empty] at hi
  | accept hr haccept ih =>
    obtain ⟨prev, position, hprev, heval, -, rfl⟩ :=
      (ChainState.accept_eq_ok hr.faithful.sound.linked).1 haccept
    exact (ChainState.evaluateAfter_eq_ok heval).tidy hr.faithful.sound hprev ih

section Step

variable {position : Position} {prev : Option Nat} {c : CandidateBlock} {d : ValidatedBlock}
  (hf : r.Faithful) (hprev : r.state.predecessor c = .ok prev)
  (heval : r.state.evaluateAfter c prev = .ok (position, d))

include hf hprev heval

theorem Faithful.transactions_old (htip : r.state.index.view.Indexed tip) :
    (Run.mk (r.state.connected c position) ((c, d) :: r.log)).transactions tip = r.transactions tip := by
  have hext := (ChainState.evaluateAfter_eq_ok heval).extends_connected hf.sound hprev
  have hhash : (r.state.connected c position).hashAt tip = r.state.hashAt tip :=
    congrArg _ (hext.positions.bind_position htip)
  rw [transactions, hhash, hf.branch_old hprev]
  rfl

theorem Faithful.transactions_new : (Run.mk (r.state.connected c position)
    ((c, d) :: r.log)).transactions (some r.state.index.size) = r.transactions prev ++ c.transactions := by
  have hix := ChainState.predecessor_indexed hf.sound.linked hprev
  rw [(hf.records_new hprev heval).transactions_eq,
    (ChainState.evaluateAfter_eq_ok heval).position_prev, hf.transactions_old hprev heval hix]

end Step

/-- For every outpoint a branch has as many entries as its transactions create. -/
theorem Reached.madeCount_eq (h : Reached p r) : ∀ tip, r.state.index.view.Indexed tip →
    r.state.outputs.madeCount r.state.index.view tip o = (createdOutpoints (r.transactions tip)).count o := by
  induction h with
  | start =>
    intro tip htip
    cases tip with
    | none => rfl
    | some id =>
      obtain ⟨b, hb⟩ := View.indexed_some.1 htip
      simp [Run.start, ChainState.empty, ChainIndex.empty, ChainIndex.view, View.ofPositions] at hb
  | @accept r _ c _ hr haccept ih =>
    have hf := hr.faithful
    obtain ⟨prev, position, hprev, heval, -, rfl⟩ :=
      (ChainState.accept_eq_ok hf.sound.linked).1 haccept
    have he := ChainState.evaluateAfter_eq_ok heval
    intro tip htip
    have hold (hix : r.state.index.view.Indexed tip) :=
      (he.madeCount_old hf.sound hprev hix).trans ((ih tip hix).trans
        (congrArg (fun txs => (createdOutpoints txs).count o)
          (hf.transactions_old hprev heval hix).symm))
    cases tip with
    | none => exact hold View.indexed_none
    | some id =>
      obtain ⟨b, hb⟩ := View.indexed_some.1 htip
      by_cases hid : id = r.state.index.size
      · subst hid
        have hix := ChainState.predecessor_indexed hf.sound.linked hprev
        rw [hf.transactions_new hprev heval, createdOutpoints_append, List.count_append, ← ih prev hix]
        exact he.madeCount_new hf.sound hprev
      · refine hold (View.indexed_some.2 ⟨b, ?_⟩)
        rw [← hb]
        exact (ChainIndex.position_push.trans (if_neg hid)).symm

/-- What is live on a branch and what the branch has spent is what it has created. -/
theorem Faithful.balance (hf : r.Faithful) (ho : o.isNull = false) :
    ∀ tip, r.state.index.view.Indexed tip →
    r.state.outputs.liveCount r.state.index.view tip o + (spentOutpoints (r.transactions tip)).count o =
      (createdOutpoints (r.transactions tip)).count o := by
  refine hf.sound.linked.tip_induction ?_ ?_
  · rw [OutputStore.liveCount_eq, OutputStore.live_none, transactions_none]
    rfl
  · intro id b hb ih
    obtain ⟨c, d, h⟩ := hf.records hb
    have hspendable := OutputStore.checkSpendable_eq_ok.1 h.derives.spendable
    have hthere : ∀ o, (r.state.outputs.get? r.state.index.view b.prev o).isSome = true ↔
        o ∈ (r.state.live b.prev).outpoints := by
      intro o
      rw [OutputStore.get?_eq_find?, List.find?_isSome, Unspent.outpoints, List.mem_map]
      simp [ChainState.live]
    have hconnect := Unspent.count_connect ⟨b.hash, b.height, b.time⟩
      ((Spendable.congr hthere).1 hspendable) ho
    rw [← h.live] at hconnect
    rw [OutputStore.liveCount_eq] at ih ⊢
    rw [h.transactions_eq, spentOutpoints_append, createdOutpoints_append, List.count_append,
      List.count_append]
    simp only [ChainState.live] at hconnect
    omega

/-- What a state keeps of one outpoint on the branch of a tip. Where the branch has created it once, it is
live once at most and spent once at most. -/
structure Accounted (r : Run) (tip : Option Nat) (o : OutPoint) : Prop where
  balance : o.isNull = false → r.state.outputs.liveCount r.state.index.view tip o +
    (spentOutpoints (r.transactions tip)).count o = (createdOutpoints (r.transactions tip)).count o
  once : ∀ e ∈ r.state.outputs.entries, ∀ x ∈ e.spenders, ∀ y ∈ e.spenders,
    r.state.index.view.onBranch x tip = true → r.state.index.view.onBranch y tip = true → x = y
  live_le_one : (createdOutpoints (r.transactions tip)).count o ≤ 1 →
    r.state.outputs.liveCount r.state.index.view tip o ≤ 1
  spent_le_one : (createdOutpoints (r.transactions tip)).count o ≤ 1 →
    (spentOutpoints (r.transactions tip)).count o ≤ 1
  spender : (createdOutpoints (r.transactions tip)).count o ≤ 1 →
    ∀ e ∈ r.state.outputs.entries, ∀ d ∈ r.state.outputs.entries,
      e.source.outpoint = o → d.source.outpoint = o → ∀ x ∈ e.spenders, ∀ y ∈ d.spenders,
        r.state.index.view.onBranch x tip = true → r.state.index.view.onBranch y tip = true → x = y

theorem Reached.tidy_of_mem (h : Reached p r) {e : OutputEntry} (he : e ∈ r.state.outputs.entries) :
    e.Tidy r.state.index.view := by
  obtain ⟨i, hi⟩ := Array.mem_iff_getElem?.1 he
  exact h.tidy i e hi

/-- Two blocks of one branch that spent an entry are the same. -/
theorem Reached.once (h : Reached p r) {e : OutputEntry} (he : e ∈ r.state.outputs.entries) {x y : Nat}
    (hx : x ∈ e.spenders) (hy : y ∈ e.spenders) (hxtip : r.state.index.view.onBranch x tip = true)
    (hytip : r.state.index.view.onBranch y tip = true) : x = y := by
  have hl := h.faithful.sound.linked
  have htidy := h.tidy_of_mem he
  cases tip with
  | none => simp at hxtip
  | some id =>
    have hreachx := (hl.onBranch_iff.1 hxtip).2
    have hreachy := (hl.onBranch_iff.1 hytip).2
    rcases View.comparable hreachx hreachy with heq | hbelow | hbelow
    · exact heq
    · exact htidy.once x hx y hy
        (hl.onBranch_iff.2 ⟨View.exists_of_onBranch hytip, hbelow.to_reflTransGen⟩)
    · exact (htidy.once y hy x hx
        (hl.onBranch_iff.2 ⟨View.exists_of_onBranch hxtip, hbelow.to_reflTransGen⟩)).symm

/-- Where an outpoint has one entry on a branch, no two blocks of the branch spent it. -/
theorem Reached.spender (h : Reached p r) {e d : OutputEntry} (he : e ∈ r.state.outputs.entries)
    (hd : d ∈ r.state.outputs.entries) (heo : e.source.outpoint = o) (hdo : d.source.outpoint = o)
    (hmade : r.state.outputs.madeCount r.state.index.view tip o ≤ 1) {x y : Nat}
    (hx : x ∈ e.spenders) (hy : y ∈ d.spenders) (hxtip : r.state.index.view.onBranch x tip = true)
    (hytip : r.state.index.view.onBranch y tip = true) : x = y := by
  have hl := h.faithful.sound.linked
  -- What spent an entry on the branch stands on top of the entry's creator, which is so on the branch too.
  have hecreator := hl.onBranch_trans ((h.tidy_of_mem he).above x hx) hxtip
  have hdcreator := hl.onBranch_trans ((h.tidy_of_mem hd).above y hy) hytip
  obtain rfl : e = d := OutputStore.eq_of_madeCount_le_one hmade he hd heo hdo hecreator hdcreator
  exact h.once he hx hy hxtip hytip

theorem Reached.accounted (h : Reached p r) (htip : r.state.index.view.Indexed tip) :
    r.Accounted tip o := by
  have hmade := h.madeCount_eq (o := o) tip htip
  refine ⟨fun ho => h.faithful.balance ho tip htip, fun e he x hx y hy => h.once he hx hy, ?_, ?_, ?_⟩
  · intro hone
    rw [← hmade] at hone
    exact OutputStore.liveCount_le.trans hone
  · intro hone
    cases ho : o.isNull with
    | true =>
      rw [count_spentOutpoints_null _ ho]
      omega
    | false =>
      have hbalance := h.faithful.balance ho tip htip
      omega
  · intro hone e he d hd heo hdo x hx y hy
    exact h.spender he hd heo hdo (hmade ▸ hone) hx hy

end Run

/-- In every run and for every tip and outpoint, what is live at the tip and what its branch has spent is
what the branch has created, and no entry is spent by two blocks of the branch. -/
theorem branch_outputs (p : Parameters) (offers : List CandidateBlock) {tip : Option Nat}
    (htip : (Run.of p offers).state.index.view.Indexed tip) (o : OutPoint) :
    (Run.of p offers).Accounted tip o := (Run.reached_of p offers).accounted htip

namespace SmallChain

/-- A block that spends the first block's output, and stakes nothing. -/
def spending (hash : UInt8) (prev : CandidateBlock) (time : UInt32) (txid : UInt8) : CandidateBlock :=
  { after hash time [⟨digest txid, none, [⟨digest 1, 0⟩], [⟨1000000000000, [1]⟩], 100⟩] with
    prevHash := some prev.hash }

/-- The run in which the block after the first spends its output. -/
def spentOnce : Run := Run.of parameters [first, spending 16 first 1600003560 5]

/-- A block after the first that has the first's transaction once more. -/
def firstAgain : CandidateBlock :=
  { first with hash := digest 14, prevHash := some first.hash, time := 1600003500 }

def spent : CandidateBlock := spending 16 firstAgain 1600003560 5

def spentAgain : CandidateBlock := spending 17 spent 1600003620 6

/-- The state after these blocks: both outputs of the repeated transaction have been kept, and spent. -/
def repeated : ChainState := (Run.of parameters [first, firstAgain, spent, spentAgain]).state

end SmallChain

open SmallChain in
/-- On the branch that has spent the first output it was created once and spent once, so it is not live. -/
theorem branch_outputs_spent :
    (createdOutpoints (spentOnce.transactions (some 1))).count ⟨digest 1, 0⟩ = 1 ∧
    (spentOutpoints (spentOnce.transactions (some 1))).count ⟨digest 1, 0⟩ = 1 ∧
    spentOnce.state.outputs.liveCount spentOnce.state.index.view (some 1) ⟨digest 1, 0⟩ = 0 := by
  have hfound : (spentOnce.state.index.view.position 1).isSome = true := by decide +kernel
  have hcreated : (createdOutpoints (spentOnce.transactions (some 1))).count ⟨digest 1, 0⟩ = 1 := by
    decide +kernel
  have hspent : (spentOutpoints (spentOnce.transactions (some 1))).count ⟨digest 1, 0⟩ = 1 := by
    decide +kernel
  have haccounted : spentOnce.Accounted (some 1) ⟨digest 1, 0⟩ :=
    branch_outputs parameters [first, spending 16 first 1600003560 5]
      (View.indexed_some.2 (Option.isSome_iff_exists.1 hfound)) ⟨digest 1, 0⟩
  have hbalance := haccounted.balance (by decide)
  exact ⟨hcreated, hspent, by omega⟩

open SmallChain in
/-- A transaction that is repeated on a branch makes its outpoint live twice, and two blocks of the branch
then spend it. -/
theorem repeated_output :
    (¬ ∀ tip o, repeated.index.view.Indexed tip →
      repeated.outputs.liveCount repeated.index.view tip o ≤ 1) ∧
    ¬ ∀ tip, repeated.index.view.Indexed tip → ∀ e ∈ repeated.outputs.entries,
      ∀ d ∈ repeated.outputs.entries, e.source.outpoint = d.source.outpoint →
      ∀ x ∈ e.spenders, ∀ y ∈ d.spenders, repeated.index.view.onBranch x tip = true →
        repeated.index.view.onBranch y tip = true → x = y := by
  have hfound : ∀ id < 4, (repeated.index.view.position id).isSome = true := by decide +kernel
  have hindexed : ∀ id < 4, repeated.index.view.Indexed (some id) := fun id hid =>
    View.indexed_some.2 (Option.isSome_iff_exists.1 (hfound id hid))
  have hentries : repeated.outputs.entries.toList.map (fun e => (e.source.outpoint, e.spenders)) =
      [(⟨digest 1, 0⟩, [2]), (⟨digest 1, 0⟩, [3]), (⟨digest 5, 0⟩, []), (⟨digest 6, 0⟩, [])] := by
    decide +kernel
  constructor
  · intro hlive
    have htwice : repeated.outputs.liveCount repeated.index.view (some 1) ⟨digest 1, 0⟩ = 2 := by
      decide +kernel
    have hone := hlive (some 1) ⟨digest 1, 0⟩ (hindexed 1 (by decide))
    omega
  · intro honce
    have hfirst : (⟨digest 1, 0⟩, [2]) ∈ repeated.outputs.entries.toList.map
        (fun e => (e.source.outpoint, e.spenders)) := by simp [hentries]
    have hsecond : (⟨digest 1, 0⟩, [3]) ∈ repeated.outputs.entries.toList.map
        (fun e => (e.source.outpoint, e.spenders)) := by simp [hentries]
    obtain ⟨e, he, hepair⟩ := List.mem_map.1 hfirst
    obtain ⟨d, hd, hdpair⟩ := List.mem_map.1 hsecond
    obtain ⟨heo, hespent⟩ := Prod.mk.inj hepair
    obtain ⟨hdo, hdspent⟩ := Prod.mk.inj hdpair
    have heq : 2 = 3 := honce (some 3) (hindexed 3 (by decide)) e (Array.mem_toList_iff.1 he) d
      (Array.mem_toList_iff.1 hd) (heo.trans hdo.symm) 2 (by simp [hespent]) 3 (by simp [hdspent])
      (by decide +kernel) (by decide +kernel)
    omega

end StakeChain
