import Mathlib.Data.List.Nodup
import StakeChain.Proofs.Spending
/-!
Connecting a block step by step, where no input is passed over. The store itself passes over an input that it
does not know; here that is no step. So from a sequence of steps one can tell what it did: each input that is
not null has marked an entry of its own, and the numbers of outputs add up.
-/

namespace StakeChain

/-- The outputs that transactions create, in order, empty ones left out. -/
def createdOutputs (txs : List Transaction) : List Output :=
  (txs.flatMap Transaction.outputs).filter fun o => !o.isEmpty

theorem createdOutputs_cons (tx : Transaction) (rest : List Transaction) :
    createdOutputs (tx :: rest) = (tx.outputs.filter fun o => !o.isEmpty) ++ createdOutputs rest := by
  simp [createdOutputs]

theorem Transaction.length_created (tx : Transaction) :
    tx.created.length = (tx.outputs.filter fun o => !o.isEmpty).length := by
  have houtputs : tx.outputs.zipIdx.map Prod.fst = tx.outputs := List.zipIdx_map_fst 0 tx.outputs
  rw [created, List.length_map, ← List.countP_eq_length_filter, ← List.countP_eq_length_filter]
  conv_rhs => rw [← houtputs, List.countP_map]
  rfl

theorem length_offsetsFrom (start : Nat) (sizes : List Nat) :
    (offsetsFrom start sizes).length = sizes.length := by
  induction sizes generalizing start with
  | nil => rfl
  | cons size rest ih => simp [offsetsFrom, ih]

/-- Every transaction of a block has its byte offset. -/
theorem map_fst_zip_transactionOffsets (txs : List Transaction) :
    (txs.zip (transactionOffsets txs)).map Prod.fst = txs :=
  List.map_fst_zip (by simp [transactionOffsets, length_offsetsFrom])

/-- The number of an output is never that of the null outpoint. -/
theorem Transaction.created_isNull {tx : Transaction} (h : tx.outputs.length < UInt32.size) :
    ∀ o ∈ tx.created, o.1.isNull = false := by
  intro o ho
  obtain ⟨x, hx, rfl⟩ := List.mem_map.1 ho
  obtain ⟨-, hlt, -⟩ := List.mem_zipIdx (List.mem_filter.1 hx).1
  have hindex : x.2 < UInt32.size := by omega
  refine beq_eq_false_iff_ne.2 fun hnull => ?_
  have hvout : (UInt32.ofNat x.2).toNat = OutPoint.null.vout.toNat :=
    congrArg (fun o : OutPoint => o.vout.toNat) hnull
  rw [UInt32.toNat_ofNat_of_lt' hindex] at hvout
  have hlast : OutPoint.null.vout.toNat + 1 = UInt32.size := rfl
  omega

namespace OutputStore

/-- Entry `i` with block `n` added to those that spent it. -/
def mark (s : OutputStore) (n i : Nat) : OutputStore :=
  ⟨s.entries.modify i fun e => { e with spenders := e.spenders ++ [n] }⟩

/-- How often block `n` is among those that spent entry `i`. -/
def timesSpent (s : OutputStore) (n i : Nat) : Nat :=
  (s.entries[i]?.map fun e => e.spenders.count n).getD 0

/-- A step of connecting a block: an input is spent, or a transaction's outputs are added. -/
inductive Step where
  | spend (o : OutPoint)
  | create (tx : Transaction) (offset : Nat)

namespace Step

/-- The steps of transactions, each with its byte offset, in the order in which they are made. -/
def ofTransactions : List (Transaction × Nat) → List Step
  | [] => []
  | (tx, offset) :: rest => tx.inputs.map spend ++ create tx offset :: ofTransactions rest

/-- The steps of a block. -/
def ofBlock (txs : List Transaction) : List Step := ofTransactions (txs.zip (transactionOffsets txs))

/-- The outpoint that a step spends, unless it is null. -/
def spent : Step → List OutPoint
  | spend o => if o.isNull then [] else [o]
  | create _ _ => []

/-- The outputs that a step adds. -/
def created : Step → List (OutPoint × Output)
  | spend _ => []
  | create tx _ => tx.created

theorem flatMap_spent_ofTransactions (ts : List (Transaction × Nat)) :
    (ofTransactions ts).flatMap spent = spentOutpoints (ts.map Prod.fst) := by
  have hinputs : ∀ os : List OutPoint, (os.map spend).flatMap spent = os.filter fun o => !o.isNull := by
    intro os
    induction os with
    | nil => rfl
    | cons o os ih => cases h : o.isNull <;> simp [spent, h, ← ih]
  induction ts with
  | nil => rfl
  | cons t ts ih =>
    rw [ofTransactions, List.flatMap_append, List.flatMap_cons, hinputs, ih, List.map_cons,
      spentOutpoints_cons]
    rfl

theorem length_created_ofTransactions (ts : List (Transaction × Nat)) :
    ((ofTransactions ts).flatMap created).length = (createdOutputs (ts.map Prod.fst)).length := by
  have hinputs : ∀ os : List OutPoint, (os.map spend).flatMap created = [] := by
    intro os
    induction os with
    | nil => rfl
    | cons o os ih => simp [created]
  induction ts with
  | nil => rfl
  | cons t ts ih =>
    rw [ofTransactions, List.flatMap_append, List.flatMap_cons, hinputs, List.nil_append,
      List.length_append, ih, List.map_cons, createdOutputs_cons, List.length_append,
      ← Transaction.length_created]
    rfl

theorem flatMap_spent (txs : List Transaction) : (ofBlock txs).flatMap spent = spentOutpoints txs := by
  rw [ofBlock, flatMap_spent_ofTransactions, map_fst_zip_transactionOffsets]

theorem length_created (txs : List Transaction) :
    ((ofBlock txs).flatMap created).length = (createdOutputs txs).length := by
  rw [ofBlock, length_created_ofTransactions, map_fst_zip_transactionOffsets]

end Step

/-- Makes the steps of block `n` one after another, passing over none. A null input does nothing, and every
other marks an entry of its outpoint that is live at that moment. The entries marked are listed in order. -/
inductive Connects (v : View) (n : Nat) (block : SourceBlock) :
    OutputStore → List Step → List Nat → OutputStore → Prop where
  | done {s} : Connects v n block s [] [] s
  | null {s s' o steps marks} : o.isNull = true → Connects v n block s steps marks s' →
      Connects v n block s (.spend o :: steps) marks s'
  | mark {s s' o steps marks i e} : o.isNull = false → s.entries[i]? = some e →
      e.source.outpoint = o → e.liveAt v (some n) = true →
      Connects v n block (s.mark n i) steps marks s' →
      Connects v n block s (.spend o :: steps) (i :: marks) s'
  | create {s s' tx offset steps marks} :
      Connects v n block (s.create n block tx offset) steps marks s' →
      Connects v n block s (.create tx offset :: steps) marks s'

variable {s s' s₁ : OutputStore} {v : View} {n i j : Nat} {block : SourceBlock} {o : OutPoint}
  {steps steps' : List Step} {marks marks' : List Nat} {tx : Transaction} {offset : Nat}
  {e : OutputEntry}

/-! ### One mark, and one creation -/

theorem spend_eq_mark (h : s.entries.toList.findIdx? (isLive v (some n) o) = some i) :
    s.spend v n o = s.mark n i := by
  obtain ⟨⟨l⟩⟩ := s
  have h : l.findIdx? (isLive v (some n) o) = some i := h
  simp only [spend, mark, List.findIdx?_toArray, h]

theorem spend_eq_self (h : s.entries.toList.findIdx? (isLive v (some n) o) = none) :
    s.spend v n o = s := by
  obtain ⟨⟨l⟩⟩ := s
  have h : l.findIdx? (isLive v (some n) o) = none := h
  simp only [spend, List.findIdx?_toArray, h]

theorem mark_toList : (s.mark n i).entries.toList =
    s.entries.toList.modify i fun e => { e with spenders := e.spenders ++ [n] } := Array.toList_modify ..

theorem getElem?_mark : (s.mark n i).entries[j]? =
    if i = j then s.entries[j]?.map fun e => { e with spenders := e.spenders ++ [n] }
    else s.entries[j]? := Array.getElem?_modify

/-- An entry of the store with new outputs is an old one in its place, or new and not spent. -/
theorem getElem?_create : (s.create n block tx offset).entries[j]? =
    if j < s.entries.size then s.entries[j]?
    else ((Unspent.created block tx offset)[j - s.entries.size]?).map fun source => ⟨source, n, []⟩ := by
  rw [← Array.getElem?_toList, create_toList, List.getElem?_append, List.getElem?_map,
    Array.length_toList, Array.getElem?_toList]

theorem size_mark : (s.mark n i).size = s.size := Array.size_modify ..

theorem size_create : (s.create n block tx offset).size = s.size + tx.created.length := by
  have hlength := congrArg List.length (create_toList s n block tx offset)
  simpa [Unspent.created, size] using hlength

theorem timesSpent_mark (hi : s.entries[i]? = some e) :
    (s.mark n i).timesSpent n j = s.timesSpent n j + if i = j then 1 else 0 := by
  rw [timesSpent, timesSpent, getElem?_mark]
  by_cases h : i = j
  · subst h
    simp [hi]
  · simp [h]

theorem timesSpent_create : (s.create n block tx offset).timesSpent n j = s.timesSpent n j := by
  rw [timesSpent, timesSpent, getElem?_create]
  split
  · rfl
  · rename_i hj
    rw [Array.getElem?_eq_none (Nat.not_lt.1 hj)]
    cases (Unspent.created block tx offset)[j - s.entries.size]? <;> simp

theorem mark_kept (hi : s.entries[i]? = some e) :
    ∃ d, (s.mark n j).entries[i]? = some d ∧ d.source = e.source := by
  rw [getElem?_mark, hi]
  split
  · exact ⟨_, rfl, rfl⟩
  · exact ⟨e, rfl, rfl⟩

section Own

variable (hself : v.onBranch n (some n) = true)

include hself

/-- A live entry was not spent by the block itself. -/
theorem timesSpent_of_live (hi : s.entries[i]? = some e) (hlive : e.liveAt v (some n) = true) :
    s.timesSpent n i = 0 := by
  have hnot : n ∉ e.spenders := by
    intro hmem
    have hoff := (OutputEntry.liveAt_iff.1 hlive).2 n hmem
    simp [hself] at hoff
  simp [timesSpent, hi, List.count_eq_zero.2 hnot]

theorem unspentCount_mark (hi : s.entries[i]? = some e) (hlive : e.liveAt v (some n) = true) :
    (s.mark n i).unspentCount v (some n) + 1 = s.unspentCount v (some n) := by
  rw [← Array.getElem?_toList] at hi
  obtain ⟨hlt, rfl⟩ := List.getElem?_eq_some_iff.1 hi
  have hsome : 0 < s.entries.toList.countP (·.liveAt v (some n)) :=
    List.countP_pos_iff.2 ⟨_, List.getElem_mem hlt, hlive⟩
  have hdead : ∀ e : OutputEntry,
      ¬ OutputEntry.liveAt v (some n) { e with spenders := e.spenders ++ [n] } = true := by
    simp [OutputEntry.liveAt, hself]
  rw [unspentCount, unspentCount, ← Array.countP_toList, ← Array.countP_toList, mark_toList,
    List.modify_eq_set_get _ hlt, List.countP_set hlt, if_pos hlive, if_neg (hdead _)]
  exact Nat.sub_add_cancel hsome

theorem unspentCount_create : (s.create n block tx offset).unspentCount v (some n) =
    s.unspentCount v (some n) + tx.created.length := by
  rw [unspentCount_eq, unspentCount_eq, live_create hself, List.length_append, Unspent.created,
    List.length_map]

end Own

/-! ### What the steps come to -/

namespace Connects

theorem append (h : Connects v n block s steps marks s₁) (h' : Connects v n block s₁ steps' marks' s') :
    Connects v n block s (steps ++ steps') (marks ++ marks') s' := by
  induction h with
  | done => exact h'
  | null ho _ ih => exact .null ho (ih h')
  | mark ho hi hout hlive _ ih => exact .mark ho hi hout hlive (ih h')
  | create _ ih => exact .create (ih h')

/-- Entries keep their places and their outputs. -/
theorem kept (h : Connects v n block s steps marks s') (hi : s.entries[i]? = some e) :
    ∃ e', s'.entries[i]? = some e' ∧ e'.source = e.source := by
  induction h generalizing e with
  | done => exact ⟨e, hi, rfl⟩
  | null _ _ ih => exact ih hi
  | mark _ _ _ _ _ ih =>
    obtain ⟨d, hd, hsource⟩ := mark_kept hi
    obtain ⟨e', he', hsource'⟩ := ih hd
    exact ⟨e', he', hsource'.trans hsource⟩
  | create _ ih =>
    obtain ⟨hlt, -⟩ := Array.getElem?_eq_some_iff.1 hi
    exact ih (by rw [getElem?_create, if_pos hlt]; exact hi)

/-- The entries marked are those of the outpoints spent, in order. -/
theorem outpoints (h : Connects v n block s steps marks s') :
    marks.map (fun i => s'.entries[i]?.map fun e => e.source.outpoint) =
      (steps.flatMap Step.spent).map some := by
  induction h with
  | done => rfl
  | null ho _ ih => simpa [Step.spent, ho] using ih
  | mark ho hi hout _ hrest ih =>
    obtain ⟨d, hd, hsource⟩ := mark_kept hi
    obtain ⟨e', he', hsource'⟩ := hrest.kept hd
    rw [List.map_cons, ih, he', Option.map_some, hsource', hsource, hout, List.flatMap_cons, Step.spent,
      ho]
    rfl
  | create _ ih => simpa [Step.spent] using ih

theorem size_eq (h : Connects v n block s steps marks s') :
    s'.size = s.size + (steps.flatMap Step.created).length := by
  induction h with
  | done => rfl
  | null _ _ ih => exact ih
  | mark _ _ _ _ _ ih => rw [ih, size_mark]; rfl
  | create _ ih =>
    rw [ih, size_create, List.flatMap_cons, List.length_append, Nat.add_assoc]
    rfl

theorem timesSpent_eq (h : Connects v n block s steps marks s') (j : Nat) :
    s'.timesSpent n j = s.timesSpent n j + marks.count j := by
  induction h with
  | done => rfl
  | null _ _ ih => exact ih
  | @mark _ _ _ _ _ i _ _ hi _ _ _ ih =>
    rw [ih, timesSpent_mark hi, List.count_cons, Nat.add_assoc, Nat.add_comm (if i = j then 1 else 0)]
    simp only [beq_iff_eq]
  | create _ ih => rw [ih, timesSpent_create]

section Own

variable (hself : v.onBranch n (some n) = true)

include hself

/-- Every mark takes one output, and every output added counts. -/
theorem unspentCount_eq (h : Connects v n block s steps marks s') :
    s'.unspentCount v (some n) + marks.length =
      s.unspentCount v (some n) + (steps.flatMap Step.created).length := by
  induction h with
  | done => rfl
  | null _ _ ih => exact ih
  | mark _ hi _ hlive _ ih =>
    have hone := unspentCount_mark hself hi hlive
    rw [List.length_cons, List.flatMap_cons, Step.created, List.nil_append]
    omega
  | create _ ih =>
    rw [ih, unspentCount_create hself, List.flatMap_cons, List.length_append, Nat.add_assoc]
    rfl

/-- What is marked was not spent by the block before. -/
theorem unmarked (h : Connects v n block s steps marks s') (hj : j ∈ marks) : s.timesSpent n j = 0 := by
  induction h with
  | done => simp at hj
  | null _ _ ih => exact ih hj
  | mark _ hi _ hlive _ ih =>
    rcases List.mem_cons.1 hj with rfl | hj
    · exact timesSpent_of_live hself hi hlive
    · have hzero := ih hj
      rw [timesSpent_mark hi] at hzero
      omega
  | create _ ih => rw [← ih hj, timesSpent_create]

/-- No entry is marked twice. -/
theorem nodup (h : Connects v n block s steps marks s') : marks.Nodup := by
  induction h with
  | done => exact List.nodup_nil
  | null _ _ ih => exact ih
  | mark _ hi _ _ hrest ih =>
    refine List.nodup_cons.2 ⟨fun hmem => ?_, ih⟩
    have hzero := hrest.unmarked hself hmem
    rw [timesSpent_mark hi, if_pos rfl] at hzero
    omega
  | create _ ih => exact ih

end Own

end Connects

end OutputStore

end StakeChain
