import StakeChain.Proofs.LiveOutputs
import StakeChain.Proofs.Spendable
/-!
What a block spends. A block that passes the check spends an outpoint once, null outpoints aside; so
the output that its coinstake stakes is still the oldest live one of its outpoint when connecting the
block comes to the coinstake, and it is the entry that is marked as spent.
-/

namespace StakeChain

namespace OutputStore

variable {s : OutputStore} {v : View} {n i : Nat} {o : OutPoint} {block : SourceBlock}

/-- A block that may be spent does not spend its kernel before the coinstake. -/
theorem checkSpendable_kernel {prev : Option Nat} {first tx : Transaction} {rest : List Transaction}
    {os : List OutPoint} (htx : tx.inputs = o :: os) (ho : o.isNull = false)
    (h : s.checkSpendable v prev (first :: tx :: rest) = .ok ()) : o ∉ first.inputs := by
  intro hfirst
  have honce := (checkSpendable_eq_ok.1 h).once
  rw [spentOutpoints_cons, List.nodup_append] at honce
  have hlater : o ∈ spentOutpoints (tx :: rest) :=
    mem_spentOutpoints.2 ⟨⟨tx, List.mem_cons_self, by simp [htx]⟩, ho⟩
  exact honce.2.2 o (List.mem_filter.2 ⟨hfirst, by simp [ho]⟩) o hlater rfl

/-! ### The kernel is marked -/

theorem findIdx?_congr {q q' : OutputEntry → Bool} {l : List OutputEntry}
    (h : ∀ e ∈ l, q e = q' e) : l.findIdx? q = l.findIdx? q' := by
  induction l with
  | nil => rfl
  | cons e l ih =>
    obtain ⟨hhead, htail⟩ := List.forall_mem_cons.1 h
    rw [List.findIdx?_cons, List.findIdx?_cons, hhead, ih htail]

theorem findIdx?_modify {q : OutputEntry → Bool} {f : OutputEntry → OutputEntry}
    {l : List OutputEntry} {j : Nat} (h : ∀ e, l[j]? = some e → q (f e) = q e) :
    (l.modify j f).findIdx? q = l.findIdx? q := by
  induction l generalizing j with
  | nil => simp
  | cons e l ih =>
    cases j with
    | zero =>
      rw [List.modify_zero_cons, List.findIdx?_cons, List.findIdx?_cons, h e rfl]
    | succ j =>
      rw [List.modify_succ_cons, List.findIdx?_cons, List.findIdx?_cons,
        ih fun e he => h e (by simpa using he)]

/-- Spending another outpoint leaves the oldest live output of this one. -/
theorem findIdx?_spend {o' : OutPoint} (hne : o' ≠ o) {tip : Option Nat} :
    (s.spend v n o').entries.toList.findIdx? (isLive v tip o) =
      s.entries.toList.findIdx? (isLive v tip o) := by
  rw [spend_toList]
  split
  · rename_i j hj
    refine findIdx?_modify fun e he => ?_
    have hlive : isLive v (some n) o' e = true := by simpa [he] using List.of_findIdx?_eq_some hj
    have hother : (e.source.outpoint == o) = false := by
      obtain ⟨hout, -⟩ := Bool.and_eq_true_iff.1 hlive
      rw [eq_of_beq hout]
      simpa using hne
    simp only [isLive, hother, Bool.false_and]
  · rfl

theorem findIdx?_spends {os : List OutPoint} (hos : o ∉ os) {tip : Option Nat} :
    (os.foldl (fun s o => s.spend v n o) s).entries.toList.findIdx? (isLive v tip o) =
      s.entries.toList.findIdx? (isLive v tip o) := by
  induction os generalizing s with
  | nil => rfl
  | cons o' os ih =>
    obtain ⟨hne, hos⟩ := List.ne_and_not_mem_of_not_mem_cons hos
    rw [List.foldl_cons, ih hos, findIdx?_spend (Ne.symm hne)]

theorem findIdx?_create {tip : Option Nat} {tx : Transaction} {offset : Nat}
    (h : s.entries.toList.findIdx? (isLive v tip o) = some i) :
    (s.create n block tx offset).entries.toList.findIdx? (isLive v tip o) = some i := by
  rw [create_toList, List.findIdx?_append, h, Option.some_or]

theorem spend_marks (h : s.entries.toList.findIdx? (isLive v (some n) o) = some i) :
    ∃ e, (s.spend v n o).entries.toList[i]? = some e ∧ n ∈ e.spenders := by
  obtain ⟨hi, -⟩ := List.findIdx?_eq_some_iff_getElem.1 h
  rw [spend_toList, h]
  exact ⟨_, by rw [List.getElem?_modify_eq, List.getElem?_eq_getElem hi]; rfl, by simp⟩

/-- Connecting a block marks the kernel of its coinstake. -/
theorem connect_marks {first tx : Transaction} {rest : List Transaction} {os : List OutPoint}
    (htx : tx.inputs = o :: os) (hfresh : o ∉ first.inputs)
    (h : s.entries.toList.findIdx? (isLive v (some n) o) = some i) :
    ∃ e, (s.connect v n block (first :: tx :: rest)).entries.toList[i]? = some e ∧
      n ∈ e.spenders := by
  rw [connect, transactionOffsets, List.map_cons, List.map_cons, offsetsFrom, offsetsFrom,
    List.zip_cons_cons, List.zip_cons_cons, List.foldl_cons, List.foldl_cons, apply, apply, htx,
    List.foldl_cons]
  obtain ⟨e, he, hmark⟩ := spend_marks (s := (first.inputs.foldl (fun s o => s.spend v n o) s).create n
    block first _) (findIdx?_create ((findIdx?_spends hfresh).trans h))
  obtain ⟨e', he', hlater⟩ :=
    (((grown_spends os).trans grown_create).trans (grown_applies _)).getElem? he
  exact ⟨e', he', hlater.kept n hmark⟩

end OutputStore

end StakeChain
