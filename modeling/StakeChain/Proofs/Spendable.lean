import StakeChain.Ledger.OutputStore
/-!
What the check of a block's inputs decides. It goes through the inputs once, with the outpoints spent and
created so far; it passes exactly where no outpoint is spent twice in the block and each is there to spend,
on the branch or from a transaction before. Null inputs are left out.
-/

namespace StakeChain

/-- The outpoints that transactions spend, in order, null ones left out. -/
def spentOutpoints (txs : List Transaction) : List OutPoint :=
  (txs.flatMap Transaction.inputs).filter fun o => !o.isNull

/-- Transactions can be applied one after another where some outpoints are available: none is spent twice,
and each is available or was created by an earlier transaction. -/
structure Spendable (available : OutPoint → Prop) (txs : List Transaction) : Prop where
  once : (spentOutpoints txs).Nodup
  each : ∀ before tx after, txs = before ++ tx :: after → ∀ o ∈ tx.inputs, o.isNull = false →
    available o ∨ ∃ earlier ∈ before, o ∈ earlier.created.map Prod.fst

theorem mem_spentOutpoints {txs : List Transaction} {o : OutPoint} :
    o ∈ spentOutpoints txs ↔ (∃ tx ∈ txs, o ∈ tx.inputs) ∧ o.isNull = false := by
  simp [spentOutpoints]

theorem spentOutpoints_cons (tx : Transaction) (rest : List Transaction) :
    spentOutpoints (tx :: rest) =
      (tx.inputs.filter fun o => !o.isNull) ++ spentOutpoints rest := by
  simp [spentOutpoints]

theorem Spendable.congr {A B : OutPoint → Prop} {txs : List Transaction} (h : ∀ o, A o ↔ B o) :
    Spendable A txs ↔ Spendable B txs := by
  obtain rfl : A = B := funext fun o => propext (h o)
  rfl

/-- The inputs of the first transaction are there from the start. -/
theorem Spendable.head {A : OutPoint → Prop} {tx : Transaction} {rest : List Transaction}
    (h : Spendable A (tx :: rest)) : (tx.inputs.filter fun o => !o.isNull).Nodup ∧
      ∀ o ∈ tx.inputs, o.isNull = false → A o := by
  have honce := h.once
  rw [spentOutpoints_cons, List.nodup_append] at honce
  refine ⟨honce.1, fun o ho ho0 => ?_⟩
  rcases h.each [] tx rest rfl o ho ho0 with hA | ⟨_, hmem, -⟩
  · exact hA
  · simp at hmem

/-- After the first transaction the others can be applied, where its outputs are there and what it has not
spent still is. -/
theorem Spendable.tail {A B : OutPoint → Prop} {tx : Transaction} {rest : List Transaction}
    (h : Spendable A (tx :: rest)) (hkept : ∀ o, A o → o ∉ tx.inputs → B o)
    (hcreated : ∀ o ∈ tx.created.map Prod.fst, B o) : Spendable B rest := by
  have honce := h.once
  rw [spentOutpoints_cons, List.nodup_append] at honce
  refine ⟨honce.2.1, fun before next after hrest o ho ho0 => ?_⟩
  rcases h.each (tx :: before) next after (hrest ▸ rfl) o ho ho0 with hA | ⟨earlier, hmem, hearlier⟩
  · refine Or.inl (hkept o hA fun hspent => ?_)
    have hlater : o ∈ spentOutpoints rest :=
      mem_spentOutpoints.2 ⟨⟨next, by simp [hrest], ho⟩, ho0⟩
    exact honce.2.2 o (List.mem_filter.2 ⟨hspent, by simp [ho0]⟩) o hlater rfl
  · rcases List.mem_cons.1 hmem with rfl | hmem
    · exact Or.inl (hcreated o hearlier)
    · exact Or.inr ⟨earlier, hmem, hearlier⟩

namespace OutputStore

variable {available : OutPoint → Bool} {spent created : List OutPoint}
  {ss : List (OutPoint × List OutPoint)} {txs : List Transaction}

/-- Spends pass, after some outpoints were spent before, when each is new and there. -/
theorem checkSpends_eq_ok : checkSpends available spent ss = .ok () ↔
    ((ss.map Prod.fst).filter fun o => !o.isNull).Nodup ∧
      ∀ x ∈ ss, x.1.isNull = false → x.1 ∉ spent ∧ (available x.1 = true ∨ x.1 ∈ x.2) := by
  induction ss generalizing spent with
  | nil => simp [checkSpends]
  | cons x ss ih =>
    obtain ⟨o, created⟩ := x
    rw [checkSpends, List.map_cons, List.forall_mem_cons]
    cases hnull : o.isNull with
    | true =>
      rw [if_pos rfl, List.filter_cons_of_neg (by simp [hnull]), ih]
      simp
    | false =>
      rw [if_neg (by simp), List.filter_cons_of_pos (by simp [hnull]), List.nodup_cons]
      by_cases hspent : o ∈ spent
      · simp [hspent]
      · have hmissing : (!available o && !created.contains o) = true ↔
            ¬ (available o = true ∨ o ∈ created) := by simp
        rw [if_neg (by simpa using hspent)]
        by_cases hthere : available o = true ∨ o ∈ created
        · rw [if_neg fun h => hmissing.1 h hthere, ih]
          simp only [List.mem_cons, not_or]
          constructor
          · rintro ⟨hnodup, heach⟩
            refine ⟨⟨?_, hnodup⟩, fun _ => ⟨hspent, hthere⟩, fun x hx hx0 => ?_⟩
            · intro hmem
              obtain ⟨hmem, -⟩ := List.mem_filter.1 hmem
              obtain ⟨x, hx, rfl⟩ := List.mem_map.1 hmem
              exact (heach x hx hnull).1.1 rfl
            · obtain ⟨⟨-, hnew⟩, hx⟩ := heach x hx hx0
              exact ⟨hnew, hx⟩
          · rintro ⟨⟨hfresh, hnodup⟩, -, heach⟩
            refine ⟨hnodup, fun x hx hx0 => ⟨⟨?_, (heach x hx hx0).1⟩, (heach x hx hx0).2⟩⟩
            rintro rfl
            exact hfresh (List.mem_filter.2 ⟨List.mem_map_of_mem hx, by simp [hx0]⟩)
        · rw [if_pos (hmissing.2 hthere)]
          simp [hthere]

theorem map_fst_spends : (spends created txs).map Prod.fst = txs.flatMap Transaction.inputs := by
  induction txs generalizing created with
  | nil => rfl
  | cons tx rest ih => simp [spends, ih, Function.comp_def]

/-- What was created before a spend: what the start has, and what earlier transactions create. -/
theorem forall_mem_spends {A : OutPoint → Prop} :
    (∀ x ∈ spends created txs, x.1.isNull = false → A x.1 ∨ x.1 ∈ x.2) ↔
      ∀ before tx after, txs = before ++ tx :: after → ∀ o ∈ tx.inputs, o.isNull = false →
        A o ∨ o ∈ created ∨ ∃ earlier ∈ before, o ∈ earlier.created.map Prod.fst := by
  induction txs generalizing created with
  | nil => simp [spends]
  | cons head rest ih =>
    simp only [spends, List.mem_append, or_imp, forall_and, ih]
    constructor
    · rintro ⟨hhead, hrest⟩ before tx after htxs o ho ho0
      cases before with
      | nil =>
        obtain ⟨rfl, rfl⟩ := List.cons.inj htxs
        have hthere := hhead (o, created) (List.mem_map_of_mem ho) ho0
        rcases hthere with hA | hcreated
        · exact Or.inl hA
        · exact Or.inr (Or.inl hcreated)
      | cons first before =>
        obtain ⟨rfl, rfl⟩ := List.cons.inj htxs
        rcases hrest before tx after rfl o ho ho0 with hA | (hhead | hcreated) | ⟨earlier, hmem, hearlier⟩
        · exact Or.inl hA
        · exact Or.inr (Or.inr ⟨head, List.mem_cons_self, hhead⟩)
        · exact Or.inr (Or.inl hcreated)
        · exact Or.inr (Or.inr ⟨earlier, List.mem_cons_of_mem _ hmem, hearlier⟩)
    · intro heach
      constructor
      · intro x hx hx0
        obtain ⟨o, ho, rfl⟩ := List.mem_map.1 hx
        rcases heach [] head rest rfl o ho hx0 with hA | hcreated | ⟨_, hmem, -⟩
        · exact Or.inl hA
        · exact Or.inr hcreated
        · simp at hmem
      · rintro before tx after rfl o ho ho0
        rcases heach (head :: before) tx after rfl o ho ho0 with hA | hcreated | ⟨earlier, hmem, hearlier⟩
        · exact Or.inl hA
        · exact Or.inr (Or.inl (Or.inr hcreated))
        · rcases List.mem_cons.1 hmem with rfl | hmem
          · exact Or.inr (Or.inl (Or.inl hearlier))
          · exact Or.inr (Or.inr ⟨earlier, hmem, hearlier⟩)

/-- The check passes exactly for transactions that can be applied on top of the branch. -/
theorem checkSpendable_eq_ok {s : OutputStore} {v : View} {tip : Option Nat} :
    s.checkSpendable v tip txs = .ok () ↔ Spendable (fun o => (s.get? v tip o).isSome = true) txs := by
  have hthere := @forall_mem_spends [] txs fun o => (s.get? v tip o).isSome = true
  simp only [List.not_mem_nil, false_or] at hthere
  rw [checkSpendable, checkSpends_eq_ok, map_fst_spends]
  simp only [List.not_mem_nil, not_false_eq_true, true_and, hthere]
  exact ⟨fun h => ⟨h.1, h.2⟩, fun h => ⟨h.once, h.each⟩⟩

end OutputStore

end StakeChain
