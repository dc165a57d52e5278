import StakeChain.Proofs.Branch
/-!
Which modifier enters a kernel. The walk goes from the block after the source towards the tip and stops
at the first generation that is a selection interval or more after the source. On a branch that is the
lowest renewal of the modifier for the source, and where the branch has none, no kernel can be made yet.
-/

namespace StakeChain

theorem sectionLength_last (interval : Nat) : sectionLength interval 63 = interval := by simp [sectionLength]

/-- The selection interval is at least as long as the modifier interval, the length of its last section. -/
theorem le_selectionLength (interval : Nat) : interval ≤ selectionLength interval := by
  have hlast := sectionLength_last interval
  change interval ≤ sectionsLength interval 63 + sectionLength interval 63
  omega

theorem Parameters.selectionInterval_pos {p : Parameters} (hp : 0 < p.modifierInterval) :
    0 < p.selectionInterval := by
  have hpos : 0 < p.modifierInterval.toNat := hp
  exact Nat.lt_of_lt_of_le hpos (le_selectionLength _)

/-! ### The walk towards the tip -/

/-- A walk that has not reached its target stops at the first generation at or after it. -/
theorem blockReaching_eq_find? {target reached : Nat} (h : reached < target)
    (current : Option Position) (bs : List Position) :
    blockReaching target reached current bs =
      (bs.find? fun b => b.flags.generated && target ≤ b.time.toNat).map some := by
  induction bs generalizing reached current with
  | nil => rw [blockReaching, if_neg (Nat.not_le.2 h), List.find?_nil, Option.map_none]
  | cons b bs ih =>
    rw [blockReaching, if_neg (Nat.not_le.2 h), List.find?_cons]
    cases hgen : b.flags.generated with
    | false => simpa [hgen] using ih h (some b)
    | true =>
      by_cases hlate : target ≤ b.time.toNat
      · -- The next step sees that the target is reached, whatever blocks are left.
        cases bs <;> simp [blockReaching, hlate]
      · simpa [hlate] using ih (Nat.not_le.1 hlate) (some b)

/-- Among blocks of increasing heights, what is found first is lowest. -/
theorem find?_eq_some_lowest {q : Position → Bool} {bs : List Position} {b : Position}
    (h : bs.Pairwise fun a c => a.height < c.height) :
    bs.find? q = some b ↔ b ∈ bs ∧ q b = true ∧ ∀ c ∈ bs, q c = true → b.height ≤ c.height := by
  induction bs with
  | nil => simp
  | cons a bs ih =>
    obtain ⟨hlow, htail⟩ := List.pairwise_cons.1 h
    cases hq : q a with
    | true =>
      rw [List.find?_cons_of_pos hq, Option.some.injEq]
      constructor
      · rintro rfl
        refine ⟨List.mem_cons_self, hq, fun c hc _ => ?_⟩
        rcases List.mem_cons.1 hc with rfl | hc
        · exact Nat.le_refl _
        · exact Nat.le_of_lt (hlow c hc)
      · rintro ⟨hmem, -, hlowest⟩
        rcases List.mem_cons.1 hmem with rfl | hmem
        · rfl
        · exact absurd (hlow b hmem) (Nat.not_lt.2 (hlowest a List.mem_cons_self hq))
    | false =>
      have hne : ∀ c, q c = true → c ≠ a := by
        rintro c hc rfl
        simp [hq] at hc
      rw [List.find?_cons_of_neg (by simp [hq]), ih htail]
      constructor
      · rintro ⟨hmem, hb, hlowest⟩
        refine ⟨List.mem_cons_of_mem _ hmem, hb, fun c hc hqc => hlowest c ?_ hqc⟩
        exact (List.mem_cons.1 hc).resolve_left (hne c hqc)
      · rintro ⟨hmem, hb, hlowest⟩
        refine ⟨(List.mem_cons.1 hmem).resolve_left (hne b hb), hb, fun c hc hqc => ?_⟩
        exact hlowest c (List.mem_cons_of_mem _ hc) hqc

/-- Where a property that holds of an element holds of those before it, those with the property come first. -/
theorem mem_takeWhile_of_pairwise {α : Type} {q : α → Bool} {l : List α} {b : α}
    (h : l.Pairwise fun a c => q c = true → q a = true) :
    b ∈ l.takeWhile q ↔ b ∈ l ∧ q b = true := by
  induction l with
  | nil => simp
  | cons a l ih =>
    obtain ⟨hfirst, htail⟩ := List.pairwise_cons.1 h
    by_cases ha : q a = true
    · rw [List.takeWhile_cons_of_pos ha, List.mem_cons, List.mem_cons, ih htail]
      constructor
      · rintro (rfl | ⟨hmem, hb⟩)
        · exact ⟨Or.inl rfl, ha⟩
        · exact ⟨Or.inr hmem, hb⟩
      · rintro ⟨rfl | hmem, hb⟩
        · exact Or.inl rfl
        · exact Or.inr ⟨hmem, hb⟩
    · rw [List.takeWhile_cons_of_neg ha]
      refine iff_of_false List.not_mem_nil ?_
      rintro ⟨hmem, hb⟩
      rcases List.mem_cons.1 hmem with rfl | hmem
      · exact ha hb
      · exact ha (hfirst b hmem hb)

namespace View

/-- A block on the branch that ends at `prev`, above the source, at which a modifier was generated a
selection interval or more after the source. -/
structure Renewal (v : View) (p : Parameters) (prev : Nat) (source : SourceBlock) (b : Position) :
    Prop where
  branch : ∃ id, Relation.ReflTransGen v.Parent id prev ∧ v.position id = some b
  above : source.height < b.height
  generated : b.flags.generated = true
  late : source.time.toNat + p.selectionInterval ≤ b.time.toNat

/-- The modifier for the kernel of a coinstake at `time` after `prev`, in each version of the protocol. -/
inductive KernelRule (v : View) (p : Parameters) (prev : Nat) (source : SourceBlock) (time : UInt32) :
    KernelModifier → Prop where
  /-- Before version 0.3 the compact target stands in. -/
  | legacy : p.inForce .v03 time = false → KernelRule v p prev source time .legacyBits
  /-- From version 0.5 on it is that of the block before. -/
  | previous {tip : Position} : p.inForce .v03 time = true → p.inForce .v05 time = true →
      v.position prev = some tip → KernelRule v p prev source time (.modifier tip.stakeModifier)
  /-- In between it is that of the lowest renewal. -/
  | renewed {b : Position} : p.inForce .v03 time = true → p.inForce .v05 time = false →
      v.Renewal p prev source b → (∀ c, v.Renewal p prev source c → b.height ≤ c.height) →
      KernelRule v p prev source time (.modifier b.stakeModifier)

variable {v : View} {p : Parameters} {prev : Nat} {source : SourceBlock} {time : UInt32}
  {tip b : Position} {m : KernelModifier}

theorem Linked.branch_pairwise (hl : v.Linked) : ∀ tip, v.Indexed tip →
    (v.branch tip).Pairwise fun a c => c.height < a.height := by
  refine hl.tip_induction (by simp) ?_
  intro id b hb ih
  rw [hl.branch_some hb, List.pairwise_cons]
  exact ⟨fun c hc => hl.height_lt hb hc, ih⟩

theorem Linked.mem_branch_iff (hl : v.Linked) (htip : v.position prev = some tip) :
    b ∈ v.branch (some prev) ↔
      ∃ id, Relation.ReflTransGen v.Parent id prev ∧ v.position id = some b := by
  have hix : v.Indexed (some prev) := indexed_some.2 ⟨tip, htip⟩
  have reaches : ∀ id, v.onBranch id (some prev) = true ↔ Relation.ReflTransGen v.Parent id prev :=
    fun id => by simpa using hl.onBranch_iff_reaches (x := id) (some prev) hix
  constructor
  · intro hmem
    obtain ⟨id, hid⟩ := hl.exists_position hix hmem
    exact ⟨id, (reaches id).1 ((hl.onBranch_iff_mem _ hix).2 ⟨b, hid, hmem⟩), hid⟩
  · rintro ⟨id, hreach, hid⟩
    obtain ⟨c, hc, hmem⟩ := (hl.onBranch_iff_mem _ hix).1 ((reaches id).2 hreach)
    obtain rfl : b = c := by simpa [hid] using hc
    exact hmem

/-- No block of a branch is above its tip. -/
theorem Linked.height_le (hl : v.Linked) (htip : v.position prev = some tip) {id : Nat}
    (hreach : Relation.ReflTransGen v.Parent id prev) (hb : v.position id = some b) :
    b.height ≤ tip.height := by
  have hmem := (hl.mem_branch_iff htip).2 ⟨id, hreach, hb⟩
  rw [hl.branch_some htip, List.mem_cons] at hmem
  rcases hmem with rfl | hmem
  · exact Nat.le_refl _
  · exact Nat.le_of_lt (hl.height_lt htip hmem)

/-- The blocks above the source that are late generations are the renewals. -/
theorem Linked.renewal_iff (hl : v.Linked) (htip : v.position prev = some tip) :
    v.Renewal p prev source b ↔
      b ∈ ((v.branch (some prev)).takeWhile fun c => source.height < c.height).reverse ∧
      (b.flags.generated && source.time.toNat + p.selectionInterval ≤ b.time.toNat) = true := by
  have hpairs := hl.branch_pairwise (some prev) (indexed_some.2 ⟨tip, htip⟩)
  have habove : (v.branch (some prev)).Pairwise fun a c =>
      decide (source.height < c.height) = true → decide (source.height < a.height) = true :=
    hpairs.imp fun hlt => by simpa using fun habove => Nat.lt_trans habove hlt
  rw [List.mem_reverse, mem_takeWhile_of_pairwise habove, hl.mem_branch_iff htip, decide_eq_true_eq,
    Bool.and_eq_true, decide_eq_true_eq]
  constructor
  · rintro ⟨hbranch, habove, hgenerated, hlate⟩
    exact ⟨⟨hbranch, habove⟩, hgenerated, hlate⟩
  · rintro ⟨⟨hbranch, habove⟩, hgenerated, hlate⟩
    exact ⟨hbranch, habove, hgenerated, hlate⟩

/-- The first late generation among the blocks above the source, oldest first, is the lowest renewal. -/
theorem Linked.find?_renewal (hl : v.Linked) (htip : v.position prev = some tip) :
    ((v.branch (some prev)).takeWhile fun c => source.height < c.height).reverse.find?
        (fun c => c.flags.generated && source.time.toNat + p.selectionInterval ≤ c.time.toNat) =
      some b ↔ v.Renewal p prev source b ∧ ∀ c, v.Renewal p prev source c → b.height ≤ c.height := by
  have hpairs := hl.branch_pairwise (some prev) (indexed_some.2 ⟨tip, htip⟩)
  have hsegment : ((v.branch (some prev)).takeWhile fun c => source.height < c.height).reverse.Pairwise
      fun a c => a.height < c.height :=
    List.pairwise_reverse.2 (hpairs.sublist (List.takeWhile_sublist _))
  rw [find?_eq_some_lowest hsegment, hl.renewal_iff htip, and_assoc]
  refine and_congr_right fun _ => and_congr_right fun _ => forall_congr' fun c => ?_
  rw [hl.renewal_iff htip, and_imp]

theorem Linked.find?_renewal_eq_none (hl : v.Linked) (htip : v.position prev = some tip) :
    ((v.branch (some prev)).takeWhile fun c => source.height < c.height).reverse.find?
        (fun c => c.flags.generated && source.time.toNat + p.selectionInterval ≤ c.time.toNat) =
      none ↔ ∀ c, ¬ v.Renewal p prev source c := by
  rw [List.find?_eq_none]
  refine forall_congr' fun c => ?_
  rw [hl.renewal_iff htip, not_and]

/-- From version 0.3 to version 0.5 the first late generation above the source gives the modifier, and
without one there is none yet. -/
theorem Linked.kernelModifier_between (hl : v.Linked) (htip : v.position prev = some tip)
    (hp : 0 < p.modifierInterval) (hbelow : source.height ≤ tip.height)
    (h03 : p.inForce .v03 time = true) (h05 : p.inForce .v05 time = false) :
    v.kernelModifier p prev source time =
      match ((v.branch (some prev)).takeWhile fun c => source.height < c.height).reverse.find?
        (fun c => c.flags.generated && source.time.toNat + p.selectionInterval ≤ c.time.toNat) with
      | none => .error (.rejected (.modifierNotYetAvailable source.hash))
      | some b => .ok (.modifier b.stakeModifier) := by
  have hearly : source.time.toNat < source.time.toNat + p.selectionInterval :=
    Nat.lt_add_of_pos_right (Parameters.selectionInterval_pos hp)
  rw [hl.kernelModifier_eq htip, if_neg (Nat.not_lt.2 hbelow), if_neg (by simp [h03]),
    if_neg (by simp [h05])]
  dsimp only
  rw [blockReaching_eq_find? hearly]
  cases List.find? _ _ <;> rfl

/-- For a source that is not above the tip, the modifier is the one that the rule of the version asks for. -/
theorem Linked.kernelModifier_eq_ok (hl : v.Linked) (htip : v.position prev = some tip)
    (hp : 0 < p.modifierInterval) (hbelow : source.height ≤ tip.height) :
    v.kernelModifier p prev source time = .ok m ↔ v.KernelRule p prev source time m := by
  cases h03 : p.inForce .v03 time with
  | false =>
    rw [hl.kernelModifier_eq htip, h03, if_pos Bool.not_false, Except.ok.injEq]
    constructor
    · rintro rfl
      exact .legacy h03
    · rintro (_ | h | h)
      · rfl
      · simp [h03] at h
      · simp [h03] at h
  | true =>
    cases h05 : p.inForce .v05 time with
    | true =>
      rw [hl.kernelModifier_eq htip, h03, h05, if_neg (by simp), if_pos rfl, Except.ok.injEq]
      constructor
      · rintro rfl
        exact .previous h03 h05 htip
      · rintro (h | ⟨-, -, htip'⟩ | ⟨-, h⟩)
        · simp [h03] at h
        · obtain rfl := Option.some.inj (htip.symm.trans htip')
          rfl
        · simp [h05] at h
    | false =>
      rw [hl.kernelModifier_between htip hp hbelow h03 h05]
      cases hfind : List.find? _ _ with
      | none =>
        refine iff_of_false (by simp) ?_
        rintro (h | ⟨-, h⟩ | ⟨-, -, hrenewal, -⟩)
        · simp [h03] at h
        · simp [h05] at h
        · exact (hl.find?_renewal_eq_none htip).1 hfind _ hrenewal
      | some b =>
        obtain ⟨hrenewal, hlowest⟩ := (hl.find?_renewal htip).1 hfind
        dsimp only
        rw [Except.ok.injEq]
        constructor
        · rintro rfl
          exact .renewed h03 h05 hrenewal hlowest
        · rintro (h | ⟨-, h⟩ | ⟨-, -, hrenewal', hlowest'⟩)
          · simp [h03] at h
          · simp [h05] at h
          · have hfind' := (hl.find?_renewal htip).2 ⟨hrenewal', hlowest'⟩
            obtain rfl := Option.some.inj (hfind.symm.trans hfind')
            rfl

end View

end StakeChain
