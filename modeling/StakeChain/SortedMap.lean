/-!
Tables in the order of their keys. That the keys ascend is part of the table, so each has one entry, and to look
a key up is to find its entry: `get?_eq_some`. Setting a key again replaces its value: `get?_set`.
-/

namespace StakeChain

structure SortedMap (κ α : Type) [LT κ] where
  entries : List (κ × α)
  /-- No key stands twice, since each is greater than those before it. -/
  ascending : entries.Pairwise fun a b => a.1 < b.1
deriving DecidableEq

namespace SortedMap

variable {κ α : Type} [DecidableEq κ] {l : List (κ × α)} {key k : κ} {value v : α} {e : κ × α}

theorem lookup_cons_eq : ((k, v) :: l).lookup key = if key = k then some v else l.lookup key := by
  rw [List.lookup_cons]
  by_cases heq : key = k
  · rw [if_pos heq, beq_iff_eq.2 heq]
  · rw [if_neg heq, beq_false_of_ne heq]

variable [LT κ] {m : SortedMap κ α}

def empty : SortedMap κ α := ⟨[], .nil⟩

/-- The value of a key. -/
def get? (m : SortedMap κ α) (key : κ) : Option α := m.entries.lookup key

theorem get?_eq_some [LE κ] [Std.LawfulOrderLT κ] : m.get? key = some value ↔ (key, value) ∈ m.entries := by
  obtain ⟨l, hl⟩ := m
  simp only [get?]
  induction l with
  | nil => simp
  | cons a l ih =>
    obtain ⟨hhead, htail⟩ := List.pairwise_cons.1 hl
    obtain ⟨k, v⟩ := a
    rw [lookup_cons_eq, List.mem_cons, Prod.mk.injEq, ← ih htail]
    by_cases heq : key = k
    · subst heq
      have hfresh : l.lookup key ≠ some value := by
        intro hget
        have hlt := hhead _ ((ih htail).1 hget)
        exact Std.lt_irrefl hlt
      simp [hfresh, eq_comm]
    · simp [heq]

/-- One entry for a key. -/
theorem eq_of_mem [LE κ] [Std.LawfulOrderLT κ] {e' : κ × α} (he : e ∈ m.entries) (he' : e' ∈ m.entries)
    (h : e.1 = e'.1) : e = e' := by
  have hget := get?_eq_some.2 he
  rw [h, get?_eq_some.2 he'] at hget
  exact Prod.ext h (Option.some.inj hget).symm

variable [DecidableLT κ]

/-- Entries with one put in its place by key, over any entry of the same key. -/
def place (key : κ) (value : α) : List (κ × α) → List (κ × α)
  | [] => [(key, value)]
  | (k, v) :: rest =>
    if key < k then (key, value) :: (k, v) :: rest
    else if key = k then (key, value) :: rest
    else (k, v) :: place key value rest

theorem mem_place (he : e ∈ place key value l) : e = (key, value) ∨ e ∈ l := by
  induction l with
  | nil => simpa [place] using he
  | cons a l ih =>
    rw [place] at he
    split at he
    · simpa using he
    · split at he
      · rcases List.mem_cons.1 he with rfl | he
        · exact .inl rfl
        · exact .inr (List.mem_cons_of_mem _ he)
      · rcases List.mem_cons.1 he with rfl | he
        · exact .inr List.mem_cons_self
        · rcases ih he with rfl | he
          · exact .inl rfl
          · exact .inr (List.mem_cons_of_mem _ he)

variable [LE κ] [Std.IsLinearOrder κ] [Std.LawfulOrderLT κ]

theorem ascending_place (hl : l.Pairwise fun a b => a.1 < b.1) (key : κ) (value : α) :
    (place key value l).Pairwise fun a b => a.1 < b.1 := by
  induction l with
  | nil => simp [place]
  | cons a l ih =>
    obtain ⟨hhead, htail⟩ := List.pairwise_cons.1 hl
    rw [place]
    split
    · rename_i hlt
      refine List.pairwise_cons.2 ⟨fun e he => ?_, hl⟩
      rcases List.mem_cons.1 he with rfl | he
      · exact hlt
      · exact Std.lt_trans hlt (hhead e he)
    · split
      · rename_i heq
        exact List.pairwise_cons.2 ⟨fun e he => heq ▸ hhead e he, htail⟩
      · rename_i hnot hne
        have hgreater : a.1 < key := ((Std.lt_trichotomy key a.1).resolve_left hnot).resolve_left hne
        refine List.pairwise_cons.2 ⟨fun e he => ?_, ih htail⟩
        rcases mem_place he with rfl | he
        · exact hgreater
        · exact hhead e he

def set (m : SortedMap κ α) (key : κ) (value : α) : SortedMap κ α :=
  ⟨place key value m.entries, ascending_place m.ascending key value⟩

/-- Setting a key leaves the others as they are. -/
theorem get?_set : (m.set k v).get? key = if key = k then some v else m.get? key := by
  obtain ⟨l, hl⟩ := m
  simp only [set, get?]
  clear hl
  induction l with
  | nil => exact lookup_cons_eq
  | cons a l ih =>
    obtain ⟨k', v'⟩ := a
    rw [place]
    split
    · exact lookup_cons_eq
    · split
      · rename_i hsame
        subst hsame
        rw [lookup_cons_eq, lookup_cons_eq]
        split <;> rfl
      · rename_i hne
        rw [lookup_cons_eq, lookup_cons_eq, ih]
        by_cases heq : key = k'
        · subst heq
          rw [if_pos rfl, if_pos rfl, if_neg (Ne.symm hne)]
        · rw [if_neg heq, if_neg heq]

/-- Entries set one after another: of two for one key the later one counts. -/
def ofList (entries : List (κ × α)) : SortedMap κ α := entries.foldl (fun m e => m.set e.1 e.2) empty

theorem ofList_concat : ofList (l ++ [e]) = (ofList l).set e.1 e.2 := by
  rw [ofList, List.foldl_append, List.foldl_cons, List.foldl_nil, ofList]

end SortedMap

end StakeChain
