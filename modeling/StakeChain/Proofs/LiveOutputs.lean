import StakeChain.Ledger.OutputStore
import StakeChain.Proofs.Walk
/-!
The shared output store read through one tip. The store forgets nothing, so what a tip sees is
recomputed from the creator and the spenders of each entry; here that view is shown to move as a
plain list does. A block spends and creates in the view of its own tip exactly as on the list, and
leaves the view of every tip that is not on top of it alone.
-/

namespace StakeChain

/-- The outputs of one branch, oldest first. -/
abbrev Unspent := List StakeSource

namespace Unspent

/-- Takes the oldest output that an outpoint names. -/
def spend (l : Unspent) (o : OutPoint) : Unspent := l.eraseP (·.outpoint == o)

/-- The outputs that a transaction at a byte offset of a block creates. -/
def created (block : SourceBlock) (tx : Transaction) (offset : Nat) : Unspent :=
  tx.created.map fun o => ⟨o.1, o.2, tx.time, block, UInt32.ofNat offset⟩

/-- Spends a transaction's inputs, then adds its outputs. -/
def apply (l : Unspent) (block : SourceBlock) (tx : Transaction) (offset : Nat) : Unspent :=
  tx.inputs.foldl spend l ++ created block tx offset

/-- Applies a block's transactions in order. -/
def connect (l : Unspent) (block : SourceBlock) (txs : List Transaction) : Unspent :=
  (txs.zip (transactionOffsets txs)).foldl (fun l t => l.apply block t.1 t.2) l

end Unspent

/-- The entry as it may stand after block `n` was connected: `n` may have spent it. -/
structure OutputEntry.Later (n : Nat) (e e' : OutputEntry) : Prop where
  source : e'.source = e.source
  creator : e'.creator = e.creator
  kept : ∀ x ∈ e.spenders, x ∈ e'.spenders
  added : ∀ x ∈ e'.spenders, x ∈ e.spenders ∨ x = n

namespace OutputEntry

variable {v w : View} {tip tip' : Option Nat} {e e' : OutputEntry} {n : Nat}

theorem Later.refl (n : Nat) (e : OutputEntry) : e.Later n e :=
  ⟨rfl, rfl, fun _ h => h, fun _ h => Or.inl h⟩

theorem Later.trans {e'' : OutputEntry} (h : e.Later n e') (h' : e'.Later n e'') :
    e.Later n e'' := by
  refine ⟨h'.source.trans h.source, h'.creator.trans h.creator,
    fun x hx => h'.kept x (h.kept x hx), ?_⟩
  intro x hx
  rcases h'.added x hx with hx | rfl
  · exact h.added x hx
  · exact Or.inr rfl

theorem liveAt_iff : e.liveAt v tip = true ↔
    v.onBranch e.creator tip = true ∧ ∀ x ∈ e.spenders, v.onBranch x tip = false := by
  simp [liveAt]

/-- Liveness at a tip that has only old blocks below it does not see a later block. -/
theorem Later.liveAt_eq (h : e.Later n e') (hn : w.onBranch n tip' = false)
    (hcreator : w.onBranch e.creator tip' = v.onBranch e.creator tip)
    (hspenders : ∀ x ∈ e.spenders, w.onBranch x tip' = v.onBranch x tip) :
    e'.liveAt w tip' = e.liveAt v tip := by
  rw [Bool.eq_iff_iff, liveAt_iff, liveAt_iff, h.creator, hcreator]
  refine and_congr_right fun _ => ⟨?_, ?_⟩
  · intro hlive x hx
    rw [← hspenders x hx]
    exact hlive x (h.kept x hx)
  · intro hlive x hx
    rcases h.added x hx with hx | rfl
    · rw [hspenders x hx]
      exact hlive x hx
    · exact hn

end OutputEntry

/-- An entry that block `n` created and no other block has touched. -/
structure OutputEntry.Own (n : Nat) (block : SourceBlock) (e : OutputEntry) : Prop where
  creator : e.creator = n
  block : e.source.block = block
  spenders : ∀ x ∈ e.spenders, x = n

/-- What connecting block `n` can do to a list of entries: old entries stay in place, perhaps spent
by `n`, and new ones come after them. -/
inductive Grown (n : Nat) (block : SourceBlock) : List OutputEntry → List OutputEntry → Prop where
  | nil {new} : (∀ e ∈ new, e.Own n block) → Grown n block [] new
  | cons {e e' l l'} : e.Later n e' → Grown n block l l' → Grown n block (e :: l) (e' :: l')

namespace Grown

variable {n i : Nat} {block : SourceBlock} {l l' l'' : List OutputEntry} {e e' : OutputEntry}

/-- Entries are later forms of old ones, or the block's own. -/
theorem mem (h : Grown n block l l') (he : e' ∈ l') :
    (∃ e ∈ l, e.Later n e') ∨ e'.Own n block := by
  induction h with
  | nil hnew => exact Or.inr (hnew e' he)
  | cons hlater _ ih =>
    rcases List.mem_cons.1 he with rfl | he
    · exact Or.inl ⟨_, List.mem_cons_self, hlater⟩
    · rcases ih he with ⟨e, hmem, hlater⟩ | hown
      · exact Or.inl ⟨e, List.mem_cons_of_mem _ hmem, hlater⟩
      · exact Or.inr hown

theorem own (h : Grown n block l l') (hl : ∀ e ∈ l, e.Own n block) : ∀ e ∈ l', e.Own n block := by
  intro e' he'
  rcases h.mem he' with ⟨e, he, hlater⟩ | hown
  · obtain ⟨hcreator, hblock, hspenders⟩ := hl e he
    refine ⟨hlater.creator.trans hcreator, hlater.source ▸ hblock, fun x hx => ?_⟩
    rcases hlater.added x hx with hx | rfl
    · exact hspenders x hx
    · rfl
  · exact hown

theorem trans (h : Grown n block l l') (h' : Grown n block l' l'') : Grown n block l l'' := by
  induction h generalizing l'' with
  | nil hnew => exact .nil (h'.own hnew)
  | cons hlater _ ih =>
    cases h' with
    | cons hlater' h' => exact .cons (hlater.trans hlater') (ih h')

theorem append (l : List OutputEntry) {new : List OutputEntry} (hnew : ∀ e ∈ new, e.Own n block) :
    Grown n block l (l ++ new) := by
  induction l with
  | nil => exact .nil hnew
  | cons e l ih => exact .cons (.refl n e) ih

theorem refl (n : Nat) (block : SourceBlock) (l : List OutputEntry) : Grown n block l l := by
  induction l with
  | nil => exact .nil (by simp)
  | cons e l ih => exact .cons (.refl n e) ih

theorem modify {f : OutputEntry → OutputEntry} (hf : ∀ e, OutputEntry.Later n e (f e))
    (l : List OutputEntry) (i : Nat) : Grown n block l (l.modify i f) := by
  induction l generalizing i with
  | nil => cases i <;> exact .refl n block []
  | cons e l ih =>
    cases i with
    | zero => exact .cons (hf e) (.refl n block l)
    | succ i => exact .cons (.refl n e) (ih i)

/-- Entries keep their places. -/
theorem getElem? (h : Grown n block l l') (he : l[i]? = some e) :
    ∃ e', l'[i]? = some e' ∧ e.Later n e' := by
  induction h generalizing i with
  | nil => simp at he
  | @cons d d' l l' hlater _ ih =>
    cases i with
    | zero =>
      obtain rfl : d = e := by simpa using he
      exact ⟨d', rfl, hlater⟩
    | succ i => exact ih (by simpa using he)

section Test

/-! A test that later forms of an old entry pass as it does, and that the block's own entries fail,
finds the same. -/

variable {p q : OutputEntry → Bool} (hold : ∀ e ∈ l, ∀ e', OutputEntry.Later n e e' → q e' = p e)
  (hown : ∀ e, e.Own n block → q e = false)

include hold hown

theorem filter_source (h : Grown n block l l') :
    (l'.filter q).map OutputEntry.source = (l.filter p).map OutputEntry.source := by
  induction h with
  | @nil new hnew =>
    have hnone : new.filter q = [] :=
      List.filter_eq_nil_iff.2 fun e he => by simp [hown e (hnew e he)]
    simp [hnone]
  | @cons e e' l l' hlater _ ih =>
    obtain ⟨hhead, htail⟩ := List.forall_mem_cons.1 hold
    rw [List.filter_cons, List.filter_cons, hhead e' hlater]
    split
    · rw [List.map_cons, List.map_cons, hlater.source, ih htail]
    · exact ih htail

theorem findIdx? (h : Grown n block l l') : l'.findIdx? q = l.findIdx? p := by
  induction h with
  | @nil new hnew =>
    rw [List.findIdx?_nil, List.findIdx?_eq_none_iff]
    exact fun e he => hown e (hnew e he)
  | @cons e e' l l' hlater _ ih =>
    obtain ⟨hhead, htail⟩ := List.forall_mem_cons.1 hold
    rw [List.findIdx?_cons, List.findIdx?_cons, hhead e' hlater, ih htail]

end Test

end Grown

namespace OutputStore

variable {s : OutputStore} {v w : View} {tip tip' : Option Nat} {o : OutPoint} {n i : Nat}
  {block : SourceBlock}

/-- The outputs that the store shows at a tip. -/
def live (s : OutputStore) (v : View) (tip : Option Nat) : Unspent :=
  (s.entries.toList.filter (·.liveAt v tip)).map OutputEntry.source

theorem get?_eq_find? : s.get? v tip o = (s.live v tip).find? (·.outpoint == o) := by
  rw [get?, live, List.find?_map, List.find?_filter, ← Array.find?_toList]
  congr 2
  funext e
  simp only [isLive, Function.comp_apply, Bool.decide_and, Bool.decide_eq_true, Bool.and_comm]

/-- The output that an outpoint names is that of its oldest live entry. -/
theorem get?_eq_bind : s.get? v tip o = ((s.entries.toList.findIdx? (isLive v tip o)).bind
    (s.entries.toList[·]?)).map OutputEntry.source := by
  rw [get?, ← List.find?_eq_bind_findIdx?_getElem?, ← Array.find?_toList]

theorem unspentCount_eq : s.unspentCount v tip = (s.live v tip).length := by
  rw [unspentCount, live, List.length_map, ← List.countP_eq_length_filter, Array.countP_toList]

theorem live_none : s.live v none = [] := by
  rw [live, List.map_eq_nil_iff, List.filter_eq_nil_iff]
  simp [OutputEntry.liveAt]

/-! ### What a block does to the entries -/

theorem spend_toList (s : OutputStore) (v : View) (n : Nat) (o : OutPoint) :
    (s.spend v n o).entries.toList =
      match s.entries.toList.findIdx? (isLive v (some n) o) with
      | some i => s.entries.toList.modify i fun e => { e with spenders := e.spenders ++ [n] }
      | none => s.entries.toList := by
  obtain ⟨⟨l⟩⟩ := s
  simp only [spend, List.findIdx?_toArray]
  cases l.findIdx? (isLive v (some n) o) <;> simp

theorem later_spent (n : Nat) (e : OutputEntry) :
    e.Later n { e with spenders := e.spenders ++ [n] } :=
  ⟨rfl, rfl, fun _ hx => List.mem_append_left _ hx, fun x hx => by simpa using hx⟩

theorem grown_spend : Grown n block s.entries.toList (s.spend v n o).entries.toList := by
  rw [spend_toList]
  split
  · exact .modify (later_spent n) _ _
  · exact .refl n block _

theorem create_toList (s : OutputStore) (n : Nat) (block : SourceBlock) (tx : Transaction)
    (offset : Nat) :
    (s.create n block tx offset).entries.toList =
      s.entries.toList ++ (Unspent.created block tx offset).map fun source => ⟨source, n, []⟩ := by
  simp [create, Unspent.created]

theorem grown_create {tx : Transaction} {offset : Nat} :
    Grown n block s.entries.toList (s.create n block tx offset).entries.toList := by
  rw [create_toList]
  refine .append _ fun e he => ?_
  obtain ⟨source, hsource, rfl⟩ := List.mem_map.1 he
  obtain ⟨o, -, rfl⟩ := List.mem_map.1 hsource
  exact ⟨rfl, rfl, by simp⟩

section Induction

variable {P : OutputStore → Prop} (hspend : ∀ s o, P s → P (s.spend v n o))

include hspend

theorem spends_induction (os : List OutPoint) (hs : P s) :
    P (os.foldl (fun s o => s.spend v n o) s) := by
  induction os generalizing s with
  | nil => exact hs
  | cons o os ih => exact ih (hspend s o hs)

/-- A block connects its transactions by spends and creations, so what both keep, the block keeps. -/
theorem applies_induction (hcreate : ∀ s tx offset, P s → P (s.create n block tx offset))
    (ts : List (Transaction × Nat)) (hs : P s) :
    P (ts.foldl (fun s t => s.apply v n block t.1 t.2) s) := by
  induction ts generalizing s with
  | nil => exact hs
  | cons t ts ih => exact ih (hcreate _ _ _ (spends_induction hspend _ hs))

end Induction

theorem grown_spends (os : List OutPoint) : Grown n block s.entries.toList
    (os.foldl (fun s o => s.spend v n o) s).entries.toList :=
  spends_induction (P := fun s' => Grown n block s.entries.toList s'.entries.toList)
    (fun _ _ h => h.trans grown_spend) os (.refl n block _)

theorem grown_applies (ts : List (Transaction × Nat)) : Grown n block s.entries.toList
    (ts.foldl (fun s t => s.apply v n block t.1 t.2) s).entries.toList :=
  applies_induction (P := fun s' => Grown n block s.entries.toList s'.entries.toList)
    (fun _ _ h => h.trans grown_spend) (fun _ _ _ h => h.trans grown_create) ts (.refl n block _)

theorem grown_connect {txs : List Transaction} :
    Grown n block s.entries.toList (s.connect v n block txs).entries.toList := grown_applies _

/-! ### What a tip sees -/

theorem live_congr (h : ∀ e ∈ s.entries.toList, e.liveAt w tip' = e.liveAt v tip) :
    s.live w tip' = s.live v tip := by rw [live, live, List.filter_congr h]

/-- Killing the first live entry of a kind takes the first live source of that kind. -/
theorem filter_killFirst {p q : OutputEntry → Bool} {r : StakeSource → Bool}
    {f : OutputEntry → OutputEntry} (hp : ∀ e, p e = (r e.source && q e))
    (hf : ∀ e, q (f e) = false) (l : List OutputEntry) :
    ((match l.findIdx? p with
      | some i => l.modify i f
      | none => l).filter q).map OutputEntry.source =
      ((l.filter q).map OutputEntry.source).eraseP r := by
  induction l with
  | nil => rfl
  | cons e l ih =>
    have hpe := hp e
    rw [List.findIdx?_cons]
    cases hq : q e with
    | false =>
      rw [hq, Bool.and_false] at hpe
      rw [List.filter_cons_of_neg (by simp [hq]), ← ih, hpe]
      cases l.findIdx? p <;> simp [hq]
    | true =>
      rw [hq, Bool.and_true] at hpe
      rw [List.filter_cons_of_pos hq, List.map_cons, List.eraseP_cons, ← ih, hpe]
      cases r e.source with
      | true => simp [hf]
      | false => cases l.findIdx? p <;> simp [hq]

/-- Spending at the block's own tip takes the oldest live output of the outpoint. -/
theorem live_spend (hself : v.onBranch n (some n) = true) :
    (s.spend v n o).live v (some n) = Unspent.spend (s.live v (some n)) o := by
  have dead : ∀ e : OutputEntry,
      OutputEntry.liveAt v (some n) { e with spenders := e.spenders ++ [n] } = false := by
    simp [OutputEntry.liveAt, hself]
  rw [live, spend_toList]
  exact filter_killFirst (r := (·.outpoint == o)) (fun _ => rfl) dead _

theorem live_create (hself : v.onBranch n (some n) = true) {tx : Transaction} {offset : Nat} :
    (s.create n block tx offset).live v (some n) =
      s.live v (some n) ++ Unspent.created block tx offset := by
  have all : ((Unspent.created block tx offset).map fun source =>
      (⟨source, n, []⟩ : OutputEntry)).filter (·.liveAt v (some n)) =
      (Unspent.created block tx offset).map fun source => ⟨source, n, []⟩ := by
    refine List.filter_eq_self.2 fun e he => ?_
    obtain ⟨source, -, rfl⟩ := List.mem_map.1 he
    simp [OutputEntry.liveAt, hself]
  rw [live, create_toList, List.filter_append, List.map_append, all, List.map_map, live]
  simp [Function.comp_def]

/-- Connecting a block moves the view of its own tip as the plain list moves. -/
theorem live_connect (hself : v.onBranch n (some n) = true) (s : OutputStore) (block : SourceBlock)
    (txs : List Transaction) :
    (s.connect v n block txs).live v (some n) = (s.live v (some n)).connect block txs := by
  have inputs : ∀ (os : List OutPoint) (s : OutputStore),
      (os.foldl (fun s o => s.spend v n o) s).live v (some n) =
        os.foldl Unspent.spend (s.live v (some n)) := by
    intro os
    induction os with
    | nil => exact fun _ => rfl
    | cons o os ih =>
      intro s
      rw [List.foldl_cons, ih, live_spend hself, List.foldl_cons]
  rw [connect, Unspent.connect]
  induction txs.zip (transactionOffsets txs) generalizing s with
  | nil => rfl
  | cons t ts ih =>
    rw [List.foldl_cons, ih, List.foldl_cons, apply, live_create hself, inputs]
    rfl

/-- All ids of the store are below a bound. -/
def Below (n : Nat) (s : OutputStore) : Prop :=
  ∀ e ∈ s.entries.toList, e.creator < n ∧ ∀ x ∈ e.spenders, x < n

theorem Below.grown {s' : OutputStore} (hs : s.Below n)
    (hg : Grown n block s.entries.toList s'.entries.toList) : s'.Below (n + 1) := by
  intro e' he'
  rcases hg.mem he' with ⟨e, he, hlater⟩ | hown
  · obtain ⟨hcreator, hspenders⟩ := hs e he
    refine ⟨by rw [hlater.creator]; omega, fun x hx => ?_⟩
    rcases hlater.added x hx with hx | rfl
    · have := hspenders x hx
      omega
    · omega
  · exact ⟨by rw [hown.creator]; omega, fun x hx => by rw [hown.spenders x hx]; omega⟩

section Grown

variable {s' : OutputStore} (hs : s.Below n) (hn : w.onBranch n tip' = false)
  (hold : ∀ x, x < n → w.onBranch x tip' = v.onBranch x tip)

include hs hn hold

theorem Below.liveAt_later {e e' : OutputEntry} (he : e ∈ s.entries.toList)
    (hlater : e.Later n e') : e'.liveAt w tip' = e.liveAt v tip := by
  obtain ⟨hcreator, hspenders⟩ := hs e he
  exact hlater.liveAt_eq hn (hold _ hcreator) fun x hx => hold x (hspenders x hx)

/-- A tip that is not on top of block `n`, seen in a view that shows it the same old blocks, sees the
same outputs after `n` as before. -/
theorem live_grown (hg : Grown n block s.entries.toList s'.entries.toList) :
    s'.live w tip' = s.live v tip :=
  hg.filter_source (fun _ he _ hlater => hs.liveAt_later hn hold he hlater) fun e hown => by
    simp [OutputEntry.liveAt, hown.creator, hn]

/-- The oldest live output of an outpoint stays in its place. -/
theorem findIdx?_grown (hg : Grown n block s.entries.toList s'.entries.toList) :
    s'.entries.toList.findIdx? (isLive w tip' o) = s.entries.toList.findIdx? (isLive v tip o) := by
  refine hg.findIdx? (fun e he e' hlater => ?_) fun e hown => ?_
  · rw [isLive, isLive, hlater.source, hs.liveAt_later hn hold he hlater]
  · simp [isLive, OutputEntry.liveAt, hown.creator, hn]

end Grown

end OutputStore

end StakeChain
