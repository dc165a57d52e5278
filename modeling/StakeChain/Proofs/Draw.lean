import Mathlib.Algebra.Group.Nat.Defs
import Mathlib.Data.Finset.Card
import Mathlib.Data.Prod.Lex
import StakeChain.Proofs.Schedule
/-!
What a draw draws. Each round takes one of the blocks left in the window: of those whose time the round has
reached the one with the least score, and where it has reached none of them the earliest. Blocks of one score
go by time, blocks of one time by their hashes, so in a window with distinct hashes the winners are settled by
what the window holds, in whatever order it is held.
-/

namespace StakeChain

namespace Position

/-- The place of a block among others: by time, and at one time by the bytes of the hash. -/
def place (b : Position) : Nat ×ₗ Nat := toLex (b.time.toNat, b.hash.rank)

/-- What a round compares: the score, and between blocks of one score their places. -/
def key (m : UInt64) (b : Position) : Nat ×ₗ Nat ×ₗ Nat := toLex (drawScore b m, b.place)

/-- A round that ends at `stop` has reached the block. -/
def InTime (stop : Int) (b : Position) : Prop := (b.time.toNat : Int) ≤ stop

theorem place_le_iff {a b : Position} : a.place ≤ b.place ↔
    a.time < b.time ∨ a.time = b.time ∧ a.hash.rank ≤ b.hash.rank := by
  rw [place, place, Prod.Lex.toLex_le_toLex, UInt32.lt_iff_toNat_lt, UInt32.toNat_inj]

theorem hash_eq_of_place {a b : Position} (h : a.place = b.place) : a.hash = b.hash :=
  Hash.rank_injective (congrArg (fun place => (ofLex place).2) h)

theorem place_eq_of_key {m : UInt64} {a b : Position} (h : a.key m = b.key m) : a.place = b.place :=
  congrArg (fun key => (ofLex key).2) h

theorem InTime.of_place {a b : Position} {stop : Int} (hb : b.InTime stop) (h : a.place ≤ b.place) :
    a.InTime stop := by
  have hle : a.time.toNat ≤ b.time.toNat := by
    rcases place_le_iff.1 h with hlt | ⟨heq, -⟩
    · exact Nat.le_of_lt hlt
    · exact Nat.le_of_eq (congrArg UInt32.toNat heq)
  exact Int.le_trans (Int.ofNat_le.2 hle) hb

end Position

/-- The winner of a round among the blocks left, for scores under the modifier `m`. -/
inductive RoundWinner (m : UInt64) (left : Finset Position) (stop : Int) (w : Position) : Prop where
  /-- Of the blocks that the round has reached it is the one with the least key. -/
  | reached : w ∈ left → w.InTime stop → (∀ b ∈ left, b.InTime stop → w.key m ≤ b.key m) →
      RoundWinner m left stop w
  /-- The round has reached no block, and it is the first in place. -/
  | earliest : w ∈ left → (∀ b ∈ left, ¬ b.InTime stop) → (∀ b ∈ left, w.place ≤ b.place) →
      RoundWinner m left stop w

/-- The winners of a draw of at most `rounds` rounds from a window, where round `r` ends at `stop r`. -/
structure Drawn (m : UInt64) (stop : Nat → Int) (rounds : Nat) (window : Finset Position)
    (winners : List Position) : Prop where
  length : winners.length = min rounds window.card
  nodup : winners.Nodup
  wins : ∀ r w, winners[r]? = some w →
    RoundWinner m (window \ (winners.take r).toFinset) (stop r) w

/-- The blocks met on the walk back from an id for as long as they are at or after `start`. -/
inductive View.InWindow (v : View) (start : Int) : Nat → Position → Prop where
  | here {id : Nat} {b : Position} : v.position id = some b → start ≤ (b.time.toNat : Int) →
      InWindow v start id b
  | behind {id prev : Nat} {a b : Position} : v.position id = some a → start ≤ (a.time.toNat : Int) →
      a.prev = some prev → InWindow v start prev b → InWindow v start id b

/-- Links lead to earlier ids, and no hash has two positions. -/
structure ChainIndex.WellFormed (ix : ChainIndex) : Prop where
  descends : ∀ {id b prev}, ix.view.position id = some b → b.prev = some prev → prev < id
  distinct : ∀ {i j b c}, ix.view.position i = some b → ix.view.position j = some c →
    b.hash = c.hash → i = j

namespace Parameters

/-- The time at which the window of a draw after `tip` begins. -/
def windowStart (p : Parameters) (tip : Position) : Int :=
  (p.intervalOf tip.time * p.modifierInterval.toNat : Nat) - (p.selectionInterval : Int)

/-- The time at which round `r` of the draw ends, when the sections up to its own have passed. -/
def roundStop (p : Parameters) (tip : Position) (r : Nat) : Int :=
  p.windowStart tip + sectionsLength p.modifierInterval.toNat (r + 1)

end Parameters

/-! ### Draws from a window -/

section

variable {m : UInt64} {stop : Nat → Int} {rounds : Nat} {left window : Finset Position}
  {w b : Position} {ws : List Position} {t : Int}

theorem RoundWinner.mem (h : RoundWinner m left t w) : w ∈ left := by
  cases h <;> assumption

/-- A round has one winner. -/
theorem RoundWinner.unique (hhash : Set.InjOn Position.hash left) (hw : RoundWinner m left t w)
    (hb : RoundWinner m left t b) : w = b := by
  have hmem := hw.mem
  have hmem' := hb.mem
  suffices hplace : w.place = b.place from hhash hmem hmem' (Position.hash_eq_of_place hplace)
  rcases hw with ⟨-, htime, hleast⟩ | ⟨-, hlate, hleast⟩
  · rcases hb with ⟨-, htime', hleast'⟩ | ⟨-, hlate', -⟩
    · exact Position.place_eq_of_key (le_antisymm (hleast b hmem' htime') (hleast' w hmem htime))
    · exact absurd htime (hlate' w hmem)
  · rcases hb with ⟨-, htime', -⟩ | ⟨-, -, hleast'⟩
    · exact absurd htime' (hlate b hmem')
    · exact le_antisymm (hleast b hmem') (hleast' w hmem)

theorem Drawn.mem (h : Drawn m stop rounds window ws) (hw : w ∈ ws) : w ∈ window := by
  obtain ⟨r, hr⟩ := List.mem_iff_getElem?.1 hw
  exact (Finset.mem_sdiff.1 (h.wins r w hr).mem).1

theorem drawn_zero : Drawn m stop 0 window [] where
  length := by simp
  nodup := List.nodup_nil
  wins := by simp

theorem drawn_empty : Drawn m stop rounds ∅ [] where
  length := by simp
  nodup := List.nodup_nil
  wins := by simp

/-- A first round, and then a draw from what it leaves. -/
theorem Drawn.cons (hw : RoundWinner m window (stop 0) w)
    (h : Drawn m (fun r => stop (r + 1)) rounds (window.erase w) ws) :
    Drawn m stop (rounds + 1) window (w :: ws) where
  length := by
    have hcard := Finset.card_erase_add_one hw.mem
    rw [List.length_cons, h.length]
    omega
  nodup := List.nodup_cons.2 ⟨fun hmem => Finset.notMem_erase w window (h.mem hmem), h.nodup⟩
  wins := by
    intro r b hb
    cases r with
    | zero =>
      obtain rfl : w = b := by simpa using hb
      simpa using hw
    | succ r =>
      rw [List.take_succ_cons, List.toFinset_cons, Finset.sdiff_insert, ← Finset.erase_sdiff_comm]
      exact h.wins r b (by simpa using hb)

/-- From a window with distinct hashes one list of winners is drawn. -/
theorem Drawn.unique {ws' : List Position} (hhash : Set.InjOn Position.hash window)
    (h : Drawn m stop rounds window ws) (h' : Drawn m stop rounds window ws') : ws = ws' := by
  have hlength : ws.length = ws'.length := h.length.trans h'.length.symm
  have htake : ∀ r, ws.take r = ws'.take r := by
    intro r
    induction r with
    | zero => rfl
    | succ r ih =>
      have hround : ws[r]? = ws'[r]? := by
        by_cases hr : r < ws.length
        · have hw := h.wins r _ (List.getElem?_eq_getElem hr)
          have hw' := h'.wins r _ (List.getElem?_eq_getElem (hlength ▸ hr))
          rw [ih] at hw
          rw [List.getElem?_eq_getElem hr, List.getElem?_eq_getElem (hlength ▸ hr)]
          exact congrArg some (hw.unique (hhash.mono (by simp)) hw')
        · rw [List.getElem?_eq_none (Nat.not_lt.1 hr),
            List.getElem?_eq_none (hlength ▸ Nat.not_lt.1 hr)]
      rw [List.take_add_one, List.take_add_one, ih, hround]
  have hall := htake ws.length
  rwa [List.take_length, hlength, List.take_length] at hall

end

/-! ### Rounds among candidates -/

namespace Candidate

variable {m : UInt64} {cs : List Candidate} {c w first : Candidate} {rest : List Candidate} {stop : Int}

/-- The blocks of candidates. -/
def blocks (cs : List Candidate) : Finset Position := (cs.map Candidate.block).toFinset

/-- What a round compares. -/
def key (c : Candidate) : Nat ×ₗ Nat ×ₗ Nat := toLex (c.score, c.block.place)

/-- Candidates as every round finds them: with the scores under `m`, in place, of distinct hashes. -/
structure Ready (m : UInt64) (cs : List Candidate) : Prop where
  scored : ∀ c ∈ cs, c.score = drawScore c.block m
  ordered : cs.Pairwise fun a b => a.block.place ≤ b.block.place
  distinct : (cs.map fun c => c.block.hash).Nodup

theorem mem_blocks {b : Position} : b ∈ blocks cs ↔ ∃ c ∈ cs, c.block = b := by simp [blocks]

theorem block_mem_blocks (hc : c ∈ cs) : c.block ∈ blocks cs := mem_blocks.2 ⟨c, hc, rfl⟩

theorem forall_mem_blocks {P : Position → Prop} :
    (∀ b ∈ blocks cs, P b) ↔ ∀ c ∈ cs, P c.block := by simp [blocks]

theorem lowest_cons : lowest first (c :: rest) =
    lowest (if c.score < first.score then c else first) rest := rfl

theorem lowest_mem : lowest first rest ∈ first :: rest := by
  induction rest generalizing first with
  | nil => exact List.mem_cons_self
  | cons c rest ih =>
    by_cases hlt : c.score < first.score
    · rw [lowest_cons, if_pos hlt]
      exact List.mem_cons_of_mem _ ih
    · rw [lowest_cons, if_neg hlt]
      have hkept : lowest first rest ∈ first :: rest := ih
      rcases List.mem_cons.1 hkept with heq | hmem
      · rw [heq]
        exact List.mem_cons_self
      · exact List.mem_cons_of_mem _ (List.mem_cons_of_mem _ hmem)

/-- Of candidates in place, the first with the lowest score has the least key. -/
theorem lowest_le (h : (first :: rest).Pairwise fun a b => a.block.place ≤ b.block.place) :
    ∀ c ∈ first :: rest, (lowest first rest).key ≤ c.key := by
  induction rest generalizing first with
  | nil =>
    intro c hc
    obtain rfl := List.mem_singleton.1 hc
    exact le_refl _
  | cons a rest ih =>
    obtain ⟨hfirst, htail⟩ := List.pairwise_cons.1 h
    intro c hc
    by_cases hlt : a.score < first.score
    · have hleast := ih htail
      have hkey : a.key ≤ first.key := Prod.Lex.toLex_le_toLex.2 (.inl hlt)
      rw [lowest_cons, if_pos hlt]
      rcases List.mem_cons.1 hc with rfl | hc
      · exact (hleast a List.mem_cons_self).trans hkey
      · exact hleast c hc
    · have hleast := ih (List.pairwise_cons.2
        ⟨fun b hb => hfirst b (List.mem_cons_of_mem _ hb), (List.pairwise_cons.1 htail).2⟩)
      have hkey : first.key ≤ a.key := Prod.Lex.toLex_le_toLex.2 <|
        (Nat.lt_or_eq_of_le (Nat.not_lt.1 hlt)).imp_right fun heq => ⟨heq, hfirst a List.mem_cons_self⟩
      rw [lowest_cons, if_neg hlt]
      rcases List.mem_cons.1 hc with rfl | hc
      · exact hleast c List.mem_cons_self
      · rcases List.mem_cons.1 hc with rfl | hc
        · exact (hleast first List.mem_cons_self).trans hkey
        · exact hleast c (List.mem_cons_of_mem _ hc)

/-- Of candidates in place, those that a round has reached come first. -/
theorem mem_takeWhile_inTime (h : cs.Pairwise fun a b => a.block.place ≤ b.block.place) :
    c ∈ cs.takeWhile (fun c => (c.block.time.toNat : Int) ≤ stop) ↔ c ∈ cs ∧ c.block.InTime stop := by
  have hearlier : cs.Pairwise fun a b => decide ((b.block.time.toNat : Int) ≤ stop) = true →
      decide ((a.block.time.toNat : Int) ≤ stop) = true := by
    refine h.imp fun hplace htime => ?_
    rw [decide_eq_true_eq] at htime ⊢
    exact Position.InTime.of_place htime hplace
  rw [mem_takeWhile_of_pairwise hearlier, decide_eq_true_eq, Position.InTime]

theorem Ready.key_eq (h : Ready m cs) (hc : c ∈ cs) : c.key = c.block.key m := by
  rw [key, Position.key, h.scored c hc]

/-- What a round takes wins it. -/
theorem Ready.roundWinner (h : Ready m cs) (hw : winner? stop cs = some w) :
    w ∈ cs ∧ RoundWinner m (blocks cs) stop w.block := by
  cases cs with
  | nil => simp [winner?] at hw
  | cons first rest =>
    obtain ⟨hfirst, htail⟩ := List.pairwise_cons.1 h.ordered
    have hsub : (first :: rest.takeWhile fun c => (c.block.time.toNat : Int) ≤ stop).Sublist
        (first :: rest) := (List.takeWhile_sublist _).cons_cons _
    have hmem := hsub.subset lowest_mem
    obtain rfl := Option.some.inj hw
    refine ⟨hmem, ?_⟩
    by_cases hreached : first.block.InTime stop
    · refine .reached (block_mem_blocks hmem) ?_ (forall_mem_blocks.2 fun c hc htime => ?_)
      · rcases List.mem_cons.1 lowest_mem with heq | hlater
        · rwa [heq]
        · exact ((mem_takeWhile_inTime htail).1 hlater).2
      · rw [← h.key_eq hmem, ← h.key_eq hc]
        refine lowest_le (h.ordered.sublist hsub) c (List.mem_cons.2 ?_)
        exact (List.mem_cons.1 hc).imp_right fun hc => (mem_takeWhile_inTime htail).2 ⟨hc, htime⟩
    · have hplace : ∀ c ∈ first :: rest, first.block.place ≤ c.block.place :=
        List.forall_mem_cons.2 ⟨le_refl _, hfirst⟩
      have hlate : ∀ c ∈ first :: rest, ¬ c.block.InTime stop := fun c hc htime =>
        hreached (htime.of_place (hplace c hc))
      -- Not even the first is in time, and so it stands alone.
      have halone : (rest.takeWhile fun c => (c.block.time.toNat : Int) ≤ stop) = [] := by
        refine List.eq_nil_iff_forall_not_mem.2 fun c hc => ?_
        obtain ⟨hc, htime⟩ := (mem_takeWhile_inTime htail).1 hc
        exact hlate c (List.mem_cons_of_mem _ hc) htime
      rw [halone] at hmem ⊢
      exact .earliest (block_mem_blocks hmem) (forall_mem_blocks.2 hlate) (forall_mem_blocks.2 hplace)

theorem Ready.filter (h : Ready m cs) (q : Candidate → Bool) : Ready m (cs.filter q) where
  scored c hc := h.scored c (List.mem_of_mem_filter hc)
  ordered := h.ordered.sublist List.filter_sublist
  distinct := h.distinct.sublist (List.filter_sublist.map _)

/-- Without the hash of a candidate there are all the blocks but that candidate's. -/
theorem Ready.blocks_filter (h : Ready m cs) (hw : w ∈ cs) :
    blocks (cs.filter fun c => c.block.hash != w.block.hash) = (blocks cs).erase w.block := by
  ext b
  rw [Finset.mem_erase, mem_blocks, mem_blocks]
  constructor
  · rintro ⟨c, hc, rfl⟩
    obtain ⟨hc, hhash⟩ := List.mem_filter.1 hc
    exact ⟨fun heq => by simp [heq] at hhash, c, hc, rfl⟩
  · rintro ⟨hne, c, hc, rfl⟩
    refine ⟨c, List.mem_filter.2 ⟨hc, bne_iff_ne.2 fun hhash => hne ?_⟩, rfl⟩
    exact congrArg block (List.inj_on_of_nodup_map h.distinct hc hw hhash)

/-- The sections up to a round's own end where the next begins. -/
theorem add_selectionSection (p : Parameters) (start : Int) (round : Nat) :
    start + sectionsLength p.modifierInterval.toNat round + p.selectionSection round =
      start + sectionsLength p.modifierInterval.toNat (round + 1) := by
  rw [sectionsLength, Parameters.selectionSection]
  omega

/-- The winners of the rounds from `round` on are drawn from the blocks of the candidates. -/
theorem Ready.drawn (p : Parameters) (start : Int) (h : Ready m cs) (left round : Nat) :
    Drawn m (fun r => start + sectionsLength p.modifierInterval.toNat (round + r + 1)) left (blocks cs)
      (winners p left round (start + sectionsLength p.modifierInterval.toNat round) cs) := by
  induction left generalizing round cs with
  | zero => exact drawn_zero
  | succ left ih =>
    rw [winners]
    simp only [add_selectionSection]
    cases hw : winner? (start + sectionsLength p.modifierInterval.toNat (round + 1)) cs with
    | none =>
      cases cs with
      | nil => exact drawn_empty
      | cons first rest => simp [winner?] at hw
    | some w =>
      obtain ⟨hmem, hround⟩ := h.roundWinner hw
      have hrest := ih (h.filter fun c => c.block.hash != w.block.hash) (round + 1)
      rw [h.blocks_filter hmem] at hrest
      refine .cons hround ?_
      simpa only [Nat.add_assoc, Nat.add_comm, Nat.add_left_comm] using hrest

theorem le_iff {a b : Candidate} : le a b = true ↔ a.block.place ≤ b.block.place := by
  simp [le, Position.place_le_iff]

theorem ofWindow_perm (bs : List Position) (m : UInt64) :
    (ofWindow bs m).Perm (bs.map fun b => ⟨b, drawScore b m⟩) := List.mergeSort_perm _ _

theorem blocks_ofWindow (bs : List Position) (m : UInt64) : blocks (ofWindow bs m) = bs.toFinset := by
  have hperm := (ofWindow_perm bs m).map Candidate.block
  rw [List.map_map] at hperm
  rw [blocks, List.toFinset_eq_of_perm _ _ hperm]
  simp [Function.comp_def]

theorem pairwise_ofWindow (bs : List Position) (m : UInt64) :
    (ofWindow bs m).Pairwise fun a b => a.block.place ≤ b.block.place := by
  refine (List.pairwise_mergeSort (fun a b c hab hbc => ?_) (fun a b => ?_) _).imp le_iff.1
  · exact le_iff.2 ((le_iff.1 hab).trans (le_iff.1 hbc))
  · rw [Bool.or_eq_true, le_iff, le_iff]
    exact le_total _ _

theorem ready_ofWindow {bs : List Position} (hnodup : bs.Nodup)
    (hhash : Set.InjOn Position.hash (bs.toFinset : Set Position)) (m : UInt64) :
    Ready m (ofWindow bs m) where
  scored := by
    intro c hc
    obtain ⟨b, -, rfl⟩ := List.mem_map.1 ((ofWindow_perm bs m).mem_iff.1 hc)
    rfl
  ordered := pairwise_ofWindow bs m
  distinct := by
    refine ((ofWindow_perm bs m).map fun c => c.block.hash).nodup_iff.2 ?_
    rw [List.map_map]
    exact (List.nodup_map_iff_inj_on hnodup).2 fun a ha b hb => hhash (by simpa using ha) (by simpa using hb)

/-- The winners of a draw are drawn from the blocks of its window. -/
theorem drawn_winners (p : Parameters) (m : UInt64) (start : Int) {bs : List Position} (hnodup : bs.Nodup)
    (hhash : Set.InjOn Position.hash (bs.toFinset : Set Position)) (rounds : Nat) :
    Drawn m (fun r => start + sectionsLength p.modifierInterval.toNat (r + 1)) rounds bs.toFinset
      (winners p rounds 0 start (ofWindow bs m)) := by
  have hdrawn := (ready_ofWindow hnodup hhash m).drawn p start rounds 0
  simpa [blocks_ofWindow, sectionsLength] using hdrawn

theorem length_winners_le (p : Parameters) (left round : Nat) (stop : Int) (cs : List Candidate) :
    (winners p left round stop cs).length ≤ left := by
  induction left generalizing round stop cs with
  | zero => exact Nat.le_refl 0
  | succ left ih =>
    rw [winners]
    split
    · exact Nat.zero_le _
    · exact Nat.succ_le_succ (ih _ _ _)

end Candidate

/-! ### The bits of a modifier -/

theorem testBit_entropyWord (bs : List Position) (r : Nat) :
    (entropyWord bs).testBit r = bs[r]?.any (·.flags.entropy) := by
  induction bs generalizing r with
  | nil => simp [entropyWord]
  | cons b bs ih =>
    cases r with
    | zero => cases hb : b.flags.entropy <;> simp [entropyWord, Nat.testBit_zero, hb]
    | succ r =>
      have hhalf : (b.flags.entropy.toNat + 2 * entropyWord bs) / 2 = entropyWord bs := by
        have := b.flags.entropy.toNat_lt
        omega
      rw [entropyWord, Nat.testBit_succ, hhalf, ih, List.getElem?_cons_succ]

theorem entropyWord_lt (bs : List Position) : entropyWord bs < 2 ^ bs.length := by
  induction bs with
  | nil => simp [entropyWord]
  | cons b bs ih =>
    have := b.flags.entropy.toNat_lt
    rw [entropyWord, List.length_cons, Nat.pow_succ]
    omega

/-- A modifier has the entropy bits of the winners and above them zeros. -/
theorem testBit_drawModifier (p : Parameters) (m : UInt64) (start : Int) (bs : List Position) (r : Nat) :
    (drawModifier p m start bs).toNat.testBit r =
      (Candidate.winners p modifierRounds 0 start (Candidate.ofWindow bs m))[r]?.any
        (·.flags.entropy) := by
  have hlength := Candidate.length_winners_le p modifierRounds 0 start (Candidate.ofWindow bs m)
  have hfits : entropyWord (Candidate.winners p modifierRounds 0 start (Candidate.ofWindow bs m)) < 2 ^ 64 :=
    Nat.lt_of_lt_of_le (entropyWord_lt _) (Nat.pow_le_pow_right Nat.two_pos hlength)
  rw [drawModifier, UInt64.toNat_ofNat', Nat.mod_eq_of_lt hfits, testBit_entropyWord]

/-! ### The window of a draw -/

namespace View

variable {v : View} {start : Int} {id : Nat} {a b : Position}

theorem inWindow_iff (ha : v.position id = some a) : v.InWindow start id b ↔
    start ≤ (a.time.toNat : Int) ∧ (b = a ∨ ∃ prev ∈ a.prev, v.InWindow start prev b) := by
  constructor
  · rintro (⟨hb, hlate⟩ | ⟨hc, hlate, hprev, hbehind⟩)
    · obtain rfl : b = a := by simpa [hb] using ha
      exact ⟨hlate, .inl rfl⟩
    · obtain rfl := Option.some.inj (hc.symm.trans ha)
      exact ⟨hlate, .inr ⟨_, hprev, hbehind⟩⟩
  · rintro ⟨hlate, rfl | ⟨prev, hprev, hbehind⟩⟩
    · exact .here ha hlate
    · exact .behind ha hlate hprev hbehind

/-- What the walk back takes is the window. -/
theorem Ordered.mem_takeWhile_iff (ho : v.Ordered) : ∀ tip, v.Indexed tip →
    (b ∈ (v.branch tip).takeWhile (fun c => start ≤ (c.time.toNat : Int)) ↔
      ∃ id ∈ tip, v.InWindow start id b) := by
  refine ho.tip_induction (by simp) ?_
  intro id a ha ih
  simp only [Option.mem_def, Option.some.injEq, exists_eq_left']
  rw [ho.branch_some ha, inWindow_iff ha]
  by_cases hlate : start ≤ (a.time.toNat : Int)
  · rw [List.takeWhile_cons_of_pos (by simpa using hlate), List.mem_cons, ih]
    simp [hlate]
  · rw [List.takeWhile_cons_of_neg (by simpa using hlate)]
    simp [hlate]

end View

namespace ChainIndex

variable {ix : ChainIndex}

theorem WellFormed.ordered (h : ix.WellFormed) : ix.view.Ordered where
  descends := h.descends
  found hb hprev := exists_position (Nat.lt_trans (h.descends hb hprev) (View.position_lt_size hb))

/-- An index made by insertions is well-formed. -/
theorem Sound.wellFormed (h : ix.Sound) : ix.WellFormed := ⟨h.linked.descends, h.linked.distinct⟩

theorem WellFormed.nodup_hashes (h : ix.WellFormed) : ∀ tip, ix.view.Indexed tip →
    ((ix.view.branch tip).map Position.hash).Nodup := by
  refine h.ordered.tip_induction (by simp) ?_
  intro id b hb ih
  rw [h.ordered.branch_some hb, List.map_cons, List.nodup_cons]
  refine ⟨fun hmem => ?_, ih⟩
  obtain ⟨c, hc, hhash⟩ := List.mem_map.1 hmem
  obtain ⟨i, hi, hle⟩ := h.ordered.exists_position (h.ordered.indexed_prev hb) hc
  obtain rfl := h.distinct hi hb hhash
  cases hprev : b.prev with
  | none => simp [hprev] at hc
  | some prev => exact Nat.not_lt.2 (hle prev hprev) (h.descends hb hprev)

end ChainIndex

/-- The block before a draw is in its window. -/
theorem Parameters.windowStart_le (p : Parameters) (tip : Position) :
    p.windowStart tip ≤ (tip.time.toNat : Int) := by
  have hle : p.intervalOf tip.time * p.modifierInterval.toNat ≤ tip.time.toNat := Nat.div_mul_le_self _ _
  rw [windowStart]
  omega

/-- In a well-formed index, when the block at `prev` lies in a later interval than the last generation, a new
modifier is drawn: the winners of its rounds are settled by the blocks in its window, whatever order these are
given in, there are as many as the window has blocks, up to sixty-four, and their entropy bits are the bits of
the modifier. -/
theorem modifier_drawn {ix : ChainIndex} (hix : ix.WellFormed) {p : Parameters}
    (hp : 0 < p.modifierInterval) {prev id : Nat} {tip g : Position}
    (htip : ix.view.position prev = some tip) (hg : ix.view.LastGeneration prev id g)
    (hlater : p.intervalOf g.time < p.intervalOf tip.time) :
    ∃ (window : Finset Position) (winners : List Position) (modifier : UInt64),
      (∀ b, b ∈ window ↔ ix.view.InWindow (p.windowStart tip) prev b) ∧
      ix.view.nextModifier p (some prev) = .ok ⟨modifier, true⟩ ∧
      Drawn g.stakeModifier (p.roundStop tip) modifierRounds window winners ∧
      (∀ ws, Drawn g.stakeModifier (p.roundStop tip) modifierRounds window ws → ws = winners) ∧
      1 ≤ winners.length ∧
      (∀ r, modifier.toNat.testBit r = winners[r]?.any (·.flags.entropy)) ∧
      ∀ bs : List Position, bs.Nodup → bs.toFinset = window →
        Candidate.winners p modifierRounds 0 (p.windowStart tip)
          (Candidate.ofWindow bs g.stakeModifier) = winners ∧
        drawModifier p g.stakeModifier (p.windowStart tip) bs = modifier := by
  have ho := hix.ordered
  have hindexed := View.indexed_some.2 ⟨tip, htip⟩
  let walk := (ix.view.branch (some prev)).takeWhile fun c => p.windowStart tip ≤ (c.time.toNat : Int)
  have hwindow : ∀ b, b ∈ walk.toFinset ↔ ix.view.InWindow (p.windowStart tip) prev b := by
    intro b
    rw [List.mem_toFinset, ho.mem_takeWhile_iff _ hindexed]
    simp
  have hhashes : (walk.map Position.hash).Nodup :=
    (hix.nodup_hashes _ hindexed).sublist ((List.takeWhile_sublist _).map _)
  have hhash : Set.InjOn Position.hash (walk.toFinset : Set Position) := fun a ha b hb hab =>
    List.inj_on_of_nodup_map hhashes (by simpa using ha) (by simpa using hb) hab
  have hdrawn : ∀ bs : List Position, bs.Nodup → bs.toFinset = walk.toFinset →
      Drawn g.stakeModifier (p.roundStop tip) modifierRounds walk.toFinset
        (Candidate.winners p modifierRounds 0 (p.windowStart tip)
          (Candidate.ofWindow bs g.stakeModifier)) := by
    intro bs hnodup hset
    rw [← hset] at hhash ⊢
    exact Candidate.drawn_winners p g.stakeModifier (p.windowStart tip) hnodup hhash modifierRounds
  have hreverse := hdrawn walk.reverse (List.nodup_reverse.2 hhashes.of_map) (List.toFinset_reverse)
  refine ⟨walk.toFinset, _, drawModifier p g.stakeModifier (p.windowStart tip) walk.reverse, hwindow, ?_,
    hreverse, fun ws hws => hws.unique hhash hreverse, ?_, testBit_drawModifier _ _ _ _, ?_⟩
  · have hne : p.modifierInterval ≠ 0 := by
      rintro hzero
      simp [hzero] at hp
    rw [ho.nextModifier_eq htip (hg.find? ho), if_neg hne, if_neg (Nat.not_le.2 hlater)]
    rfl
  · have hmem : tip ∈ walk.toFinset := (hwindow tip).2 (.here htip (p.windowStart_le tip))
    have hcard := Finset.card_pos.2 ⟨tip, hmem⟩
    rw [hreverse.length, modifierRounds]
    omega
  · intro bs hnodup hset
    have hsame := (hdrawn bs hnodup hset).unique hhash hreverse
    exact ⟨hsame, by simp only [drawModifier, hsame]⟩

namespace SmallChain

/-- A block many modifier intervals after the first. -/
def early : CandidateBlock := after 21 1600003460 []

/-- A block at the time of the block before it. -/
def level : CandidateBlock := { after 24 1600003460 [] with prevHash := some early.hash }

/-- A block so much later that the window of a draw after it begins just before these two. -/
def due : CandidateBlock := { after 23 1600005540 [] with prevHash := some level.hash }

end SmallChain

open SmallChain in
/-- Three blocks are in the window, two of them at one time, and each wins a round. -/
theorem modifier_drawn_level : ∃ (tip g : Position) (window : Finset Position) (winners : List Position)
      (modifier : UInt64),
    (Run.of parameters [first, early, level, due]).state.index.view.position 3 = some tip ∧
      (∀ b, b ∈ window ↔ (Run.of parameters [first, early, level, due]).state.index.view.InWindow
        (parameters.windowStart tip) 3 b) ∧
      (Run.of parameters [first, early, level, due]).state.index.view.nextModifier parameters (some 3) =
        .ok ⟨modifier, true⟩ ∧
      Drawn g.stakeModifier (parameters.roundStop tip) modifierRounds window winners ∧
      winners.length = 3 ∧
      ∀ r, modifier.toNat.testBit r = winners[r]?.any (·.flags.entropy) := by
  have hplaces : (Run.of parameters [first, early, level, due]).state.index.positions.map
      (fun b => (b.prev, b.time, b.flags.generated)) =
        #[(none, first.time, true), (some 0, early.time, false), (some 1, level.time, true),
          (some 2, due.time, false)] := by decide +kernel
  have hhashes : (((Run.of parameters [first, early, level, due]).state.index.view.branch
      (some 3)).takeWhile fun c => 1600003453 ≤ (c.time.toNat : Int)).map Position.hash =
        [due.hash, level.hash, early.hash] := by decide +kernel
  have hsound := (Run.reached_of parameters [first, early, level, due]).faithful.sound.index
  obtain ⟨g, hg, hgfacts⟩ := ChainIndex.exists_of_map hplaces 2 rfl
  obtain ⟨tip, htip, htipfacts⟩ := ChainIndex.exists_of_map hplaces 3 rfl
  obtain ⟨-, hgtime, hgenerated⟩ : g.prev = some 1 ∧ g.time = level.time ∧ g.flags.generated = true := by
    simpa using hgfacts
  obtain ⟨hprev, htime, hquiet⟩ : tip.prev = some 2 ∧ tip.time = due.time ∧
      tip.flags.generated = false := by simpa using htipfacts
  have hlast : (Run.of parameters [first, early, level, due]).state.index.view.LastGeneration 3 2 g := by
    refine ⟨.single ⟨tip, htip, hprev⟩, hg, hgenerated, fun k c hk hk3 hc => ?_⟩
    have hbehind := hsound.linked.lt_of_ahead hk
    rcases Relation.reflTransGen_iff_eq_or_transGen.1 hk3 with rfl | hk3
    · obtain rfl : tip = c := by simpa [htip] using hc
      exact hquiet
    · have hahead := hsound.linked.lt_of_ahead hk3
      omega
  have hlater : parameters.intervalOf g.time < parameters.intervalOf tip.time := by
    rw [hgtime, htime]
    decide
  have hstart : parameters.windowStart tip = 1600003453 := by
    rw [Parameters.windowStart, htime]
    decide
  obtain ⟨window, winners, modifier, hwindow, hnext, hdrawn, -, -, hbits, -⟩ :=
    modifier_drawn hsound.wellFormed (show 0 < parameters.modifierInterval by decide) htip hlast hlater
  refine ⟨tip, g, window, winners, modifier, htip, hwindow, hnext, hdrawn, ?_, hbits⟩
  have hset : window = (((Run.of parameters [first, early, level, due]).state.index.view.branch
      (some 3)).takeWhile fun c => 1600003453 ≤ (c.time.toNat : Int)).toFinset := by
    ext b
    rw [hwindow, hstart, List.mem_toFinset,
      hsound.linked.ordered.mem_takeWhile_iff _ (View.indexed_some.2 ⟨tip, htip⟩)]
    simp
  rw [hdrawn.length, hset, List.toFinset_card_of_nodup, ← List.length_map Position.hash, hhashes]
  · rfl
  · refine .of_map Position.hash ?_
    rw [hhashes]
    decide

end StakeChain
