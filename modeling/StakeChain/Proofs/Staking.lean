import StakeChain.Proofs.Gates
import StakeChain.Proofs.Spending
/-!
Every proof-of-stake position carries a valid proof. The output that a coinstake's check resolves
behind its block is the very entry that connecting the block marks as spent, and it stays so: no later
block changes which entry is resolved there, and no mark is taken away. So an entry is never the
kernel of two positions on one branch.
-/

namespace StakeChain

/-! ### What a coinstake has passed -/

theorem Transaction.kernelInput?_eq_some {tx : Transaction} {o : OutPoint}
    (h : tx.kernelInput? = some o) : o.isNull = false ∧ ∃ os, tx.inputs = o :: os := by
  unfold kernelInput? at h
  split at h
  · rename_i kernel os _ _ _ hinputs _
    split at h
    · rename_i hok
      obtain rfl := Option.some.inj h
      exact ⟨by simpa using (Bool.and_eq_true_iff.1 hok).1, os, hinputs⟩
    · simp at h
  · simp at h

/-- A coinstake is the second transaction, and its first input is its kernel. -/
theorem CandidateBlock.coinstake?_eq_some {b : CandidateBlock} {tx : Transaction}
    (h : b.coinstake? = some tx) : (∃ first rest, b.transactions = first :: tx :: rest) ∧
      ∃ o, tx.kernelInput? = some o := by
  obtain ⟨htx, hstake⟩ := Option.filter_eq_some_iff.1 h
  refine ⟨?_, Option.isSome_iff_exists.1 hstake⟩
  match hb : b.transactions with
  | [] => simp [hb] at htx
  | [_] => simp [hb] at htx
  | first :: second :: rest =>
    obtain rfl : second = tx := by simpa [hb] using htx
    exact ⟨first, rest, rfl⟩

/-- The time of a stored coinstake; without a time of its own it has the block's. -/
def StoredCoinstake.timeIn (k : StoredCoinstake) (b : Position) : UInt32 := k.tx.time.getD b.time

namespace ChainState

variable {s : ChainState} {b : CandidateBlock} {prev : Option Nat} {position : Position}
  {derived : ValidatedBlock}

/-- Entry `i` is the one that a stored coinstake found for its kernel behind its block, and the block
is marked as one that spent it. -/
structure Marked (s : ChainState) (k : StoredCoinstake) (b : Position) (o : OutPoint) (i : Nat)
    (e : OutputEntry) : Prop where
  found : s.index.view.position k.id = some b
  input : k.tx.kernelInput? = some o
  oldest : s.outputs.entries.toList.findIdx? (OutputStore.isLive s.index.view b.prev o) = some i
  entry : s.outputs.entries.toList[i]? = some e
  spent : k.id ∈ e.spenders

/-- A marked entry is the outpoint's, and live behind the block. -/
theorem Marked.live {k : StoredCoinstake} {c : Position} {o : OutPoint} {i : Nat} {e : OutputEntry}
    (h : s.Marked k c o i e) :
    e.source.outpoint = o ∧ e.liveAt s.index.view c.prev = true := by
  have hlive : OutputStore.isLive s.index.view c.prev o e = true := by
    simpa [h.entry] using List.of_findIdx?_eq_some h.oldest
  obtain ⟨hout, hlive⟩ := Bool.and_eq_true_iff.1 hlive
  exact ⟨eq_of_beq hout, hlive⟩

/-- What every state keeps of its outputs: the block that each records is the position of its creator,
and every stored coinstake has marked its kernel. -/
structure Staked (s : ChainState) : Prop where
  placed : ∀ e ∈ s.outputs.entries.toList, ∃ a, s.index.view.position e.creator = some a ∧
    e.source.block = ⟨a.hash, a.height, a.time⟩
  marked : ∀ k ∈ s.coinstakes, ∃ b o i e, s.Marked k b o i e

theorem staked_empty (p : Parameters) : (empty p).Staked where
  placed e he := by simp [empty, OutputStore.empty] at he
  marked k hk := by simp [empty] at hk

/-- The check of a coinstake has resolved its kernel to an entry. -/
theorem Evaluated.exists_oldest (he : s.Evaluated b prev position derived)
    (hl : s.index.view.Linked) {tx : Transaction} (htx : b.coinstake? = some tx) {o : OutPoint}
    (ho : tx.kernelInput? = some o) : ∃ i,
      s.outputs.entries.toList.findIdx? (OutputStore.isLive s.index.view prev o) = some i := by
  obtain ⟨id, proof, rfl, -, hcheck⟩ := he.checkCoinstake htx
  obtain ⟨source, -, hsource, htimely, -⟩ := View.checkCoinstake_eq_ok.1 hcheck
  obtain ⟨tip, htip, -⟩ := htimely.depth
  obtain ⟨o', ho', hget, -⟩ := hl.kernelSource_ok htip hsource
  obtain rfl : o = o' := by simpa [ho] using ho'
  have hget := Except.ok.inj hget
  rw [OutputStore.get?_eq_bind, Option.map_eq_some_iff] at hget
  obtain ⟨e, hget, -⟩ := hget
  obtain ⟨i, hi, -⟩ := Option.bind_eq_some_iff.1 hget
  exact ⟨i, hi⟩

section Step

variable (he : s.Evaluated b prev position derived) (hs : s.Sound)
  (hprev : s.predecessor b = .ok prev)

include he hs hprev

/-- An older tip resolves an outpoint to the same entry after the block. -/
theorem Evaluated.oldest_connected {tip : Option Nat} (htip : s.index.view.Indexed tip) {o : OutPoint} :
    (s.connected b position).outputs.entries.toList.findIdx?
        (OutputStore.isLive (s.connected b position).index.view tip o) =
      s.outputs.entries.toList.findIdx? (OutputStore.isLive s.index.view tip o) :=
  OutputStore.findIdx?_grown hs.below (he.onBranch_size hs hprev htip)
    (fun _ _ => he.onBranch_old hs hprev htip) grown_connected

theorem Evaluated.marked_old {k : StoredCoinstake} {c : Position} {o : OutPoint} {i : Nat}
    {e : OutputEntry} (h : s.Marked k c o i e) : ∃ e', (s.connected b position).Marked k c o i e' := by
  have hix := hs.linked.indexed_prev h.found
  obtain ⟨e', hentry, hlater⟩ := grown_connected.getElem? h.entry
  refine ⟨e', ChainIndex.extends_push.position h.found, h.input, ?_, hentry, hlater.kept _ h.spent⟩
  exact (he.oldest_connected hs hprev hix).trans h.oldest

/-- The coinstake of a new block marks the output that its check has resolved. -/
theorem Evaluated.marked_new {tx : Transaction} (htx : b.coinstake? = some tx) : ∃ o i e,
    (s.connected b position).Marked ⟨s.index.size, tx, b.nBits⟩ position o i e := by
  obtain ⟨⟨first, rest, htxs⟩, o, ho⟩ := CandidateBlock.coinstake?_eq_some htx
  obtain ⟨hnull, os, hinputs⟩ := Transaction.kernelInput?_eq_some ho
  have hix := predecessor_indexed hs.linked hprev
  obtain ⟨i, hi⟩ := he.exists_oldest hs.linked htx ho
  have hspendable := he.spendable
  rw [htxs] at hspendable
  have hfresh := OutputStore.checkSpendable_kernel hinputs hnull hspendable
  -- Before its own transactions, the new tip resolves what its predecessor does.
  have hbefore : s.outputs.entries.toList.findIdx?
      (OutputStore.isLive (s.index.push position).view (some s.index.size) o) = some i := by
    refine (OutputStore.findIdx?_congr fun e hmem => ?_).trans hi
    rw [OutputStore.isLive, OutputStore.isLive, he.liveAt_before hs hprev hmem]
  obtain ⟨e, hentry, hmark⟩ : ∃ e, (s.connected b position).outputs.entries.toList[i]? = some e ∧
      s.index.size ∈ e.spenders := by
    rw [connected, htxs]
    exact OutputStore.connect_marks hinputs hfresh hbefore
  refine ⟨o, i, e, ChainIndex.position_push_size, ho, ?_, hentry, hmark⟩
  rw [he.position_prev]
  exact (he.oldest_connected hs hprev hix).trans hi

theorem Evaluated.staked (hk : s.Staked) : (s.connected b position).Staked where
  placed := by
    intro e' he'
    rcases grown_connected.mem he' with ⟨e, hmem, hlater⟩ | hown
    · obtain ⟨a, ha, hblock⟩ := hk.placed e hmem
      rw [hlater.source, hlater.creator]
      exact ⟨a, ChainIndex.extends_push.position ha, hblock⟩
    · rw [hown.creator, hown.block]
      exact ⟨position, ChainIndex.position_push_size, rfl⟩
  marked := by
    intro k hmem
    rcases List.mem_append.1 hmem with hmem | hmem
    · obtain ⟨c, o, i, e, h⟩ := hk.marked k hmem
      obtain ⟨e', h'⟩ := he.marked_old hs hprev h
      exact ⟨c, o, i, e', h'⟩
    · cases htx : b.coinstake? with
      | none => simp [htx] at hmem
      | some tx =>
        obtain rfl : k = ⟨s.index.size, tx, b.nBits⟩ := by simpa [htx] using hmem
        exact ⟨position, he.marked_new hs hprev htx⟩

end Step

end ChainState

theorem Run.Reached.staked {p : Parameters} {r : Run} (h : Reached p r) : r.state.Staked := by
  induction h with
  | start => exact ChainState.staked_empty p
  | accept hr haccept ih =>
    obtain ⟨prev, position, hprev, heval, -, rfl⟩ :=
      (ChainState.accept_eq_ok hr.faithful.sound.linked).1 haccept
    exact (ChainState.evaluateAfter_eq_ok heval).staked hr.faithful.sound hprev ih

/-! ### Valid stakes -/

/-- Entry `i` is the kernel of the proof-of-stake position `id`: it is what the kernel's outpoint names
behind the position. It was created at the position `a`, and all that the rules ask of a stake holds. -/
structure ChainState.ValidStake (s : ChainState) (id : Nat) (b : Position) (k : StoredCoinstake)
    (i : Nat) (e : OutputEntry) (a : Position) : Prop where
  found : s.index.view.position id = some b
  stored : s.coinstakes.find? (·.id == id) = some k
  entry : s.outputs.entries[i]? = some e
  kernel : k.tx.kernelInput? = some e.source.outpoint
  oldest : s.outputs.entries.findIdx? (OutputStore.isLive s.index.view b.prev e.source.outpoint) = some i
  creator : s.index.view.position e.creator = some a
  block : e.source.block = ⟨a.hash, a.height, a.time⟩
  ancestor : Relation.TransGen s.index.view.Parent e.creator id
  unspent : ∀ x ∈ e.spenders, ¬ Relation.TransGen s.index.view.Parent x id
  spent : id ∈ e.spenders
  depth : max 1 s.parameters.stakeMinDepth.toNat ≤ b.height - a.height
  time : s.parameters.checkCoinstakeTime b.time (k.timeIn b) = .ok ()
  age : a.time.toNat + s.parameters.stakeMinAge.toNat ≤ (k.timeIn b).toNat
  notBefore : e.source.effectiveTime ≤ k.timeIn b
  proof : ∃ prev m, b.prev = some prev ∧
    s.index.view.kernelModifier s.parameters prev e.source.block (k.timeIn b) = .ok m ∧
    b.proofHash = kernelHash m k.nBits a.time e.source.txOffset e.source.effectiveTime
      e.source.outpoint.vout (k.timeIn b)
  target : b.proofHash.toNat ≤ s.parameters.weightedTarget k.nBits e.source.output.value
    e.source.effectiveTime (k.timeIn b)

namespace Run

variable {p : Parameters} {r : Run} {id id' i : Nat} {b b' : Position}

/-- The entry that was marked is the source that today's check resolves. -/
theorem Reached.kernelSource_eq (hr : Reached p r) {k : StoredCoinstake} {o : OutPoint}
    {e : OutputEntry} (hm : r.state.Marked k b o i e) {prev : Nat} (hprev : b.prev = some prev)
    {source : StakeSource} (hsource : r.state.index.view.kernelSource
      (r.state.outputs.outputView r.state.index.view b.prev) prev k.tx = .ok source) :
    source = e.source := by
  have hl := hr.faithful.sound.linked
  obtain ⟨tip, htip⟩ := View.indexed_some.1 (hprev ▸ hl.indexed_prev hm.found)
  obtain ⟨o', ho', hget, -⟩ := hl.kernelSource_ok htip hsource
  obtain rfl : o = o' := by simpa [hm.input] using ho'
  have hget := Except.ok.inj hget
  rw [OutputStore.get?_eq_bind, hm.oldest, Option.bind_some, hm.entry, Option.map_some] at hget
  exact (Option.some.inj hget).symm

theorem Reached.validStake (hr : Reached p r) (hb : r.state.index.view.position id = some b)
    (hflag : b.flags.proofOfStake = true) : ∃ k i e a, r.state.ValidStake id b k i e a := by
  have hl := hr.faithful.sound.linked
  obtain ⟨c, d, h⟩ := hr.faithful.records hb
  obtain ⟨tx, htx⟩ : ∃ tx, c.coinstake? = some tx := by
    refine Option.ne_none_iff_exists'.1 fun hnone => ?_
    rw [h.flagged, h.derives.proof_none hnone] at hflag
    simp at hflag
  have hstored : r.state.coinstakes.find? (·.id == id) = some ⟨id, tx, c.nBits⟩ := by
    rw [h.coinstake, htx, Option.map_some]
  obtain ⟨b', o, i, e, hm⟩ := hr.staked.marked _ (List.mem_of_find?_eq_some hstored)
  obtain rfl : b = b' := by simpa [hb] using hm.found
  obtain ⟨prev, proof, hprev, hsome, hcheck⟩ := h.derives.checkCoinstake htx
  obtain ⟨source, m, hsource, ⟨hfits, tip, htip, hdepth⟩, hmodifier, hkernel⟩ :=
    View.checkCoinstake_eq_ok.1 hcheck
  obtain rfl := hr.kernelSource_eq hm hprev hsource
  obtain ⟨⟨hnotBefore, hage⟩, hproof, htarget⟩ := StakeSource.checkKernel_eq_ok.1 hkernel
  obtain ⟨a, ha, hblock⟩ := hr.staked.placed e (List.mem_of_getElem? hm.entry)
  obtain ⟨rfl, hlive⟩ := hm.live
  obtain ⟨hcreated, hspenders⟩ := OutputEntry.liveAt_iff.1 hlive
  have hbelow : a.height < b.height := hl.height_lt_of_onBranch hb ha hcreated
  have htipHeight : b.height = tip.height + 1 := by
    obtain ⟨tip', htip', hheight⟩ := hl.parent hb hprev
    obtain rfl : tip = tip' := by simpa [htip] using htip'
    exact hheight
  have hrecorded : b.proofHash = proof := by rw [h.proofHash, hsome, Option.getD_some]
  have ht : StoredCoinstake.timeIn ⟨id, tx, c.nBits⟩ b = tx.time.getD c.time := by rw [← h.time]; rfl
  refine ⟨⟨id, tx, c.nBits⟩, i, e, a, hb, hstored, ?_, hm.input, ?_, ha, hblock,
    (hl.onBranch_prev_iff hb).1 hcreated, fun x hx hreach => ?_, hm.spent, ?_, ?_, ?_, ?_,
    ⟨prev, m, hprev, ?_, ?_⟩, ?_⟩
  · rw [← Array.getElem?_toList]
    exact hm.entry
  · exact (List.findIdx?_toArray _ r.state.outputs.entries.toList).trans hm.oldest
  · have hon := (hl.onBranch_prev_iff hb).2 hreach
    rw [hspenders x hx] at hon
    simp at hon
  · rw [hblock] at hdepth
    simp only at hdepth
    omega
  · rw [ht, h.time]
    exact Parameters.checkCoinstakeTime_eq_ok.2 hfits
  · rw [hblock] at hage
    rw [ht]
    exact hage
  · rw [ht]
    exact hnotBefore
  · rw [ht]
    exact hmodifier
  · rw [ht, hrecorded, hproof, StakeSource.kernelHash, hblock]
  · rw [ht, hrecorded]
    exact htarget

end Run

/-- Positions on one branch are comparable. -/
theorem View.comparable {v : View} {tip x y : Nat} (hx : Relation.ReflTransGen v.Parent x tip)
    (hy : Relation.ReflTransGen v.Parent y tip) :
    x = y ∨ Relation.TransGen v.Parent x y ∨ Relation.TransGen v.Parent y x := by
  have unique : Relator.RightUnique (Function.swap v.Parent) := by
    rintro z x y ⟨b, hb, hx⟩ ⟨c, hc, hy⟩
    obtain rfl : b = c := by simpa [hb] using hc
    simpa [hx] using hy
  rcases Relation.ReflTransGen.total_of_right_unique unique hx.swap hy.swap with h | h
  · rcases Relation.reflTransGen_iff_eq_or_transGen.1 (Relation.reflTransGen_swap.1 h) with h | h
    · exact Or.inl h
    · exact Or.inr (Or.inr h)
  · rcases Relation.reflTransGen_iff_eq_or_transGen.1 (Relation.reflTransGen_swap.1 h) with h | h
    · exact Or.inl h.symm
    · exact Or.inr (Or.inl h)

/-- Two positions of one branch that have the same kernel are the same. -/
theorem ChainState.ValidStake.unique {s : ChainState} {tip id id' i : Nat} {b b' a a' : Position}
    {k k' : StoredCoinstake} {e e' : OutputEntry} (h : s.ValidStake id b k i e a)
    (h' : s.ValidStake id' b' k' i e' a')
    (hid : Relation.ReflTransGen s.index.view.Parent id tip)
    (hid' : Relation.ReflTransGen s.index.view.Parent id' tip) : id = id' := by
  obtain rfl : e = e' := by simpa [h.entry] using h'.entry
  rcases View.comparable hid hid' with heq | hbelow | hbelow
  · exact heq
  · exact absurd hbelow (h'.unspent id h.spent)
  · exact absurd hbelow (h.unspent id' h'.spent)

/-- In every run every position flagged proof-of-stake has a kernel that makes it a valid stake, and
no entry is the kernel of two positions on one branch. -/
theorem stakes_valid (p : Parameters) (offers : List CandidateBlock) :
    (∀ id b, (Run.of p offers).state.index.view.position id = some b →
      b.flags.proofOfStake = true →
      ∃ k i e a, (Run.of p offers).state.ValidStake id b k i e a) ∧
    (∀ tip id id' b b' k k' i e e' a a', (Run.of p offers).state.ValidStake id b k i e a →
      (Run.of p offers).state.ValidStake id' b' k' i e' a' →
      Relation.ReflTransGen (Run.of p offers).state.index.view.Parent id tip →
      Relation.ReflTransGen (Run.of p offers).state.index.view.Parent id' tip → id = id') :=
  ⟨fun _ _ hb hflag => (Run.reached_of p offers).validStake hb hflag,
    fun _ _ _ _ _ _ _ _ _ _ _ _ h h' hid hid' => h.unique h' hid hid'⟩

open SmallChain in
/-- The staked block of the small chain has a kernel. -/
theorem stakes_valid_staked : ∃ b k i e a,
    (Run.of parameters [first, staked]).state.ValidStake 1 b k i e a := by
  have hstaked : ((Run.of parameters [first, staked]).state.index.view.position 1).any
      (·.flags.proofOfStake) = true := by decide +kernel
  obtain ⟨b, hb, hflag⟩ := (Option.any_eq_true _ _).1 hstaked
  exact ⟨b, (stakes_valid parameters [first, staked]).1 1 b hb hflag⟩

end StakeChain
