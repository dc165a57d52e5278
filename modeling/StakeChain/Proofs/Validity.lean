import StakeChain.Proofs.Internal
import StakeChain.Proofs.KernelModifier
import StakeChain.Proofs.Recompute
/-!
Which blocks are accepted. The rules are stated here on the branch that a block extends, as links between
positions, and on the entries of the output store; nothing is said of walks, of the order of the checks, or
of how the store is searched. A block is accepted exactly when it keeps them: none that breaks a rule gets
in, and none that keeps them all is turned away.
-/

namespace StakeChain

/-! ### Entries on a branch -/

/-- Created on the branch that ends at a tip, and spent by no block of it. -/
structure OutputEntry.UnspentOn (e : OutputEntry) (v : View) (tip : Option Nat) : Prop where
  created : ∃ id ∈ tip, Relation.ReflTransGen v.Parent e.creator id
  unspent : ∀ x ∈ e.spenders, ∀ id ∈ tip, ¬ Relation.ReflTransGen v.Parent x id

/-- Entry `i` is the one that an outpoint names on a branch: of its unspent entries the oldest. -/
structure OutputStore.Names (s : OutputStore) (v : View) (tip : Option Nat) (o : OutPoint) (i : Nat)
    (e : OutputEntry) : Prop where
  entry : s.entries[i]? = some e
  outpoint : e.source.outpoint = o
  unspent : e.UnspentOn v tip
  oldest : ∀ j < i, ∀ e', s.entries[j]? = some e' → e'.source.outpoint = o → ¬ e'.UnspentOn v tip

section Entries

variable {v : View} {tip : Option Nat} {e : OutputEntry} {s : OutputStore} {o : OutPoint} {i : Nat}
  {source : StakeSource} (hl : v.Linked) (hix : v.Indexed tip)

include hl hix

theorem OutputEntry.liveAt_iff_unspentOn : e.liveAt v tip = true ↔ e.UnspentOn v tip := by
  rw [liveAt_iff, hl.onBranch_iff_reaches _ hix]
  constructor
  · rintro ⟨hcreated, hunspent⟩
    refine ⟨hcreated, fun x hx id hid hreach => ?_⟩
    have hon := (hl.onBranch_iff_reaches tip hix).2 ⟨id, hid, hreach⟩
    simp [hunspent x hx] at hon
  · rintro ⟨hcreated, hunspent⟩
    refine ⟨hcreated, fun x hx => Bool.eq_false_iff.2 fun hon => ?_⟩
    obtain ⟨id, hid, hreach⟩ := (hl.onBranch_iff_reaches tip hix).1 hon
    exact hunspent x hx id hid hreach

namespace OutputStore

theorem isLive_iff : isLive v tip o e = true ↔ e.source.outpoint = o ∧ e.UnspentOn v tip := by
  rw [isLive, Bool.and_eq_true, beq_iff_eq, OutputEntry.liveAt_iff_unspentOn hl hix]

theorem names_iff : s.Names v tip o i e ↔
    s.entries.toList.findIdx? (isLive v tip o) = some i ∧ s.entries.toList[i]? = some e := by
  rw [List.findIdx?_eq_some_iff_getElem, Array.getElem?_toList]
  constructor
  · rintro ⟨hentry, rfl, hunspent, holdest⟩
    obtain ⟨hi, rfl⟩ := Array.getElem?_eq_some_iff.1 hentry
    refine ⟨⟨hi, (isLive_iff hl hix).2 ⟨rfl, hunspent⟩, fun j hj hlive => ?_⟩, hentry⟩
    obtain ⟨hout, hunspent⟩ := (isLive_iff hl hix).1 hlive
    exact holdest j hj _ (Array.getElem?_eq_getElem (Nat.lt_trans hj hi)) hout hunspent
  · rintro ⟨⟨hi, hlive, hbefore⟩, hentry⟩
    obtain rfl : s.entries[i] = e := Option.some.inj ((Array.getElem?_eq_getElem hi).symm.trans hentry)
    obtain ⟨hout, hunspent⟩ := (isLive_iff hl hix).1 hlive
    refine ⟨hentry, hout, hunspent, fun j hj e' he' hout' hunspent' => hbefore j hj ?_⟩
    obtain ⟨_, rfl⟩ := Array.getElem?_eq_some_iff.1 he'
    exact (isLive_iff hl hix).2 ⟨hout', hunspent'⟩

theorem get?_eq_some : s.get? v tip o = some source ↔
    ∃ i e, s.Names v tip o i e ∧ e.source = source := by
  rw [get?_eq_bind, Option.map_eq_some_iff]
  constructor
  · rintro ⟨e, hfind, rfl⟩
    obtain ⟨i, hi, hentry⟩ := Option.bind_eq_some_iff.1 hfind
    exact ⟨i, e, (names_iff hl hix).2 ⟨hi, hentry⟩, rfl⟩
  · rintro ⟨i, e, hnames, rfl⟩
    obtain ⟨hi, hentry⟩ := (names_iff hl hix).1 hnames
    exact ⟨e, Option.bind_eq_some_iff.2 ⟨i, hi, hentry⟩, rfl⟩

theorem isSome_get?_iff : (s.get? v tip o).isSome = true ↔
    ∃ e ∈ s.entries, e.source.outpoint = o ∧ e.UnspentOn v tip := by
  simp only [get?, Option.isSome_map, Array.find?_isSome, isLive_iff hl hix]

end OutputStore

end Entries

/-! ### Valid blocks -/

namespace ChainState

/-- Entry `i`, created at the position `a`, is the kernel of a coinstake in a block after `prev`; the stake
keeps every rule, and `hash` is that of the kernel with the modifier `m`. -/
structure ValidKernel (s : ChainState) (b : CandidateBlock) (prev : Nat) (tx : Transaction) (i : Nat)
    (e : OutputEntry) (a : Position) (m : KernelModifier) (hash : Hash) : Prop where
  kernel : tx.kernelInput? = some e.source.outpoint
  names : s.outputs.Names s.index.view (some prev) e.source.outpoint i e
  creator : s.index.view.position e.creator = some a
  depth : ∃ tip, s.index.view.position prev = some tip ∧
    max 1 s.parameters.stakeMinDepth.toNat ≤ tip.height + 1 - a.height
  time : s.parameters.Fits b.time (tx.time.getD b.time)
  notBefore : e.source.effectiveTime ≤ tx.time.getD b.time
  age : a.time.toNat + s.parameters.stakeMinAge.toNat ≤ (tx.time.getD b.time).toNat
  modifier : s.index.view.KernelRule s.parameters prev ⟨a.hash, a.height, a.time⟩ (tx.time.getD b.time) m
  hashed : hash = kernelHash m b.nBits a.time e.source.txOffset e.source.effectiveTime
    e.source.outpoint.vout (tx.time.getD b.time)
  target : hash.toNat ≤ s.parameters.weightedTarget b.nBits e.source.output.value
    e.source.effectiveTime (tx.time.getD b.time)

/-- A block without a coinstake has no proof; one with a coinstake has that of a valid kernel, and is not
the first block. -/
inductive ValidStaking (s : ChainState) (b : CandidateBlock) : Option Nat → Option Hash → Prop where
  | unstaked {prev : Option Nat} : b.coinstake? = none → ValidStaking s b prev none
  | staked {prev i : Nat} {tx : Transaction} {e : OutputEntry} {a : Position} {m : KernelModifier}
      {proof : Hash} : b.coinstake? = some tx → s.ValidKernel b prev tx i e a m proof →
      ValidStaking s b (some prev) (some proof)

/-- A block that keeps every rule after `prev`, with its proof. -/
structure ValidBlock (s : ChainState) (b : CandidateBlock) (prev : Option Nat) (proof : Option Hash) :
    Prop where
  fresh : ∀ id a, s.index.view.position id = some a → a.hash ≠ b.hash
  link : (∃ id a, prev = some id ∧ s.index.view.position id = some a ∧ b.prevHash = some a.hash) ∨
    prev = none ∧ b.prevHash = none ∧ s.index.size = 0
  staking : s.ValidStaking b prev proof
  spendable : Spendable (fun o => ∃ e ∈ s.outputs.entries, e.source.outpoint = o ∧
    e.UnspentOn s.index.view prev) b.transactions
  checkpoint : ∀ next pinned, s.index.view.nextModifier s.parameters prev = .ok next →
    s.parameters.checkpoints.get? (s.heightAfter prev) = some pinned →
    s.checksumAfter b prev proof next = pinned

variable {s : ChainState} {b : CandidateBlock} {prev : Option Nat} {id : Nat} {tip : Position}
  {tx : Transaction} {proof : Option Hash}

theorem predecessor_iff (hl : s.index.view.Linked) : s.predecessor b = .ok prev ↔
    (∀ id a, s.index.view.position id = some a → a.hash ≠ b.hash) ∧
      ((∃ id a, prev = some id ∧ s.index.view.position id = some a ∧ b.prevHash = some a.hash) ∨
        prev = none ∧ b.prevHash = none ∧ s.index.size = 0) := by
  have hfresh : s.index.view.lookup b.hash = none ↔
      ∀ id a, s.index.view.position id = some a → a.hash ≠ b.hash := by
    rw [Option.eq_none_iff_forall_ne_some]
    refine forall_congr' fun id => ?_
    rw [Ne, hl.lookup_iff, not_exists]
    exact forall_congr' fun a => not_and
  rw [predecessor_eq_ok, hfresh]
  refine and_congr_right fun _ => or_congr ?_ ?_
  · constructor
    · rintro ⟨h, id, hprev, hid, rfl⟩
      obtain ⟨a, ha, rfl⟩ := hl.lookup_iff.1 hid
      exact ⟨id, a, rfl, ha, hprev⟩
    · rintro ⟨id, a, rfl, ha, hprev⟩
      exact ⟨a.hash, id, hprev, hl.lookup_iff.2 ⟨a, ha, rfl⟩, rfl⟩
  · constructor
    · rintro ⟨hnone, hempty, rfl⟩
      exact ⟨rfl, hnone, hempty⟩
    · rintro ⟨rfl, hnone, hempty⟩
      exact ⟨hnone, hempty, rfl⟩

/-- The check of a coinstake passes exactly where the entry that its kernel names is a valid one. -/
theorem checkCoinstake_iff (hk : s.Staked) (hl : s.index.view.Linked)
    (hp : 0 < s.parameters.modifierInterval) (htip : s.index.view.position id = some tip) {hash : Hash} :
    s.index.view.checkCoinstake (s.outputs.outputView s.index.view (some id)) s.parameters id tx b.nBits
        b.time = .ok hash ↔ ∃ i e a m, s.ValidKernel b id tx i e a m hash := by
  have hix : s.index.view.Indexed (some id) := View.indexed_some.2 ⟨tip, htip⟩
  -- The block recorded with an entry is that of its creator, and the creator is not above the tip.
  have placed : ∀ {o i e}, s.outputs.Names s.index.view (some id) o i e → ∃ a,
      s.index.view.position e.creator = some a ∧ e.source.block = ⟨a.hash, a.height, a.time⟩ ∧
      a.height ≤ tip.height := by
    intro o i e hnames
    obtain ⟨a, ha, hblock⟩ := hk.placed e (Array.mem_toList_iff.2 (Array.mem_of_getElem? hnames.entry))
    obtain ⟨_, ⟨⟩, hreach⟩ := hnames.unspent.created
    exact ⟨a, ha, hblock, hl.height_le htip hreach ha⟩
  rw [View.checkCoinstake_eq_ok]
  constructor
  · rintro ⟨source, m, hsource, ⟨hfits, tip', htip', hdepth⟩, hm, hkernel⟩
    obtain rfl : tip = tip' := by simpa [htip] using htip'
    obtain ⟨o, ho, hget, -⟩ := hl.kernelSource_ok htip hsource
    obtain ⟨i, e, hnames, rfl⟩ := (OutputStore.get?_eq_some hl hix).1 (Except.ok.inj hget)
    obtain ⟨a, ha, hblock, hbelow⟩ := placed hnames
    obtain rfl := hnames.outpoint
    obtain ⟨⟨hnotBefore, hage⟩, hproof, htarget⟩ := StakeSource.checkKernel_eq_ok.1 hkernel
    rw [StakeSource.kernelHash, hblock] at hproof
    rw [hblock] at hdepth hage hm
    have hdeep : max 1 s.parameters.stakeMinDepth.toNat ≤ tip.height + 1 - a.height := by
      dsimp only at hdepth
      omega
    exact ⟨i, e, a, m, ho, hnames, ha, ⟨tip, htip, hdeep⟩, hfits, hnotBefore, hage,
      (hl.kernelModifier_eq_ok htip hp hbelow).1 hm, hproof, htarget⟩
  · rintro ⟨i, e, a, m, h⟩
    obtain ⟨a', ha', hblock, hbelow⟩ := placed h.names
    obtain rfl : a = a' := Option.some.inj (h.creator.symm.trans ha')
    obtain ⟨tip', htip', hdeep⟩ := h.depth
    obtain rfl : tip = tip' := by simpa [htip] using htip'
    have hget := (OutputStore.get?_eq_some hl hix).2 ⟨i, e, h.names, rfl⟩
    refine ⟨e.source, m, ?_, ⟨h.time, tip, htip, ?_⟩, ?_, ?_⟩
    · exact hl.kernelSource_found htip h.kernel (congrArg Except.ok hget) (hk.hasBlock hl htip hget)
    · rw [hblock]
      dsimp only
      omega
    · rw [hblock]
      exact (hl.kernelModifier_eq_ok htip hp hbelow).2 h.modifier
    · refine StakeSource.checkKernel_eq_ok.2 ⟨⟨h.notBefore, ?_⟩, ?_, h.target⟩
      · rw [hblock]
        exact h.age
      · rw [StakeSource.kernelHash, hblock]
        exact h.hashed

theorem proofOf_eq_ok (hk : s.Staked) (hl : s.index.view.Linked)
    (hp : 0 < s.parameters.modifierInterval) (hix : s.index.view.Indexed prev) :
    s.proofOf b prev = .ok proof ↔ s.ValidStaking b prev proof := by
  unfold proofOf
  cases htx : b.coinstake? with
  | none =>
    rw [Except.ok.injEq]
    constructor
    · rintro rfl
      exact .unstaked htx
    · rintro (_ | ⟨htx', -⟩)
      · rfl
      · simp [htx] at htx'
  | some tx =>
    cases prev with
    | none =>
      refine iff_of_false (by simp) ?_
      rintro (hnone | _)
      simp [htx] at hnone
    | some id =>
      obtain ⟨tip, htip⟩ := View.indexed_some.1 hix
      dsimp only
      constructor
      · intro h
        split at h
        · rename_i hash hpassed
          obtain rfl := Except.ok.inj h
          obtain ⟨i, e, a, m, hvalid⟩ := (checkCoinstake_iff hk hl hp htip).1 hpassed
          exact .staked htx hvalid
        · simp at h
      · rintro (hnone | ⟨htx', hvalid⟩)
        · simp [htx] at hnone
        · obtain rfl := Option.some.inj (htx.symm.trans htx')
          rw [(checkCoinstake_iff hk hl hp htip).2 ⟨_, _, _, _, hvalid⟩]

/-- Behind an indexed block an evaluation fails only for the proof, for the inputs, or for the checkpoint. -/
theorem exists_evaluateAfter_iff (hs : s.Sound) (hp : 0 < s.parameters.modifierInterval)
    (hix : s.index.view.Indexed prev) : (∃ r, s.evaluateAfter b prev = .ok r) ↔
      ∃ proof, s.proofOf b prev = .ok proof ∧
        s.outputs.checkSpendable s.index.view prev b.transactions = .ok () ∧
        ∀ next pinned, s.index.view.nextModifier s.parameters prev = .ok next →
          s.parameters.checkpoints.get? (s.heightAfter prev) = some pinned →
          s.checksumAfter b prev proof next = pinned := by
  obtain ⟨next, hnext⟩ := exists_nextModifier hs hp hix
  simp only [evaluateAfter, bind_eq_ok, mapError_eq_ok, pure_eq_ok, nextHeight_eq hix, hnext,
    checksumOf_unsummed hix, Except.ok.injEq, exists_eq_left']
  constructor
  · rintro ⟨_, proof, hproof, ⟨⟩, hspendable, ⟨⟩, hcheckpoint, rfl⟩
    refine ⟨proof, hproof, hspendable, ?_⟩
    rintro _ pinned rfl
    exact Parameters.enforceCheckpoint_eq_ok.1 hcheckpoint pinned
  · rintro ⟨proof, hproof, hspendable, hcheckpoint⟩
    have hkept := Parameters.enforceCheckpoint_eq_ok.2 fun pinned => hcheckpoint next pinned rfl
    exact ⟨_, proof, hproof, (), hspendable, (), hkept, rfl⟩

end ChainState

/-- In every run a block is accepted exactly when it is valid: its hash is new and it extends a block of the
index, or is the first; its stake keeps the rules; its outputs can be spent; and its checksum is the one
pinned to its height, if there is one. -/
theorem accepts_exactly_valid (p : Parameters) (hp : 0 < p.modifierInterval)
    (offers : List CandidateBlock) (b : CandidateBlock) :
    let s := (Run.of p offers).state
    (∃ s' a, s.accept b = .ok (s', a)) ↔ ∃ prev proof, s.ValidBlock b prev proof := by
  intro s
  have hr := Run.reached_of p offers
  have hs : s.Sound := hr.faithful.sound
  have hl := hs.linked
  have hpos : 0 < s.parameters.modifierInterval := by rw [hr.parameters]; exact hp
  have hspendable : ∀ {prev}, s.index.view.Indexed prev →
      (s.outputs.checkSpendable s.index.view prev b.transactions = .ok () ↔
        Spendable (fun o => ∃ e ∈ s.outputs.entries, e.source.outpoint = o ∧
          e.UnspentOn s.index.view prev) b.transactions) := by
    intro prev hix
    rw [OutputStore.checkSpendable_eq_ok]
    exact Spendable.congr fun o => OutputStore.isSome_get?_iff hl hix
  constructor
  · rintro ⟨s', a, haccept⟩
    obtain ⟨prev, position, hprev, heval, -⟩ := (ChainState.accept_eq_ok hl).1 haccept
    have hix := ChainState.predecessor_indexed hl hprev
    obtain ⟨hfresh, hlink⟩ := (ChainState.predecessor_iff hl).1 hprev
    obtain ⟨proof, hproof, hspends, hcheckpoint⟩ :=
      (ChainState.exists_evaluateAfter_iff hs hpos hix).1 ⟨_, heval⟩
    exact ⟨prev, proof, hfresh, hlink, (ChainState.proofOf_eq_ok hr.staked hl hpos hix).1 hproof,
      (hspendable hix).1 hspends, hcheckpoint⟩
  · rintro ⟨prev, proof, h⟩
    have hprev := (ChainState.predecessor_iff hl).2 ⟨h.fresh, h.link⟩
    have hix := ChainState.predecessor_indexed hl hprev
    obtain ⟨⟨position, derived⟩, heval⟩ := (ChainState.exists_evaluateAfter_iff hs hpos hix).2
      ⟨proof, (ChainState.proofOf_eq_ok hr.staked hl hpos hix).2 h.staking,
        (hspendable hix).2 h.spendable, h.checkpoint⟩
    exact ⟨_, ⟨s.index.size, derived⟩,
      (ChainState.accept_eq_ok hl).2 ⟨prev, position, hprev, heval, rfl, rfl⟩⟩

open SmallChain in
/-- After the first block the block that stakes its output is valid, with a proof. -/
theorem accepts_exactly_valid_staked :
    0 < parameters.modifierInterval ∧
    ∃ prev proof, (Run.of parameters [first]).state.ValidBlock staked (some prev) (some proof) := by
  have hp : 0 < parameters.modifierInterval := by decide
  have hfacts : ((Run.of parameters [first]).state.accept staked).isOk = true ∧
      staked.coinstake?.isSome = true := by decide +kernel
  obtain ⟨hok, hstake⟩ := hfacts
  obtain ⟨⟨s', a⟩, haccept⟩ := exists_of_isOk hok
  obtain ⟨prev, proof, h⟩ := (accepts_exactly_valid parameters hp [first] staked).1 ⟨s', a, haccept⟩
  refine ⟨hp, ?_⟩
  cases h.staking with
  | unstaked hnone => simp [hnone] at hstake
  | staked htx hkernel => exact ⟨_, _, h⟩

end StakeChain
