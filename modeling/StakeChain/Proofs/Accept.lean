import StakeChain.Proofs.Branch
import StakeChain.Proofs.Index
import StakeChain.Proofs.LiveOutputs
import StakeChain.Proofs.Success
import StakeChain.State
/-!
What checking and accepting a block read and do. A check reads the state only through the branch of
the block's predecessor and the outputs live there, so two states that agree on these give the same
verdict. A successful acceptance appends the one position that the check derived, connects the
block's outputs and stores its coinstake.
-/

namespace StakeChain

namespace ChainState

variable {s s' : ChainState} {b : CandidateBlock} {tip tip' prev : Option Nat} {position : Position}
  {derived : ValidatedBlock}

/-- The outputs that the state shows at a tip. -/
def live (s : ChainState) (tip : Option Nat) : Unspent := s.outputs.live s.index.view tip

/-- The hash of the block at a tip. -/
def hashAt (s : ChainState) (tip : Option Nat) : Option Hash :=
  (tip.bind s.index.view.position).map Position.hash

@[simp] theorem hashAt_none : s.hashAt none = none := rfl

theorem hashAt_some {id : Nat} {a : Position} (ha : s.index.view.position id = some a) :
    s.hashAt (some id) = some a.hash := by simp [hashAt, ha]

/-! ### What a check reads -/

/-- Two states agree on what lies behind a block: its branch, links aside, and the live outputs. On
every branch some block has generated a modifier. -/
inductive Agree (s s' : ChainState) : Option Nat → Option Nat → Prop where
  | root (parameters : s.parameters = s'.parameters) : Agree s s' none none
  | behind {i j : Nat} (parameters : s.parameters = s'.parameters)
      (branch : s.index.view.SameBranch i s'.index.view j)
      (generated : ∃ b ∈ s.index.view.branch (some i), b.flags.generated = true)
      (live : s.live (some i) = s'.live (some j)) : Agree s s' (some i) (some j)

namespace Agree

theorem parameters_eq (h : s.Agree s' tip tip') : s.parameters = s'.parameters := by
  cases h <;> assumption

/-- States that agree show the same blocks, links aside. -/
theorem blocks (h : s.Agree s' tip tip') : (s.index.view.branch tip).map Position.unlinked =
    (s'.index.view.branch tip').map Position.unlinked := by
  cases h with
  | root => rfl
  | behind _ hbranch => exact hbranch.blocks

theorem live_eq (h : s.Agree s' tip tip') : s.live tip = s'.live tip' := by
  cases h with
  | root => exact OutputStore.live_none.trans OutputStore.live_none.symm
  | behind _ _ _ hlive => exact hlive

theorem get?_eq (h : s.Agree s' tip tip') (o : OutPoint) :
    s.outputs.get? s.index.view tip o = s'.outputs.get? s'.index.view tip' o := by
  rw [OutputStore.get?_eq_find?, OutputStore.get?_eq_find?]
  exact congrArg _ h.live_eq

theorem proofOf (h : s.Agree s' tip tip') (b : CandidateBlock) :
    s.proofOf b tip = s'.proofOf b tip' := by
  have hview : s.outputs.outputView s.index.view tip = s'.outputs.outputView s'.index.view tip' := by
    funext o
    simp only [OutputStore.outputView, h.get?_eq o]
  simp only [ChainState.proofOf, hview]
  cases b.coinstake? with
  | none => rfl
  | some tx =>
    cases h with
    | root => rfl
    | behind hp hbranch => simp only [hp, hbranch.checkCoinstake]

theorem checkSpendable (h : s.Agree s' tip tip') (txs : List Transaction) :
    s.outputs.checkSpendable s.index.view tip txs =
      s'.outputs.checkSpendable s'.index.view tip' txs := by
  simp only [OutputStore.checkSpendable, h.get?_eq]

theorem nextHeight (h : s.Agree s' tip tip') : s.nextHeight tip = s'.nextHeight tip' := by
  cases h with
  | root => rfl
  | behind _ hbranch =>
    obtain ⟨a, ha⟩ := hbranch.found_left
    obtain ⟨c, hc⟩ := hbranch.found_right
    have hheight : a.height = c.height := (congrArg Position.height (hbranch.tip ha hc) :)
    simp only [ChainState.nextHeight, ChainIndex.position?, ha, hc, hheight]

theorem nextModifier (h : s.Agree s' tip tip') :
    s.index.view.nextModifier s.parameters tip = s'.index.view.nextModifier s.parameters tip' := by
  cases h with
  | root => rfl
  | behind _ hbranch hgen => exact hbranch.nextModifier _ hgen

theorem checksumOf (h : s.Agree s' tip tip') {c d : Position} (hc : c.prev = tip) (hd : d.prev = tip')
    (hcd : c.unlinked = d.unlinked) : s.index.view.checksumOf c = s'.index.view.checksumOf d := by
  cases h with
  | root =>
    obtain rfl : c = d := by
      cases c
      cases d
      simp_all [Position.unlinked]
    rw [View.checksumOf_none hc, View.checksumOf_none hc]
  | behind _ hbranch => exact hbranch.checksumOf hc hd hcd

/-- States that agree behind a block derive the same position for it, up to the link. -/
theorem evaluateAfter (h : s.Agree s' tip tip') (b : CandidateBlock) :
    s'.evaluateAfter b tip' =
      (s.evaluateAfter b tip).map fun r => ({ r.1 with prev := tip' }, r.2) := by
  simp only [ChainState.evaluateAfter, ← h.proofOf, ← h.checkSpendable, ← h.nextHeight,
    ← h.parameters_eq, ← h.nextModifier]
  cases s.proofOf b tip with
  | error e => rfl
  | ok proof =>
    cases s.outputs.checkSpendable s.index.view tip b.transactions with
    | error e => rfl
    | ok u =>
      cases s.nextHeight tip with
      | error e => rfl
      | ok height =>
        cases s.index.view.nextModifier s.parameters tip with
        | error e => rfl
        | ok next =>
          have hsum := h.checksumOf (c := b.unsummed tip height proof
            (s.parameters.entropy b.time b.hash b.signatureDigest) next)
            (d := b.unsummed tip' height proof
              (s.parameters.entropy b.time b.hash b.signatureDigest) next) rfl rfl rfl
          simp only [bind, Except.bind, mapError_ok, ← hsum]
          cases s.index.view.checksumOf _ with
          | error e => rfl
          | ok checksum =>
            simp only [mapError_ok]
            cases s.parameters.enforceCheckpoint height checksum <;> rfl

end Agree

/-! ### What a check establishes -/

/-- Everything that a successful check of a block behind `prev` has established. -/
structure Evaluated (s : ChainState) (b : CandidateBlock) (prev : Option Nat) (position : Position)
    (derived : ValidatedBlock) : Prop where
  proof : s.proofOf b prev = .ok derived.proof
  spendable : s.outputs.checkSpendable s.index.view prev b.transactions = .ok ()
  height : s.nextHeight prev = .ok derived.height
  entropy : derived.entropy = s.parameters.entropy b.time b.hash b.signatureDigest
  next : s.index.view.nextModifier s.parameters prev = .ok ⟨derived.stakeModifier, derived.generated⟩
  checksum : s.index.view.checksumOf { position with checksum := 0 } = .ok derived.checksum
  checkpoint : s.parameters.enforceCheckpoint derived.height derived.checksum = .ok ()
  position : position = { b.unsummed prev derived.height derived.proof derived.entropy
    ⟨derived.stakeModifier, derived.generated⟩ with checksum := derived.checksum }

theorem evaluateAfter_eq_ok (h : s.evaluateAfter b prev = .ok (position, derived)) :
    s.Evaluated b prev position derived := by
  simp only [evaluateAfter, bind_eq_ok, mapError_eq_ok, pure_eq_ok, Prod.mk.injEq] at h
  obtain ⟨proof, hproof, ⟨⟩, hspendable, height, hheight, next, hnext, checksum, hchecksum, ⟨⟩,
    hcheckpoint, rfl, rfl⟩ := h
  exact ⟨hproof, hspendable, hheight, rfl, hnext, hchecksum, hcheckpoint, rfl⟩

/-- A coinstake has passed its check behind the predecessor of its block. -/
theorem Evaluated.checkCoinstake (he : s.Evaluated b prev position derived) {tx : Transaction}
    (htx : b.coinstake? = some tx) : ∃ id proof, prev = some id ∧ derived.proof = some proof ∧
      s.index.view.checkCoinstake (s.outputs.outputView s.index.view prev) s.parameters id tx b.nBits
        b.time = .ok proof := by
  have hproof := he.proof
  cases prev with
  | none => simp [ChainState.proofOf, htx] at hproof
  | some id =>
    simp only [ChainState.proofOf, htx] at hproof
    split at hproof
    · rename_i proof hcheck
      exact ⟨id, proof, rfl, (Except.ok.inj hproof).symm, hcheck⟩
    · simp at hproof

theorem Evaluated.proof_none (he : s.Evaluated b prev position derived) (htx : b.coinstake? = none) :
    derived.proof = none := by
  simpa [ChainState.proofOf, htx, eq_comm] using he.proof

/-- The predecessor of a block that may be checked: its hash is new, and it names a position or is
the first block. -/
theorem predecessor_eq_ok : s.predecessor b = .ok prev ↔ s.index.view.lookup b.hash = none ∧
    ((∃ h id, b.prevHash = some h ∧ s.index.view.lookup h = some id ∧ prev = some id) ∨
      (b.prevHash = none ∧ s.index.size = 0 ∧ prev = none)) := by
  unfold predecessor ChainIndex.lookup?
  cases hlook : s.index.view.lookup b.hash with
  | some i => simp
  | none =>
    cases hprev : b.prevHash with
    | none =>
      by_cases he : s.index.size = 0
      · have : s.index.isEmpty = true := ChainIndex.isEmpty_iff.2 he
        simp [he, this, eq_comm]
      · have : s.index.isEmpty = false := Bool.eq_false_iff.2 (mt ChainIndex.isEmpty_iff.1 he)
        simp [he, this]
    | some h =>
      cases hid : s.index.view.lookup h with
      | none => simp [hid]
      | some id => simp [hid, eq_comm]

theorem predecessor_indexed (hl : s.index.view.Linked) (h : s.predecessor b = .ok prev) :
    s.index.view.Indexed prev := by
  obtain ⟨-, ⟨hash, id, -, hid, rfl⟩ | ⟨-, -, rfl⟩⟩ := predecessor_eq_ok.1 h
  · obtain ⟨a, ha, -⟩ := hl.lookup_iff.1 hid
    exact View.indexed_some.2 ⟨a, ha⟩
  · exact View.indexed_none

/-- The block before a new block is none, or has the hash that the new block names. -/
theorem prevHash_eq (hl : s.index.view.Linked) (h : s.predecessor b = .ok prev) :
    b.prevHash = s.hashAt prev := by
  obtain ⟨-, ⟨hash, id, hhash, hid, rfl⟩ | ⟨hhash, -, rfl⟩⟩ := predecessor_eq_ok.1 h
  · obtain ⟨a, ha, rfl⟩ := hl.lookup_iff.1 hid
    rw [hhash, hashAt_some ha]
  · exact hhash

/-! ### What a block gets behind an indexed one -/

/-- The height of a block after `prev`. -/
def heightAfter (s : ChainState) (prev : Option Nat) : Nat :=
  ((prev.bind s.index.view.position).map fun a => a.height + 1).getD 0

/-- The checksum that chains a block after `prev` to the one before. -/
def checksumAfter (s : ChainState) (b : CandidateBlock) (prev : Option Nat) (proof : Option Hash)
    (next : NextModifier) : UInt32 :=
  modifierChecksum ((prev.bind s.index.view.position).map Position.checksum)
    (.ofFacts proof.isSome (s.parameters.entropy b.time b.hash b.signatureDigest) next.generated)
    (proof.getD .zero) next.modifier

theorem nextHeight_eq (hix : s.index.view.Indexed prev) :
    s.nextHeight prev = .ok (s.heightAfter prev) := by
  cases prev with
  | none => rfl
  | some id =>
    obtain ⟨a, ha⟩ := View.indexed_some.1 hix
    simp only [nextHeight, ChainIndex.position?, heightAfter, Option.bind_some, ha, Option.map_some,
      Option.getD_some]

theorem checksumOf_unsummed {proof : Option Hash} (hix : s.index.view.Indexed prev) (height : Nat)
    (next : NextModifier) :
    s.index.view.checksumOf (b.unsummed prev height proof
      (s.parameters.entropy b.time b.hash b.signatureDigest) next) =
      .ok (s.checksumAfter b prev proof next) := by
  cases prev with
  | none =>
    rw [View.checksumOf_none rfl]
    rfl
  | some id =>
    obtain ⟨a, ha⟩ := View.indexed_some.1 hix
    rw [View.checksumOf_some rfl ha, checksumAfter, Option.bind_some, ha]
    rfl

/-! ### What an acceptance does -/

/-- The state with a block connected at the end. -/
def connected (s : ChainState) (b : CandidateBlock) (position : Position) : ChainState where
  parameters := s.parameters
  index := s.index.push position
  outputs := s.outputs.connect (s.index.push position).view s.index.size
    ⟨position.hash, position.height, position.time⟩ b.transactions
  coinstakes := s.coinstakes ++ (b.coinstake?.map fun tx => ⟨s.index.size, tx, b.nBits⟩).toList

/-- A block that was checked fits behind its predecessor. -/
theorem Evaluated.checkInsert (he : s.Evaluated b prev position derived)
    (hl : s.index.view.Linked) (hprev : s.predecessor b = .ok prev) :
    s.index.checkInsert position = .ok () := by
  have hpos := he.position
  have hheight := he.height
  obtain ⟨hnew, hcases⟩ := predecessor_eq_ok.1 hprev
  rw [ChainIndex.checkInsert_eq_ok]
  refine ⟨by rw [hpos]; exact hnew, ?_, ?_⟩
  · intro id hid
    obtain rfl : prev = some id := by rw [hpos] at hid; exact hid
    obtain ⟨a, ha⟩ := View.indexed_some.1 (predecessor_indexed hl hprev)
    simp only [nextHeight, ChainIndex.position?, ha, Except.ok.injEq] at hheight
    exact ⟨a, ha, by rw [hpos, hheight]; rfl⟩
  · intro hnone
    obtain rfl : prev = none := by rw [hpos] at hnone; exact hnone
    simp only [nextHeight, Except.ok.injEq] at hheight
    rcases hcases with ⟨_, _, -, -, hsome⟩ | ⟨-, hempty, -⟩
    · simp at hsome
    · exact ⟨hempty, by rw [hpos, hheight]; rfl⟩

/-- A block is accepted exactly when its check succeeds, and connects at the position derived. -/
theorem accept_eq_ok {a : AcceptedBlock} (hl : s.index.view.Linked) : s.accept b = .ok (s', a) ↔
    ∃ prev position, s.predecessor b = .ok prev ∧
      s.evaluateAfter b prev = .ok (position, a.block) ∧ a.id = s.index.size ∧
      s' = s.connected b position := by
  simp only [accept, evaluate, bind_eq_ok, pure_eq_ok, Prod.exists, Prod.mk.injEq]
  constructor
  · rintro ⟨position, derived, ⟨prev, hprev, heval⟩, ix, id, hinsert, rfl, rfl⟩
    obtain ⟨-, rfl, rfl⟩ := ChainIndex.insert_eq_ok.1 hinsert
    exact ⟨prev, position, hprev, heval, rfl, rfl⟩
  · rintro ⟨prev, position, hprev, heval, hid, rfl⟩
    have hfits := (evaluateAfter_eq_ok heval).checkInsert hl hprev
    refine ⟨position, a.block, ⟨prev, hprev, heval⟩, s.index.push position, s.index.size,
      ChainIndex.insert_eq_ok.2 ⟨hfits, rfl, rfl⟩, rfl, ?_⟩
    rw [← hid]

end ChainState

end StakeChain
