import StakeChain.Proofs.Atomic
import StakeChain.Proofs.Revalidate
import StakeChain.Proofs.Staking
/-!
Errors that no request can cause. The checks guard against views that are damaged and against inputs that
are not what they claim to be; the state of a chain is its own view, and what it keeps of its index and
of its outputs rules all of these errors out. What is left to go wrong lies in the request.
-/

namespace StakeChain

/-- Whether a verdict falls only on what is no coinstake, or no output of the branch. -/
def Rejection.isInternal : Rejection → Bool
  | .notCoinstake _ => true
  | .prevoutNotInChain _ _ => true
  | _ => false

def ConsensusError.isInternal : ConsensusError → Bool
  | .rejected reason => reason.isInternal
  | _ => true

/-- Whether an error tells of the state and not of the request. -/
def StateError.isInternal : StateError → Bool
  | .consensus e => e.isInternal
  | .positionNotFound _ => true
  | .noBestTip => true
  | .proofMismatch _ _ _ => true
  | .predecessorNotIndexed _ => true
  | .wrongHeight _ _ => true
  | .genesisHeight _ => true
  | .stakedWithoutPredecessor => true
  | _ => false

/-- An error that the block itself has caused. A stake is refused as a first block only where the block is
one without predecessor. -/
structure StateError.CausedBy (e : StateError) (b : CandidateBlock) : Prop where
  notInternal : e.isInternal = false
  staked : e = .stakedGenesis → b.isProofOfStake = true ∧ b.prevHash = none

/-- What can end a search for a time at which an output stakes: there is no block, or no such output at
the best tip, or its block is too young. -/
inductive StateError.EndsSearch (s : ChainState) (o : OutPoint) : StateError → Prop where
  | empty : s.index.isEmpty = true → EndsSearch s o .noBestTip
  | missing {tip : Nat} : s.index.best = some tip →
      s.outputs.get? s.index.view (some tip) o = none → EndsSearch s o (.missingInput o)
  | young {tip : Nat} {source : StakeSource} : s.index.best = some tip →
      s.outputs.get? s.index.view (some tip) o = some source →
      EndsSearch s o (.rejected (.modifierNotYetAvailable source.block.hash))

/-! ### Verdicts on times and kernels -/

theorem Parameters.checkCoinstakeTime_fails (p : Parameters) (blockTime txTime : UInt32) :
    FailsOnly (·.isInternal = false) (p.checkCoinstakeTime blockTime txTime) :=
  .ite (fun _ => .error rfl) fun _ => .ite (fun _ => .ok) fun _ => .error rfl

theorem Parameters.enforceCheckpoint_fails (p : Parameters) (height : Nat) (checksum : UInt32) :
    FailsOnly (·.isInternal = false) (p.enforceCheckpoint height checksum) := by
  unfold enforceCheckpoint
  cases p.checkpoints.get? height with
  | none => exact .ok
  | some expected => exact .ite (fun _ => .ok) fun _ => .error rfl

theorem StakeSource.checkTimes_fails (source : StakeSource) (p : Parameters) (time : UInt32) :
    FailsOnly (·.isInternal = false) (source.checkTimes p time) :=
  .ite (fun _ => .error rfl) fun _ => .ite (fun _ => .error rfl) fun _ => .ok

theorem StakeSource.checkKernel_fails (source : StakeSource) (p : Parameters) (m : KernelModifier)
    (nBits time : UInt32) : FailsOnly (·.isInternal = false) (source.checkKernel p m nBits time) :=
  (source.checkTimes_fails p time).bind fun _ _ => .guard (fun _ => rfl) fun _ => .ok

/-! ### Walks along a branch -/

/-- The branch that ends at `id` has the block at its height. -/
def View.HasBlock (v : View) (id : Nat) (block : SourceBlock) : Prop :=
  ((v.branch (some id)).find? (·.height == block.height)).map Position.hash = some block.hash

/-- The view shows outputs only of the branch that ends at `id`, and can load them all. -/
def OutputView.OfBranch (outputs : OutputView) (v : View) (id : Nat) : Prop :=
  ∀ o, ∃ found, outputs o = .ok found ∧ ∀ source ∈ found, v.HasBlock id source.block

namespace View.Linked

variable {v : View} {id : Nat} {b : Position} {p : Parameters} {outputs : OutputView}
  {tx : Transaction} {o : OutPoint}

section

variable (hl : v.Linked) (hb : v.position id = some b)

include hl hb

/-- For a block of the branch, all that can be missing is the modifier. -/
theorem kernelModifier_fails {source : SourceBlock} (hon : v.HasBlock id source) (time : UInt32) :
    FailsOnly (· = .rejected (.modifierNotYetAvailable source.hash))
      (v.kernelModifier p id source time) := by
  have hsame : v.SameBranch id v id := ⟨hl, hl, ⟨b, hb⟩, ⟨b, hb⟩, rfl⟩
  obtain ⟨k, a, -, -, hlook, hk, -, -, -, hbelow⟩ := hsame.lookup hon
  rw [hl.kernelModifier_eq hb, if_neg (Nat.not_lt.2 (hbelow b hb)), hlook]
  simp only [resolve_eq hk]
  refine .ite (fun _ => .ok) fun _ => .ite (fun _ => .ok) fun _ => ?_
  split
  · exact .error rfl
  · exact .ok
  · exact .ok

/-- An output of the branch is found by the coinstake that stakes it. -/
theorem kernelSource_found {source : StakeSource} (ho : tx.kernelInput? = some o)
    (hfound : outputs o = .ok (some source)) (hon : v.HasBlock id source.block) :
    v.kernelSource outputs id tx = .ok source := by
  rw [HasBlock] at hon
  rw [hl.kernelSource_eq hb]
  simp only [ho, OutputView.source, hfound, bind, Except.bind, pure, Except.pure, hon, if_true]

/-- Among outputs of the branch, a coinstake's kernel is found or does not exist. -/
theorem kernelSource_fails (hout : outputs.OfBranch v id) (ho : tx.kernelInput? = some o) :
    FailsOnly (· = .rejected (.prevoutNotFound o)) (v.kernelSource outputs id tx) := by
  obtain ⟨found, hfound, hon⟩ := hout o
  cases found with
  | none =>
    rw [hl.kernelSource_eq hb]
    simp only [ho, OutputView.source, hfound]
    exact .error rfl
  | some source => exact .of_exists ⟨source, hl.kernelSource_found hb ho hfound (hon source rfl)⟩

theorem checkCoinstake_fails (hout : outputs.OfBranch v id) (ho : tx.kernelInput? = some o)
    (nBits blockTime : UInt32) :
    FailsOnly (·.isInternal = false) (v.checkCoinstake outputs p id tx nBits blockTime) := by
  have verdict : ∀ r : Rejection, r.isInternal = false →
      (ConsensusError.rejected r).isInternal = false := fun _ h => h
  unfold checkCoinstake
  refine ((hl.kernelSource_fails hb hout ho).mono ?_).bind fun source hsource => ?_
  · rintro _ rfl
    rfl
  obtain ⟨o', ho', hfound, hon⟩ := hl.kernelSource_ok hb hsource
  -- With the source on the branch, only its times, its depth and its kernel are left to refuse.
  refine ((p.checkCoinstakeTime_fails _ _).mono verdict).mapError.bind fun _ _ => ?_
  refine (FailsOnly.of_exists ⟨b, resolve_eq hb⟩).bind fun _ _ => ?_
  refine .guard (fun _ => rfl) fun _ => ?_
  refine ((hl.kernelModifier_fails hb hon _).mono ?_).bind fun m _ => ?_
  · rintro _ rfl
    rfl
  exact ((source.checkKernel_fails p m nBits _).mono verdict).mapError

end

end View.Linked

/-! ### Checks of a block -/

/-- The inputs of a block are there to spend, or missing, or spent twice. -/
theorem OutputStore.checkSpends_fails (available : OutPoint → Bool) (spent : List OutPoint)
    (spends : List (OutPoint × List OutPoint)) :
    FailsOnly (fun e => ∃ o, e = .doubleSpend o ∨ e = .missingInput o)
      (checkSpends available spent spends) := by
  induction spends generalizing spent with
  | nil => exact .ok
  | cons input rest ih =>
    obtain ⟨o, created⟩ := input
    refine .ite (fun _ => ih spent) fun _ => .ite (fun _ => .error ⟨o, Or.inl rfl⟩) fun _ => ?_
    exact .ite (fun _ => .error ⟨o, Or.inr rfl⟩) fun _ => ih (o :: spent)

namespace ChainState

variable {s : ChainState} {b : CandidateBlock} {prev : Option Nat} {id : Nat} {a : Position}

/-- What is live at a tip was created by a block of its branch. -/
theorem Staked.hasBlock (hs : s.Staked) (hl : s.index.view.Linked)
    (ha : s.index.view.position id = some a) {o : OutPoint} {source : StakeSource}
    (hget : s.outputs.get? s.index.view (some id) o = some source) :
    s.index.view.HasBlock id source.block := by
  rw [OutputStore.get?, ← Array.find?_toList, Option.map_eq_some_iff] at hget
  obtain ⟨e, hfind, rfl⟩ := hget
  have hlive : OutputStore.isLive s.index.view (some id) o e = true := List.find?_some hfind
  obtain ⟨c, hc, hblock⟩ := hs.placed e (List.mem_of_find?_eq_some hfind)
  have hcreator := (OutputEntry.liveAt_iff.1 (Bool.and_eq_true_iff.1 hlive).2).1
  -- A creator on the branch is the ancestor at its own height, so it is what the branch has there.
  rw [View.onBranch_eq hc, beq_iff_eq] at hcreator
  have hfound := hl.ancestor_position (h := c.height) (some id) (View.indexed_some.2 ⟨a, ha⟩)
  rw [hcreator, Option.bind_some, hc] at hfound
  rw [View.HasBlock, hblock, ← hfound]
  rfl

theorem Staked.ofBranch (hs : s.Staked) (hl : s.index.view.Linked)
    (ha : s.index.view.position id = some a) :
    (s.outputs.outputView s.index.view (some id)).OfBranch s.index.view id :=
  fun _ => ⟨_, rfl, fun _ hsource => hs.hasBlock hl ha hsource⟩

theorem proofOf_fails (hl : s.index.view.Linked) (hs : s.Staked)
    (hprev : s.predecessor b = .ok prev) :
    FailsOnly (·.CausedBy b) (s.proofOf b prev) := by
  unfold proofOf
  cases htx : b.coinstake? with
  | none => exact .ok
  | some tx =>
    obtain ⟨-, o, ho⟩ := CandidateBlock.coinstake?_eq_some htx
    cases prev with
    | none =>
      obtain ⟨-, ⟨_, _, -, -, hsome⟩ | ⟨hnone, -, -⟩⟩ := predecessor_eq_ok.1 hprev
      · simp at hsome
      · exact .error ⟨rfl, fun _ => ⟨by rw [CandidateBlock.isProofOfStake, htx]; rfl, hnone⟩⟩
    | some id =>
      obtain ⟨a, ha⟩ := View.indexed_some.1 (predecessor_indexed hl hprev)
      have hcheck := hl.checkCoinstake_fails (p := s.parameters) ha (hs.ofBranch hl ha) ho b.nBits
        b.time
      dsimp only
      split
      · exact .ok
      · rename_i e herror
        exact .error ⟨hcheck e herror, by simp⟩

/-- Behind an indexed block the next modifier is known, since the first block has generated one. -/
theorem exists_nextModifier (hs : s.Sound) (hp : 0 < s.parameters.modifierInterval)
    (hix : s.index.view.Indexed prev) :
    ∃ next, s.index.view.nextModifier s.parameters prev = .ok next := by
  cases prev with
  | none => exact ⟨⟨0, true⟩, rfl⟩
  | some id =>
    obtain ⟨a, ha⟩ := View.indexed_some.1 hix
    obtain ⟨last, hlast⟩ := Option.isSome_iff_exists.1
      (List.find?_isSome.2 (hs.exists_generated ⟨a, ha⟩))
    rw [hs.linked.ordered.nextModifier_eq ha hlast, if_neg (UInt32.ne_of_lt hp).symm]
    split
    · exact ⟨_, rfl⟩
    · exact ⟨_, rfl⟩

theorem predecessor_fails (s : ChainState) (b : CandidateBlock) :
    FailsOnly (·.CausedBy b) (s.predecessor b) := by
  unfold predecessor
  refine .ite (fun _ => .error ⟨rfl, by simp⟩) fun _ => ?_
  cases b.prevHash with
  | none => exact .ite (fun _ => .ok) fun _ => .error ⟨rfl, by simp⟩
  | some h =>
    dsimp only
    cases s.index.lookup? h with
    | none => exact .error ⟨rfl, by simp⟩
    | some id => exact .ok

/-- A check of a block fails only with an error that the block has caused. -/
theorem evaluate_fails (hs : s.Sound) (hk : s.Staked) (hp : 0 < s.parameters.modifierInterval)
    (b : CandidateBlock) : FailsOnly (·.CausedBy b) (s.evaluate b) := by
  refine (s.predecessor_fails b).bind fun prev hprev => ?_
  have hix := predecessor_indexed hs.linked hprev
  unfold evaluateAfter
  refine (proofOf_fails hs.linked hk hprev).bind fun proof _ => ?_
  refine ((OutputStore.checkSpends_fails _ _ _).mono ?_).bind fun _ _ => ?_
  · rintro _ ⟨o, rfl | rfl⟩
    · exact ⟨rfl, by simp⟩
    · exact ⟨rfl, by simp⟩
  refine (FailsOnly.of_exists ⟨_, nextHeight_eq hix⟩).bind fun height _ => ?_
  refine (FailsOnly.of_exists (exists_nextModifier hs hp hix)).mapError.bind fun next _ => ?_
  refine (FailsOnly.of_exists ⟨_, checksumOf_unsummed hix height next⟩).mapError.bind fun checksum _ => ?_
  refine ((s.parameters.enforceCheckpoint_fails height checksum).mono ?_).mapError.bind
    fun _ _ => .ok
  intro r hr
  exact ⟨hr, by simp [StateError.rejected]⟩

/-- A search fails with one of the three errors that can end it. -/
theorem search_fails (hs : s.Sound) (hk : s.Staked) (o : OutPoint) (nBits first last : UInt32) :
    FailsOnly (·.EndsSearch s o) (s.search o nBits first last) := by
  unfold search
  cases hbest : s.index.best with
  | none => exact .error (.empty (ChainIndex.isEmpty_iff.2 (hs.index.best_none hbest)))
  | some tip =>
    obtain ⟨a, ha, -⟩ := hs.index.best_some hbest
    dsimp only
    cases hget : s.outputs.get? s.index.view (some tip) o with
    | none => exact .error (.missing hbest hget)
    | some source =>
      have hmodifier := hs.linked.kernelModifier_fails ha (p := s.parameters)
        (hk.hasBlock hs.linked ha hget) first
      refine ((hmodifier.mono ?_).mapError).bind fun _ _ => .ok
      rintro _ rfl
      exact .young hbest hget

end ChainState

/-- What was accepted can always be checked again. -/
theorem Run.Faithful.revalidate_fails {r : Run} (hf : r.Faithful) (id : Nat) :
    FailsOnly (fun e => r.state.index.size ≤ id ∧ e = .positionNotFound id)
      (r.state.revalidate id) := by
  cases hb : r.state.index.view.position id with
  | some b =>
    obtain ⟨c, d, h⟩ := hf.records hb
    exact .of_exists ⟨_, h.revalidate⟩
  | none =>
    have hout : r.state.index.size ≤ id := by
      by_contra hlt
      obtain ⟨b, hsome⟩ := ChainIndex.exists_position (Nat.not_le.1 hlt)
      simp [hsome] at hb
    have hfound : r.state.index.position? id = none := hb
    simp only [ChainState.revalidate, hfound]
    exact .error ⟨hout, rfl⟩

/-- Along every run no request meets an internal error. What fails the check of a block lies in the
block, and it is a stake without a predecessor where the state refuses one as a first block. A search
fails on the empty chain, or for an output that is missing or too young; and checking a block again
fails only for an id that was never given. -/
theorem internal_unreachable (p : Parameters) (hp : 0 < p.modifierInterval)
    (offers : List CandidateBlock) :
    let s := (Run.of p offers).state
    (∀ b, FailsOnly (·.CausedBy b) (s.check b)) ∧
    (∀ b, FailsOnly (·.CausedBy b) (s.accept b)) ∧
    (∀ o nBits first last, FailsOnly (·.EndsSearch s o) (s.search o nBits first last)) ∧
    (∀ id, FailsOnly (fun e => s.index.size ≤ id ∧ e = .positionNotFound id) (s.revalidate id)) := by
  intro s
  have hr := Run.reached_of p offers
  have hs : s.Sound := hr.faithful.sound
  have hchecks : ∀ b, FailsOnly (·.CausedBy b) (s.check b) := fun b =>
    (ChainState.evaluate_fails hs hr.staked (by rw [hr.parameters]; exact hp) b).map _
  refine ⟨hchecks, fun b e herror => ?_, ?_, hr.faithful.revalidate_fails⟩
  · exact hchecks b e ((ChainState.accept_eq_error hs.linked).1 herror)
  · exact ChainState.search_fails hs hr.staked

namespace SmallChain

/-- The output that the first block has created and the staked block has spent. -/
def kernel : OutPoint := ⟨digest 1, 0⟩

/-- A block after the staked one that stakes the same output again. -/
def again : CandidateBlock := { after 13 1600003664 [stake 5] with prevHash := some staked.hash }

end SmallChain

open SmallChain in
/-- After the staked block its kernel is gone: a check, a search and a check of an id that was not given
fail, none of them with an internal error. -/
theorem internal_unreachable_spent :
    0 < parameters.modifierInterval ∧
    (StateError.rejected (.prevoutNotFound kernel)).CausedBy again ∧
    (StateError.missingInput kernel).EndsSearch (Run.of parameters [first, staked]).state kernel ∧
    (Run.of parameters [first, staked]).state.index.size ≤ 2 := by
  have hp : 0 < parameters.modifierInterval := by decide
  obtain ⟨hcheck, -, hsearch, hrevalidate⟩ := internal_unreachable parameters hp [first, staked]
  have hfail : (Run.of parameters [first, staked]).state.check again =
        .error (.rejected (.prevoutNotFound kernel)) ∧
      (Run.of parameters [first, staked]).state.search kernel 0x207fffff 0 0 =
        .error (.missingInput kernel) ∧
      (Run.of parameters [first, staked]).state.revalidate 2 = .error (.positionNotFound 2) := by
    decide +kernel
  obtain ⟨hrefused, hmissing, hnone⟩ := hfail
  exact ⟨hp, hcheck again _ hrefused, hsearch kernel 0x207fffff 0 0 _ hmissing,
    (hrevalidate 2 _ hnone).1⟩

end StakeChain
