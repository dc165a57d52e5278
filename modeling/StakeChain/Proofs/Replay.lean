import StakeChain.Proofs.Atomic
import StakeChain.Proofs.Recompute
import StakeChain.Tool.Replay
/-!
Replays with checkpoints and without. The checkpoint is the last check of a block and no other check reads the
table, so a state that enforces checkpoints goes the same way as one that does not, block by block, until a
block is refused by both or contradicts a checkpoint; and a refused block leaves nothing behind.
-/

namespace StakeChain

/-! ### The draw of modifiers and the table of checkpoints -/

section Interval

variable {p q : Parameters} (h : p.modifierInterval = q.modifierInterval)

include h

theorem Candidate.winners_congr (left round : Nat) (stop : Int) (candidates : List Candidate) :
    winners p left round stop candidates = winners q left round stop candidates := by
  have hsection : p.selectionSection = q.selectionSection := by
    funext n
    rw [Parameters.selectionSection, Parameters.selectionSection, h]
  induction left generalizing round stop candidates with
  | zero => rfl
  | succ left ih => simp only [winners, hsection, ih]

/-- Of all parameters the next modifier depends on the modifier interval only. -/
theorem View.nextModifier_congr (v : View) (prev : Option Nat) :
    v.nextModifier p prev = v.nextModifier q prev := by
  have hinterval : p.intervalOf = q.intervalOf := by
    funext time
    rw [Parameters.intervalOf, Parameters.intervalOf, h]
  have hselection : p.selectionInterval = q.selectionInterval := by
    rw [Parameters.selectionInterval, Parameters.selectionInterval, h]
  cases prev with
  | none => rfl
  | some prev =>
    simp only [nextModifier, drawModifier, Candidate.winners_congr h, hinterval, hselection, h]

end Interval

/-- A checkpoint pins a checksum at a height, and the checksum is another. -/
def Checkpoints.Contradicts (c : Checkpoints) (height : Nat) (checksum pinned : UInt32) : Prop :=
  c.get? height = some pinned ∧ pinned ≠ checksum

/-- A checksum passes where no checkpoint contradicts it. -/
theorem Parameters.enforceCheckpoint_cases (p : Parameters) (height : Nat) (checksum : UInt32) :
    (p.enforceCheckpoint height checksum = .ok () ∧
      ∀ pinned, ¬ p.checkpoints.Contradicts height checksum pinned) ∨
    ∃ pinned, p.checkpoints.Contradicts height checksum pinned ∧
      p.enforceCheckpoint height checksum = .error (.checkpointMismatch height checksum pinned) := by
  rw [enforceCheckpoint]
  cases hget : p.checkpoints.get? height with
  | none =>
    refine .inl ⟨rfl, fun pinned hpinned => ?_⟩
    simp [Checkpoints.Contradicts, hget] at hpinned
  | some pinned =>
    by_cases heq : pinned = checksum
    · refine .inl ⟨if_pos heq, fun pinned' hpinned => ?_⟩
      obtain ⟨hget', hne⟩ := hpinned
      obtain rfl := Option.some.inj (hget.symm.trans hget')
      exact hne heq
    · exact .inr ⟨pinned, ⟨hget, heq⟩, if_neg heq⟩

namespace ChainState

variable {s s' : ChainState} {b : CandidateBlock} {a : AcceptedBlock}

/-- The state with no checkpoint to enforce. -/
def unchecked (s : ChainState) : ChainState := { s with parameters := s.parameters.withoutCheckpoints }

theorem unchecked_nextModifier (s : ChainState) (prev : Option Nat) :
    s.index.view.nextModifier s.unchecked.parameters prev =
      s.index.view.nextModifier s.parameters prev := by
  have hinterval : s.unchecked.parameters.modifierInterval = s.parameters.modifierInterval := rfl
  exact View.nextModifier_congr hinterval s.index.view prev

/-- The checks of a block are those made without checkpoints, and then that of the checkpoint. -/
theorem evaluateAfter_eq_unchecked (s : ChainState) (b : CandidateBlock) (prev : Option Nat) :
    s.evaluateAfter b prev = s.unchecked.evaluateAfter b prev >>= fun r =>
      (s.parameters.enforceCheckpoint r.2.height r.2.checksum).mapError .rejected >>= fun _ => pure r := by
  have hview : s.unchecked.index.view = s.index.view := rfl
  have houtputs : s.unchecked.outputs = s.outputs := rfl
  have hproof : s.unchecked.proofOf b prev = s.proofOf b prev := rfl
  have hheight : s.unchecked.nextHeight prev = s.nextHeight prev := rfl
  have hentropy : s.unchecked.parameters.entropy b.time b.hash b.signatureDigest =
      s.parameters.entropy b.time b.hash b.signatureDigest := rfl
  have hkept : ∀ height checksum, s.unchecked.parameters.enforceCheckpoint height checksum = .ok () :=
    fun _ _ => rfl
  simp only [evaluateAfter, hview, houtputs, hproof, hheight, hentropy, hkept, unchecked_nextModifier]
  cases s.proofOf b prev with
  | error e => rfl
  | ok proof =>
    cases s.outputs.checkSpendable s.index.view prev b.transactions with
    | error e => rfl
    | ok _ =>
      cases s.nextHeight prev with
      | error e => rfl
      | ok height =>
        cases s.index.view.nextModifier s.parameters prev with
        | error e => rfl
        | ok next =>
          simp only [bind, Except.bind, mapError_ok]
          cases s.index.view.checksumOf _ <;> rfl

theorem evaluate_eq_unchecked (s : ChainState) (b : CandidateBlock) :
    s.evaluate b = s.unchecked.evaluate b >>= fun r =>
      (s.parameters.enforceCheckpoint r.2.height r.2.checksum).mapError .rejected >>= fun _ => pure r := by
  have hprev : s.unchecked.predecessor b = s.predecessor b := rfl
  rw [evaluate, evaluate, hprev]
  cases s.predecessor b with
  | error e => rfl
  | ok prev => exact evaluateAfter_eq_unchecked s b prev

/-- An acceptance with checkpoints against one without: both are refused alike; both accept the block, and
no checkpoint contradicts it; or a checkpoint does, and only the first is refused. -/
theorem accept_cases (hl : s.index.view.Linked) (b : CandidateBlock) :
    (∃ e, s.unchecked.accept b = .error e ∧ s.accept b = .error e) ∨
    (∃ s' a, s.unchecked.accept b = .ok (s'.unchecked, a) ∧ s.accept b = .ok (s', a) ∧
      ∀ pinned, ¬ s.parameters.checkpoints.Contradicts a.block.height a.block.checksum pinned) ∨
    ∃ s' a pinned, s.unchecked.accept b = .ok (s', a) ∧
      s.parameters.checkpoints.Contradicts a.block.height a.block.checksum pinned ∧
      s.accept b = .error (.rejected (.checkpointMismatch a.block.height a.block.checksum pinned)) := by
  have hl' : s.unchecked.index.view.Linked := hl
  rw [accept_eq hl, accept_eq hl', evaluate_eq_unchecked s b]
  cases s.unchecked.evaluate b with
  | error e => exact .inl ⟨e, rfl, rfl⟩
  | ok r =>
    rcases s.parameters.enforceCheckpoint_cases r.2.height r.2.checksum with
      ⟨hkept, hfree⟩ | ⟨pinned, hpinned, hrefused⟩
    · refine .inr (.inl ⟨s.connected b r.1, ⟨s.index.size, r.2⟩, rfl, ?_, hfree⟩)
      simp only [bind, Except.bind, hkept, mapError_ok]
      rfl
    · refine .inr (.inr ⟨s.unchecked.connected b r.1, ⟨s.index.size, r.2⟩, pinned, rfl, hpinned, ?_⟩)
      simp only [bind, Except.bind, hrefused, mapError_error]
      rfl

theorem Sound.accept (hs : s.Sound) (h : s.accept b = .ok (s', a)) :
    s'.Sound ∧ s'.parameters = s.parameters ∧ ∃ position : Position, position.Shows b a.block ∧
      s'.index.positions = s.index.positions.push position := by
  obtain ⟨prev, position, hprev, heval, -, rfl⟩ := (accept_eq_ok hs.linked).1 h
  have he := evaluateAfter_eq_ok heval
  exact ⟨he.sound hs hprev, rfl, position, he.shows, rfl⟩

end ChainState

/-! ### Where a replay is cut short -/

namespace Replay

/-- With its first block at `place` of the fixture, the replay gives a reason to stop at block `i`: it was
refused there itself, or the row that it derived there contradicts a checkpoint. -/
inductive Stops (c : Checkpoints) (place : Nat) (u : Replay) : Nat → ToolError → Prop where
  | refused {error} : u.failure = some error → Stops c place u u.rows.length error
  | contradicted {i row pinned} : u.rows[i]? = some row → c.Contradicts row.height row.checksum pinned →
      Stops c place u i (.blockRefused (place + i) row.hash
        (.rejected (.checkpointMismatch row.height row.checksum pinned)))

/-- The first block at which there is a reason to stop, and the reason. -/
def StopsFirst (c : Checkpoints) (place : Nat) (u : Replay) (i : Nat) (error : ToolError) : Prop :=
  u.Stops c place i error ∧ ∀ j < i, ∀ error', ¬ u.Stops c place j error'

/-- The replay that has one more row in front. -/
def after (row : ReplayRow) (u : Replay) : Replay := { u with rows := row :: u.rows }

variable {place i : Nat} {s : ChainState} {b : CandidateBlock} {blocks rest : List CandidateBlock}
  {c : Checkpoints} {error : ToolError} {u : Replay} {row : ReplayRow}

theorem stops_after_succ : (u.after row).Stops c place (i + 1) error ↔ u.Stops c (place + 1) i error := by
  have hplace : place + (i + 1) = place + 1 + i := by omega
  constructor
  · intro hstops
    generalize hj : i + 1 = j at hstops
    cases hstops with
    | refused hfailure =>
      obtain rfl : i = u.rows.length := by simpa [after] using hj
      exact .refused hfailure
    | contradicted hrow hpinned =>
      subst hj
      rw [hplace]
      exact .contradicted (by simpa [after] using hrow) hpinned
  · intro hstops
    cases hstops with
    | refused hfailure => exact .refused (u := u.after row) hfailure
    | contradicted hrow hpinned =>
      rw [← hplace]
      exact .contradicted (by simpa [after] using hrow) hpinned

/-- The one reason to stop at the first of several blocks is that its row contradicts a checkpoint. -/
theorem stops_after_zero : (u.after row).Stops c place 0 error ↔
    ∃ pinned, c.Contradicts row.height row.checksum pinned ∧
      error = .blockRefused place row.hash
        (.rejected (.checkpointMismatch row.height row.checksum pinned)) := by
  constructor
  · intro hstops
    generalize hj : 0 = j at hstops
    cases hstops with
    | refused => simp [after] at hj
    | @contradicted _ row' pinned hrow hpinned =>
      subst hj
      obtain rfl : row = row' := by simpa [after] using hrow
      exact ⟨pinned, hpinned, rfl⟩
  · rintro ⟨pinned, hpinned, rfl⟩
    exact .contradicted (u := u.after row) rfl hpinned

end Replay

variable {place i : Nat} {s : ChainState} {b : CandidateBlock} {blocks rest : List CandidateBlock}
  {error : ToolError}

theorem replayFrom_cons_error {e : StateError} (h : s.accept b = .error e) :
    replayFrom place s (b :: rest) = ⟨s, [], some (.blockRefused place b.hash e)⟩ := by
  rw [replayFrom, h]

theorem replayFrom_cons_ok {s' : ChainState} {a : AcceptedBlock} (h : s.accept b = .ok (s', a)) :
    replayFrom place s (b :: rest) = (replayFrom (place + 1) s' rest).after (.ofBlock b.hash a.block) := by
  rw [replayFrom, h]
  rfl

/-- A replay that has no reason to stop accepts every block, checkpoints or not. -/
theorem replayFrom_of_not_stops (hs : s.Sound)
    (h : ∀ i error, ¬ (replayFrom place s.unchecked blocks).Stops s.parameters.checkpoints place i error) :
    (replayFrom place s blocks).failure = none ∧
      (replayFrom place s blocks).rows = (replayFrom place s.unchecked blocks).rows ∧
      (replayFrom place s blocks).state.unchecked = (replayFrom place s.unchecked blocks).state := by
  induction blocks generalizing place s with
  | nil => exact ⟨rfl, rfl, rfl⟩
  | cons b rest ih =>
    rcases ChainState.accept_cases hs.linked b with ⟨e, hu, -⟩ | ⟨s', a, hu, he, -⟩ |
      ⟨s', a, pinned, hu, hpinned, -⟩
    · rw [replayFrom_cons_error hu] at h
      exact absurd (.refused rfl) (h 0 _)
    · rw [replayFrom_cons_ok hu] at h ⊢
      rw [replayFrom_cons_ok he]
      obtain ⟨hs', hparameters, -⟩ := hs.accept he
      obtain ⟨hfailure, hrows, hstate⟩ := ih hs' fun i error hstops =>
        h (i + 1) error (Replay.stops_after_succ.2 (hparameters ▸ hstops))
      exact ⟨hfailure, congrArg (_ :: ·) hrows, hstate⟩
    · rw [replayFrom_cons_ok hu] at h
      exact absurd (.contradicted rfl hpinned) (h 0 _)

/-- A replay with checkpoints stops where the one without them first gives a reason to. -/
theorem replayFrom_of_stopsFirst (hs : s.Sound)
    (h : (replayFrom place s.unchecked blocks).StopsFirst s.parameters.checkpoints place i error) :
    (replayFrom place s blocks).failure = some error ∧
      (replayFrom place s blocks).rows = (replayFrom place s.unchecked blocks).rows.take i ∧
      (replayFrom place s blocks).state = (replayFrom place s (blocks.take i)).state ∧
      (replayFrom place s (blocks.take i)).failure = none := by
  obtain ⟨hstops, hfirst⟩ := h
  induction blocks generalizing place s i with
  | nil =>
    cases hstops with
    | refused hfailure => simp [replayFrom] at hfailure
    | contradicted hrow => simp [replayFrom] at hrow
  | cons b rest ih =>
    rcases ChainState.accept_cases hs.linked b with ⟨e, hu, he⟩ | ⟨s', a, hu, he, hfree⟩ |
      ⟨s', a, pinned, hu, hpinned, he⟩
    · rw [replayFrom_cons_error hu] at hstops ⊢
      rw [replayFrom_cons_error he]
      cases hstops with
      | refused hfailure => exact ⟨hfailure, rfl, rfl, rfl⟩
      | contradicted hrow => simp at hrow
    · rw [replayFrom_cons_ok hu] at hstops hfirst ⊢
      rw [replayFrom_cons_ok he]
      obtain ⟨hs', hparameters, -⟩ := hs.accept he
      cases i with
      | zero =>
        obtain ⟨pinned, hpinned, -⟩ := Replay.stops_after_zero.1 hstops
        exact absurd hpinned (hfree pinned)
      | succ i =>
        rw [← hparameters] at hstops hfirst
        obtain ⟨hfailure, hrows, hstate, hprefix⟩ := ih hs'
          (Replay.stops_after_succ.1 hstops) fun j hj error' hstops' =>
            hfirst (j + 1) (by omega) error' (Replay.stops_after_succ.2 hstops')
        rw [List.take_succ_cons, replayFrom_cons_ok he]
        exact ⟨hfailure, congrArg (_ :: ·) hrows, hstate, hprefix⟩
    · rw [replayFrom_cons_ok hu] at hstops hfirst ⊢
      rw [replayFrom_cons_error he]
      cases i with
      | zero =>
        obtain ⟨pinned', hpinned', rfl⟩ := Replay.stops_after_zero.1 hstops
        obtain rfl := Option.some.inj (hpinned.1.symm.trans hpinned'.1)
        exact ⟨rfl, rfl, rfl, rfl⟩
      | succ i =>
        exact absurd (Replay.stops_after_zero.2 ⟨pinned, hpinned, rfl⟩) (hfirst 0 (by omega) _)

/-! ### What a replay leaves -/

/-- A position, as a replay shows the block that got it. -/
def ReplayRow.ofPosition (b : Position) : ReplayRow where
  height := b.height
  hash := b.hash
  stakeModifier := b.stakeModifier
  checksum := b.checksum
  generated := b.flags.generated
  proof := if b.flags.proofOfStake then some b.proofHash else none

theorem Position.Shows.row {position : Position} {d : ValidatedBlock} (h : position.Shows b d) :
    ReplayRow.ofPosition position = .ofBlock b.hash d := by
  have hproof : (if position.flags.proofOfStake then some position.proofHash else none) = d.proof := by
    rw [h.proofOfStake, h.proofHash]
    cases d.proof <;> rfl
  rw [ReplayRow.ofPosition, ReplayRow.ofBlock, hproof, h.height, h.hash, h.stakeModifier, h.checksum,
    h.generated]

/-- The rows of a replay show the positions that it has added. -/
theorem replayFrom_rows (hs : s.Sound) :
    (replayFrom place s blocks).state.index.positions.toList.map ReplayRow.ofPosition =
      s.index.positions.toList.map ReplayRow.ofPosition ++ (replayFrom place s blocks).rows := by
  induction blocks generalizing place s with
  | nil => simp [replayFrom]
  | cons b rest ih =>
    cases haccept : s.accept b with
    | error e =>
      rw [replayFrom_cons_error haccept, List.append_nil]
    | ok r =>
      obtain ⟨s', a⟩ := r
      obtain ⟨hs', -, position, hshows, hpositions⟩ := hs.accept haccept
      rw [replayFrom_cons_ok haccept]
      refine (ih hs').trans ?_
      rw [hpositions, Array.toList_push, List.map_append, List.append_assoc]
      exact congrArg _ (congrArg (· :: _) hshows.row)

/-- Every row is that of the block in its place, and the failure is that of the block after them. -/
theorem replayFrom_hashes (place : Nat) (s : ChainState) (blocks : List CandidateBlock) :
    (replayFrom place s blocks).rows.map ReplayRow.hash =
      (blocks.take (replayFrom place s blocks).rows.length).map CandidateBlock.hash := by
  induction blocks generalizing place s with
  | nil => rfl
  | cons b rest ih =>
    cases haccept : s.accept b with
    | error e => rw [replayFrom_cons_error haccept]; rfl
    | ok r =>
      rw [replayFrom_cons_ok haccept]
      exact congrArg (b.hash :: ·) (ih (place + 1) r.1)

theorem replayFrom_failure (h : (replayFrom place s blocks).failure = some error) : ∃ b cause,
    blocks[(replayFrom place s blocks).rows.length]? = some b ∧
      error = .blockRefused (place + (replayFrom place s blocks).rows.length) b.hash cause := by
  induction blocks generalizing place s with
  | nil => simp [replayFrom] at h
  | cons b rest ih =>
    cases haccept : s.accept b with
    | error e =>
      rw [replayFrom_cons_error haccept] at h ⊢
      exact ⟨b, e, rfl, (Option.some.inj h).symm⟩
    | ok r =>
      rw [replayFrom_cons_ok haccept] at h ⊢
      obtain ⟨b', cause, hb', rfl⟩ := ih h
      have hplace : place + 1 + (replayFrom (place + 1) r.1 rest).rows.length =
          place + ((replayFrom (place + 1) r.1 rest).rows.length + 1) := by omega
      exact ⟨b', cause, hb', congrArg (ToolError.blockRefused · b'.hash cause) hplace⟩

namespace Update

/-- Accepts blocks in place, one after another, up to the first that is refused; the first of them has
place `place` in its fixture. -/
def replay (place : Nat) : List CandidateBlock → EStateM ToolError ChainState (List ReplayRow)
  | [] => return []
  | b :: rest => do
    let a ← EStateM.adaptExcept (.blockRefused place b.hash) (accept b)
    let rows ← replay (place + 1) rest
    return .ofBlock b.hash a.block :: rows

/-- In place a replay leaves its state, whether it accepts every block or not. -/
theorem replay_eq (place : Nat) (blocks : List CandidateBlock) (s : ChainState) : replay place blocks s =
    match (replayFrom place s blocks).failure with
    | none => .ok (replayFrom place s blocks).rows (replayFrom place s blocks).state
    | some error => .error error (replayFrom place s blocks).state := by
  induction blocks generalizing place s with
  | nil => rfl
  | cons b rest ih =>
    simp only [replay, bind, EStateM.bind, EStateM.adaptExcept, accept_eq]
    cases haccept : s.accept b with
    | error e =>
      rw [replayFrom_cons_error haccept]
    | ok r =>
      rw [replayFrom_cons_ok haccept]
      simp only [ih, Replay.after]
      cases (replayFrom (place + 1) r.1 rest).failure <;> rfl

end Update

/-- With checkpoints, the replay of `blocks` stopped at block `i`: up to there it has the rows of the replay
without checkpoints, and its state is that of the first `i` blocks, all accepted. -/
structure Replay.StoppedAt (p : Parameters) (blocks : List CandidateBlock) (i : Nat) (error : ToolError) :
    Prop where
  failure : (replay p blocks).failure = some error
  block : ∃ b cause, blocks[i]? = some b ∧ error = .blockRefused i b.hash cause
  rows : (replay p blocks).rows = (replay p.withoutCheckpoints blocks).rows.take i
  length : (replay p blocks).rows.length = i
  state : (replay p blocks).state = (replay p (blocks.take i)).state
  accepted : (replay p (blocks.take i)).failure = none
  hashes : (replay p blocks).state.index.positions.toList.map Position.hash =
    (blocks.take i).map CandidateBlock.hash

/-- A reason to stop is at an accepted block or at the one refused. -/
theorem Replay.Stops.le_length {u : Replay} {c : Checkpoints} (h : u.Stops c place i error) :
    i ≤ u.rows.length := by
  cases h with
  | refused => exact Nat.le_refl _
  | contradicted hrow =>
    obtain ⟨hlt, -⟩ := List.getElem?_eq_some_iff.1 hrow
    exact Nat.le_of_lt hlt

theorem replay_rows (p : Parameters) (blocks : List CandidateBlock) :
    (replay p blocks).rows = (replay p blocks).state.index.positions.toList.map ReplayRow.ofPosition := by
  have hrows := @replayFrom_rows 0 (.empty p) blocks (ChainState.sound_empty p)
  exact hrows.symm

theorem replay_stoppedAt (p : Parameters) (blocks : List CandidateBlock)
    (h : (replay p.withoutCheckpoints blocks).StopsFirst p.checkpoints 0 i error) :
    Replay.StoppedAt p blocks i error := by
  obtain ⟨hfailure, hrows, hstate, haccepted⟩ :=
    @replayFrom_of_stopsFirst 0 i (.empty p) blocks error (ChainState.sound_empty p) h
  have hlength : (replay p blocks).rows.length = i := by
    have hle := h.1.le_length
    rw [replay, hrows, List.length_take]
    exact Nat.min_eq_left hle
  refine ⟨hfailure, ?_, hrows, hlength, hstate, haccepted, ?_⟩
  · have hblock := replayFrom_failure hfailure
    rw [replay] at hlength
    rw [hlength, Nat.zero_add] at hblock
    exact hblock
  · have hhashes : (replay p blocks).rows.map ReplayRow.hash =
        (blocks.take (replay p blocks).rows.length).map CandidateBlock.hash :=
      replayFrom_hashes 0 (.empty p) blocks
    rw [hlength, replay_rows, List.map_map] at hhashes
    exact hhashes

/-- Checkpoints only ever cut a replay short. Where the replay without them first gives a reason to stop, a
block that it refuses itself or a row that contradicts a checkpoint, there the replay with them stops, for
this reason; where it gives none, they are the same. In place the replay leaves the state described. -/
theorem checkpoints_cut_short (p : Parameters) (blocks : List CandidateBlock) :
    (∀ i error, (replay p.withoutCheckpoints blocks).StopsFirst p.checkpoints 0 i error →
      Replay.StoppedAt p blocks i error) ∧
    ((∀ i error, ¬ (replay p.withoutCheckpoints blocks).Stops p.checkpoints 0 i error) →
      (replay p blocks).failure = none ∧
        (replay p blocks).rows = (replay p.withoutCheckpoints blocks).rows ∧
        (replay p blocks).state.unchecked = (replay p.withoutCheckpoints blocks).state) ∧
    (replay p.withoutCheckpoints blocks).rows =
      (replay p.withoutCheckpoints blocks).state.index.positions.toList.map ReplayRow.ofPosition ∧
    Update.replay 0 blocks (.empty p) =
      match (replay p blocks).failure with
      | none => .ok (replay p blocks).rows (replay p blocks).state
      | some error => .error error (replay p blocks).state := by
  refine ⟨fun i error h => replay_stoppedAt p blocks h, fun h => ?_, replay_rows _ blocks,
    Update.replay_eq 0 blocks (.empty p)⟩
  exact @replayFrom_of_not_stops 0 (.empty p) blocks (ChainState.sound_empty p) h

namespace SmallChain

/-- Three blocks in a row, and one on another branch. -/
def forked : List CandidateBlock := [first, second, renewed, plain]

/-- The small chain's parameters with a checksum pinned that no block of the chain has. -/
def contradicted : Parameters := { parameters with checkpoints := .ofList [(2, 1)] }

end SmallChain

open SmallChain in
/-- Without checkpoints the forked blocks are all accepted; with a wrong one the replay stops at the block of
its height. -/
theorem checkpoints_cut_short_forked :
    (replay contradicted.withoutCheckpoints forked).rows.length = 4 ∧
    (replay contradicted forked).failure = some (.blockRefused 2 renewed.hash
      (.rejected (.checkpointMismatch 2 0x63d50f15 1))) ∧
    (replay contradicted forked).rows = (replay contradicted.withoutCheckpoints forked).rows.take 2 ∧
    (replay contradicted forked).state.index.positions.toList.map Position.hash =
      [first.hash, second.hash] := by
  have haccepted : (replay contradicted.withoutCheckpoints forked).failure.isNone = true := by
    decide +kernel
  have hheights : (replay contradicted.withoutCheckpoints forked).rows.map ReplayRow.height =
      [0, 1, 2, 1] := by decide +kernel
  have hlength : (replay contradicted.withoutCheckpoints forked).rows.length = 4 := by
    simpa using congrArg List.length hheights
  have hthird : (replay contradicted.withoutCheckpoints forked).rows[2]?.map
      (fun row => (row.height, row.hash, row.checksum)) = some (2, renewed.hash, 0x63d50f15) := by
    decide +kernel
  have hlow : ∀ j < 2, ∀ row, (replay contradicted.withoutCheckpoints forked).rows[j]? = some row →
      contradicted.checkpoints.get? row.height = none := by
    intro j hj row hrow
    have hheight : [0, 1, 2, 1][j]? = some row.height := by
      rw [← hheights, List.getElem?_map, hrow, Option.map_some]
    match j, hj with
    | 0, _ | 1, _ => rw [← Option.some.inj hheight]; decide
  obtain ⟨row, hrow, hfields⟩ := Option.map_eq_some_iff.1 hthird
  obtain ⟨hheight, hrest⟩ := Prod.mk.inj hfields
  obtain ⟨hhash, hchecksum⟩ := Prod.mk.inj hrest
  have hcontradicts : contradicted.checkpoints.Contradicts row.height row.checksum 1 := by
    rw [hheight, hchecksum]
    exact ⟨by decide, by decide⟩
  have hstops : (replay contradicted.withoutCheckpoints forked).Stops contradicted.checkpoints 0 2
      (.blockRefused 2 row.hash (.rejected (.checkpointMismatch row.height row.checksum 1))) :=
    .contradicted hrow hcontradicts
  rw [hheight, hhash, hchecksum] at hstops
  have hfirst : ∀ j < 2, ∀ error, ¬ (replay contradicted.withoutCheckpoints forked).Stops
      contradicted.checkpoints 0 j error := by
    intro j hj error hstops
    cases hstops with
    | refused hfailure => simp [hfailure] at haccepted
    | contradicted hrow hpinned =>
      have hfree := hlow j hj _ hrow
      simp [hpinned.1] at hfree
  have hstopped := (checkpoints_cut_short contradicted forked).1 2 _ ⟨hstops, hfirst⟩
  exact ⟨hlength, hstopped.failure, hstopped.rows, hstopped.hashes⟩

end StakeChain
