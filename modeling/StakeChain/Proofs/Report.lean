import Mathlib.Data.Nat.Find
import StakeChain.Proofs.Replay
import StakeChain.Tool.Report
/-!
Checkpoint reports against the replay that enforces the checkpoints. A report looks at one block of each
pinned height, the first accepted there; enforcement looks at every block. A report that shows a mismatch
therefore always comes with a replay that fails, and a replay that fails where no report shows one has met a
later block of a height whose first block agrees.
-/

namespace StakeChain

/-! ### What a report looks at -/

/-- A row of the replay contradicts a checkpoint. -/
def Replay.Contradicted (c : Checkpoints) (u : Replay) : Prop :=
  ∃ row ∈ u.rows, ∃ pinned, c.Contradicts row.height row.checksum pinned

/-- A report shows that the replay reached its height with another checksum. -/
def CheckpointReport.Mismatched (r : CheckpointReport) : Prop := r.reached = true ∧ r.agrees = false

/-- The report agrees, but a block of its height has another checksum. -/
def CheckpointReport.Passes (rows : List ReplayRow) (r : CheckpointReport) : Prop :=
  r.agrees = true ∧ ∃ row ∈ rows, row.height = r.height ∧ row.checksum ≠ r.expected

variable {c : Checkpoints} {rows : List ReplayRow} {r : CheckpointReport}

theorem mem_reportsOn : r ∈ reportsOn c rows ↔ (r.height, r.expected) ∈ c.entries ∧
    r.computed = (rows.find? fun row => row.height == r.height).map ReplayRow.checksum := by
  rw [reportsOn, List.mem_map]
  constructor
  · rintro ⟨e, he, rfl⟩
    exact ⟨he, rfl⟩
  · rintro ⟨he, hcomputed⟩
    exact ⟨_, he, by rw [← hcomputed]⟩

/-- The checksum of a report is that of a row at its height. -/
theorem exists_row_of_computed (hr : r ∈ reportsOn c rows) {checksum : UInt32}
    (h : r.computed = some checksum) :
    ∃ row ∈ rows, row.height = r.height ∧ row.checksum = checksum := by
  rw [(mem_reportsOn.1 hr).2] at h
  obtain ⟨row, hrow, hchecksum⟩ := Option.map_eq_some_iff.1 h
  have hheight : row.height = r.height := by simpa using List.find?_some hrow
  exact ⟨row, List.mem_of_find?_eq_some hrow, hheight, hchecksum⟩

/-- Where some block has a pinned height, the report on it was reached. -/
theorem exists_computed_of_row (hr : r ∈ reportsOn c rows) {row : ReplayRow} (hrow : row ∈ rows)
    (hheight : row.height = r.height) : ∃ checksum, r.computed = some checksum := by
  rw [(mem_reportsOn.1 hr).2]
  cases hfind : rows.find? fun row => row.height == r.height with
  | some first => exact ⟨_, rfl⟩
  | none => simpa [hheight] using List.find?_eq_none.1 hfind row hrow

/-- Some row contradicts a checkpoint exactly when a report shows it, or agrees in spite of it. -/
theorem exists_contradicts_iff :
    (∃ row ∈ rows, ∃ pinned, c.Contradicts row.height row.checksum pinned) ↔
      (∃ r ∈ reportsOn c rows, r.Mismatched) ∨ ∃ r ∈ reportsOn c rows, r.Passes rows := by
  constructor
  · rintro ⟨row, hrow, pinned, hget, hne⟩
    have hentry := SortedMap.get?_eq_some.1 hget
    let r : CheckpointReport :=
      ⟨row.height, pinned, (rows.find? fun row' => row'.height == row.height).map ReplayRow.checksum⟩
    have hr : r ∈ reportsOn c rows := mem_reportsOn.2 ⟨hentry, rfl⟩
    obtain ⟨checksum, hcomputed⟩ := exists_computed_of_row hr hrow rfl
    by_cases heq : checksum = pinned
    · subst heq
      refine .inr ⟨r, hr, ?_, row, hrow, rfl, hne.symm⟩
      rw [CheckpointReport.agrees, hcomputed]
      exact beq_self_eq_true _
    · refine .inl ⟨r, hr, ?_, ?_⟩
      · simp [CheckpointReport.reached, hcomputed]
      · simpa [CheckpointReport.agrees, hcomputed] using heq
  · rintro (⟨r, hr, hreached, hagrees⟩ | ⟨r, hr, -, row, hrow, hheight, hne⟩)
    · obtain ⟨checksum, hcomputed⟩ := Option.isSome_iff_exists.1 hreached
      obtain ⟨row, hrow, hheight, rfl⟩ := exists_row_of_computed hr hcomputed
      have hget := SortedMap.get?_eq_some.2 (mem_reportsOn.1 hr).1
      have hne : row.checksum ≠ r.expected := by
        simpa [CheckpointReport.agrees, hcomputed] using hagrees
      exact ⟨row, hrow, r.expected, hheight ▸ hget, hne.symm⟩
    · have hget := SortedMap.get?_eq_some.2 (mem_reportsOn.1 hr).1
      exact ⟨row, hrow, r.expected, hheight ▸ hget, hne.symm⟩

/-! ### Reports and enforcement -/

namespace Replay

variable {u : Replay} {place : Nat}

/-- A replay that accepted every block gives a reason to stop exactly when a row contradicts a checkpoint. -/
theorem exists_stops_iff (hu : u.failure = none) :
    (∃ i error, u.Stops c place i error) ↔ u.Contradicted c := by
  constructor
  · rintro ⟨i, error, hstops⟩
    cases hstops with
    | refused hfailure => simp [hu] at hfailure
    | contradicted hrow hpinned => exact ⟨_, List.mem_of_getElem? hrow, _, hpinned⟩
  · rintro ⟨row, hrow, pinned, hpinned⟩
    obtain ⟨i, hi⟩ := List.mem_iff_getElem?.1 hrow
    exact ⟨i, _, .contradicted hi hpinned⟩

/-- Where there is a reason to stop, there is a first one. -/
theorem exists_stopsFirst (h : ∃ i error, u.Stops c place i error) :
    ∃ i error, u.StopsFirst c place i error := by
  classical
  obtain ⟨error, hstops⟩ := Nat.find_spec h
  exact ⟨Nat.find h, error, hstops, fun j hj error' hstops' => Nat.find_min h hj ⟨error', hstops'⟩⟩

end Replay

/-- Blocks that are all accepted without checkpoints are refused with them exactly when one of them
contradicts a checkpoint. -/
theorem replay_failure_iff (p : Parameters) (blocks : List CandidateBlock)
    (h : (replay p.withoutCheckpoints blocks).failure = none) :
    (replay p blocks).failure.isSome ↔ (replay p.withoutCheckpoints blocks).Contradicted p.checkpoints := by
  rw [← @Replay.exists_stops_iff _ _ 0 h]
  constructor
  · intro hfailure
    by_contra hnone
    have hkept := @replayFrom_of_not_stops 0 (.empty p) blocks (ChainState.sound_empty p)
      fun i error hstops => hnone ⟨i, error, hstops⟩
    have hfree : (replay p blocks).failure = none := hkept.1
    simp [hfree] at hfailure
  · intro hstops
    obtain ⟨i, error, hfirst⟩ := Replay.exists_stopsFirst hstops
    simp [(replay_stoppedAt p blocks hfirst).failure]

theorem checkpointReports_eq_ok {p : Parameters} {blocks : List CandidateBlock}
    {reports : List CheckpointReport} : checkpointReports p blocks = .ok reports ↔
      (replay p.withoutCheckpoints blocks).failure = none ∧
        reportsOn p.checkpoints (replay p.withoutCheckpoints blocks).rows = reports := by
  rw [checkpointReports, map_eq_ok, Replay.result]
  cases (replay p.withoutCheckpoints blocks).failure <;> simp

/-- Where there are reports, the replay with the checkpoints fails exactly when a report shows a mismatch or
passes over a block; where the blocks of each pinned height have one checksum, exactly when a report shows a
mismatch. -/
theorem reports_against_replay (p : Parameters) (blocks : List CandidateBlock)
    (reports : List CheckpointReport) (h : checkpointReports p blocks = .ok reports) :
    let rows := (replay p.withoutCheckpoints blocks).rows
    ((∃ e, (replay p blocks).result = .error e) ↔
      (∃ r ∈ reports, r.Mismatched) ∨ ∃ r ∈ reports, r.Passes rows) ∧
    ((∀ row ∈ rows, ∀ row' ∈ rows, row.height = row'.height →
        (p.checkpoints.get? row.height).isSome → row.checksum = row'.checksum) →
      ((∃ e, (replay p blocks).result = .error e) ↔ ∃ r ∈ reports, r.Mismatched)) := by
  intro rows
  obtain ⟨haccepted, rfl⟩ := checkpointReports_eq_ok.1 h
  have hresult : (∃ e, (replay p blocks).result = .error e) ↔ (replay p blocks).failure.isSome := by
    rw [Replay.result]
    cases (replay p blocks).failure <;> simp
  have hfails := hresult.trans
    ((replay_failure_iff p blocks haccepted).trans exists_contradicts_iff)
  refine ⟨hfails, fun hone => ?_⟩
  rw [hfails, or_iff_left_iff_imp]
  rintro ⟨r, hr, hagrees, row, hrow, hheight, hne⟩
  -- The row that the report looked at has its checksum, and this row the same one.
  have hcomputed : r.computed = some r.expected := by
    simpa [CheckpointReport.agrees] using hagrees
  obtain ⟨first, hfirst, hfirstHeight, hchecksum⟩ := exists_row_of_computed hr hcomputed
  have hget := SortedMap.get?_eq_some.2 (mem_reportsOn.1 hr).1
  have hsame := hone row hrow first hfirst (hheight.trans hfirstHeight.symm) (by simp [hheight, hget])
  exact absurd (hsame.trans hchecksum) hne

namespace SmallChain

/-- The small chain's parameters with the checksum pinned that the block without stake has. -/
def pinnedPlain : Parameters := { parameters with checkpoints := .ofList [(1, 0x5189c78a)] }

/-- A first block, and two branches of one block each. -/
def branches : List CandidateBlock := [first, plain, staked]

theorem branches_accepted : (replay pinnedPlain.withoutCheckpoints branches).failure = none ∧
    (replay pinnedPlain.withoutCheckpoints branches).rows.map (fun row => (row.height, row.checksum)) =
      [(0, 0x0e00670b), (1, 0x5189c78a), (1, 0x2299a6a0)] := by decide +kernel

/-- The report on the pinned height agrees: it looks at the block without stake. -/
theorem branches_reports :
    checkpointReports pinnedPlain branches = .ok [⟨1, 0x5189c78a, some 0x5189c78a⟩] := by
  obtain ⟨haccepted, hrows⟩ := branches_accepted
  refine checkpointReports_eq_ok.2 ⟨haccepted, ?_⟩
  have hfirst : ((replay pinnedPlain.withoutCheckpoints branches).rows.find?
      fun row => row.height == 1).map ReplayRow.checksum = some 0x5189c78a := by
    have hfind := congrArg (fun l => (l.find? fun e => e.1 == 1).map Prod.snd) hrows
    rw [List.find?_map, Option.map_map] at hfind
    exact hfind
  have hentries : pinnedPlain.checkpoints.entries = [(1, 0x5189c78a)] := by decide
  simp [reportsOn, hentries, hfirst]

/-- The staked block has another checksum at the pinned height. -/
theorem branches_staked : ∃ row ∈ (replay pinnedPlain.withoutCheckpoints branches).rows,
    row.height = 1 ∧ row.checksum = 0x2299a6a0 := by
  have hmem : (1, 0x2299a6a0) ∈ (replay pinnedPlain.withoutCheckpoints branches).rows.map
      (fun row => (row.height, row.checksum)) := by simp [branches_accepted.2]
  obtain ⟨row, hrow, hfields⟩ := List.mem_map.1 hmem
  obtain ⟨hheight, hchecksum⟩ := Prod.mk.inj hfields
  exact ⟨row, hrow, hheight, hchecksum⟩

end SmallChain

open SmallChain in
/-- The report on the pinned height agrees, and the replay fails at the other block of that height. -/
theorem reports_against_replay_branches :
    checkpointReports pinnedPlain branches = .ok [⟨1, 0x5189c78a, some 0x5189c78a⟩] ∧
    ∃ e, (replay pinnedPlain branches).result = .error e := by
  obtain ⟨row, hrow, hheight, hchecksum⟩ := branches_staked
  have hagrees := (reports_against_replay pinnedPlain branches _ branches_reports).1
  refine ⟨branches_reports, hagrees.2 (.inr ⟨_, List.mem_singleton_self _, by decide, ?_⟩)⟩
  exact ⟨row, hrow, hheight, by rw [hchecksum]; decide⟩

open SmallChain in
/-- A replay can fail although no report shows a mismatch. -/
theorem replay_fails_unreported :
    ¬ ∀ (p : Parameters) (blocks : List CandidateBlock) (reports : List CheckpointReport),
      checkpointReports p blocks = .ok reports →
      ((∃ r ∈ reports, r.Mismatched) ↔ ∃ e, (replay p blocks).result = .error e) := by
  intro hagree
  obtain ⟨row, hrow, hheight, hchecksum⟩ := branches_staked
  have hpinned : pinnedPlain.checkpoints.Contradicts row.height row.checksum 0x5189c78a := by
    rw [hheight, hchecksum]
    exact ⟨by decide, by decide⟩
  obtain ⟨e, he⟩ := Option.isSome_iff_exists.1
    ((replay_failure_iff pinnedPlain branches branches_accepted.1).2 ⟨row, hrow, _, hpinned⟩)
  have hresult : (replay pinnedPlain branches).result = .error e := by rw [Replay.result, he]
  obtain ⟨r, hr, -, hagrees⟩ := (hagree pinnedPlain branches _ branches_reports).2 ⟨e, hresult⟩
  obtain rfl := List.mem_singleton.1 hr
  simp [CheckpointReport.agrees] at hagrees

end StakeChain
