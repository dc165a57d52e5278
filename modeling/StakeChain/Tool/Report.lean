import StakeChain.Tool.Replay
/-!
Checkpoint reports: a fixture is replayed without checkpoints, and then each checkpoint is compared
with the checksum that the replay computed at its height. Of several blocks at one height the first
accepted counts.
-/

namespace StakeChain

structure CheckpointReport where
  height : Nat
  expected : UInt32
  /-- Absent where the replay does not reach the height. -/
  computed : Option UInt32
deriving DecidableEq

namespace CheckpointReport

def reached (r : CheckpointReport) : Bool := r.computed.isSome

def agrees (r : CheckpointReport) : Bool := r.computed == some r.expected

def render (r : CheckpointReport) : String :=
  let height := Text.alignRight 8 (toString r.height)
  let expected := Text.markedHex 8 r.expected.toNat
  match r.computed with
  | none => s!"{height} {expected} not reached"
  | some computed =>
    if computed = r.expected then s!"{height} {expected} ok"
    else s!"{height} {expected} MISMATCH computed {Text.markedHex 8 computed.toNat}"

end CheckpointReport

/-- The report on each checkpoint, given the rows of a replay. -/
def reportsOn (checkpoints : Checkpoints) (rows : List ReplayRow) : List CheckpointReport :=
  checkpoints.entries.map fun e =>
    ⟨e.1, e.2, (rows.find? fun row => row.height == e.1).map ReplayRow.checksum⟩

/-- The reports on all checkpoints, for a fixture whose blocks are all accepted without them. -/
def checkpointReports (p : Parameters) (blocks : List CandidateBlock) :
    Except ToolError (List CheckpointReport) :=
  (replay p.withoutCheckpoints blocks).result.map (reportsOn p.checkpoints)

end StakeChain
