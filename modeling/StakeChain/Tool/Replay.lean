import StakeChain.State
import StakeChain.Tool.Error
/-!
Replays: the blocks of a fixture accepted one after another, up to the first that is refused.
-/

namespace StakeChain

/-- An accepted block, as a replay shows it. -/
structure ReplayRow where
  height : Nat
  hash : Hash
  stakeModifier : UInt64
  checksum : UInt32
  generated : Bool
  proof : Option Hash
deriving DecidableEq

namespace ReplayRow

def ofBlock (hash : Hash) (b : ValidatedBlock) : ReplayRow :=
  ⟨b.height, hash, b.stakeModifier, b.checksum, b.generated, b.proof⟩

def render (r : ReplayRow) : String :=
  let height := Text.alignRight 8 (toString r.height)
  let modifier := Text.markedHex 16 r.stakeModifier.toNat
  let checksum := Text.markedHex 8 r.checksum.toNat
  let proof := (r.proof.map fun h => s!" proof={h}").getD ""
  s!"{height} {r.hash} modifier={modifier} checksum={checksum} generated={r.generated}{proof}"

end ReplayRow

/-- How far a replay got. -/
structure Replay where
  /-- The state after the blocks that were accepted. -/
  state : ChainState
  rows : List ReplayRow
  /-- Why the block after these was refused, if one was. -/
  failure : Option ToolError

/-- Replays blocks from a state on; the first of them has place `place` in its fixture. -/
def replayFrom (place : Nat) (s : ChainState) : List CandidateBlock → Replay
  | [] => ⟨s, [], none⟩
  | b :: rest =>
    match s.accept b with
    | .error e => ⟨s, [], some (.blockRefused place b.hash e)⟩
    | .ok (s, accepted) =>
      let r := replayFrom (place + 1) s rest
      { r with rows := .ofBlock b.hash accepted.block :: r.rows }

/-- Replays blocks into an empty state. -/
def replay (p : Parameters) (blocks : List CandidateBlock) : Replay := replayFrom 0 (.empty p) blocks

/-- The rows of a replay that accepted every block. -/
def Replay.result (r : Replay) : Except ToolError (List ReplayRow) :=
  match r.failure with
  | none => .ok r.rows
  | some e => .error e

end StakeChain
