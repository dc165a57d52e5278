import StakeChain.Fixture
import StakeChain.Tool.Help
import StakeChain.Tool.Report
import StakeChain.Tool.Settings
/-!
Running the tool. Its files are given as a function from paths to texts, and its outcome is a value:
the exit code, the lines printed, and the error that ended it.
-/

namespace StakeChain.CommandLine

/-- What a run comes to. -/
structure Outcome where
  exitCode : Nat
  lines : List String
  error : Option ToolError

/-- A run that printed lines and then failed. -/
def Outcome.failed (lines : List String) (e : ToolError) : Outcome := ⟨1, lines, some e⟩

/-- The fixture and the parameters of an invocation. The fixture is read first. -/
def Invocation.load (i : Invocation) (files : String → Option String) :
    Except ToolError (Fixture × Parameters) := do
  let text ← (files i.fixture).elim (throw (.fixtureUnreadable i.fixture)) pure
  let fixture ← (Fixture.load? text).elim (throw (.fixtureMalformed (some i.fixture))) pure
  let file ← i.params.mapM fun path => (files path).elim (throw (.paramsUnreadable path)) pure
  return (fixture, ← Settings.resolve file i.network fixture.network)

/-- The line that tells what a search found. -/
def foundLine (r : SearchRequest) : Option (UInt32 × Hash) → String
  | some (time, proof) => s!"{r.outpoint} stakes at {time} proof={proof}"
  | none => s!"{r.outpoint} does not stake in {r.first}..={r.last}"

/-- Does a task. A checkpoint that is reached and does not agree fails it after all reports. -/
def Task.run (t : Task) (p : Parameters) (blocks : List CandidateBlock) : Outcome :=
  match t with
  | .replay =>
    match (StakeChain.replay p blocks).result with
    | .ok rows => ⟨0, rows.map ReplayRow.render, none⟩
    | .error e => .failed [] e
  | .checkpoints =>
    match checkpointReports p blocks with
    | .ok reports =>
      let lines := reports.map CheckpointReport.render
      if reports.any fun r => r.reached && !r.agrees then .failed lines .checkpointMismatch
      else ⟨0, lines, none⟩
    | .error e => .failed [] e
  | .search request =>
    match kernelSearch p blocks request with
    | .ok found => ⟨0, [foundLine request found], none⟩
    | .error e => .failed [] e

/-- Runs the tool on its arguments. -/
def run (files : String → Option String) (args : List String) : Outcome :=
  match parse args with
  | .error (.show page) => ⟨0, page.lines, none⟩
  | .error .usage => ⟨2, [], none⟩
  | .ok i =>
    match i.load files with
    | .ok (fixture, p) => i.task.run p fixture.blocks
    | .error e => .failed [] e

/-- The paths that a run reads. -/
def pathsOf (args : List String) : List String :=
  match parse args with
  | .ok i => i.fixture :: i.params.toList
  | .error _ => []

/-- The message of an error, with its causes below it. -/
def errorText (e : ToolError) : String :=
  match e.chain with
  | [] => "Error:"
  | [message] => s!"Error: {message}"
  | [message, cause] => s!"Error: {message}\n\nCaused by:\n    {cause}"
  | message :: causes =>
    let numbered := causes.zipIdx.map fun c => s!"    {c.2}: {c.1}"
    s!"Error: {message}\n\nCaused by:\n" ++ "\n".intercalate numbered

end StakeChain.CommandLine
