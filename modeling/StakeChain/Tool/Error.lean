import StakeChain.Parameters.Config
import StakeChain.State.Error
/-!
Failures of the tool. Each has a chain of messages, outermost first: what was attempted, then what
went wrong, down to the verdict on a block where there is one.
-/

namespace StakeChain

inductive ToolError where
  | fixtureUnreadable (path : String)
  /-- The text is no fixture; the path is absent where the text does not come from a file. -/
  | fixtureMalformed (path : Option String)
  | paramsUnreadable (path : String)
  | paramsMalformed
  | paramsInvalid (cause : ConfigError)
  | unknownNetwork (name : String)
  | blockRefused (place : Nat) (hash : Hash) (cause : StateError)
  | emptyRange (first last : UInt32)
  | searchFailed (outpoint : OutPoint) (cause : StateError)
  | checkpointMismatch
deriving DecidableEq

namespace ToolError

/-- What was attempted. -/
def message : ToolError → String
  | fixtureUnreadable path => s!"Failed to read fixture {path}"
  | fixtureMalformed (some path) => s!"Failed to parse fixture {path}"
  | fixtureMalformed none => "Failed to parse fixture"
  | paramsUnreadable path => s!"Failed to read params file {path}"
  | paramsMalformed => "Failed to parse params file"
  | paramsInvalid _ => "Invalid network parameters"
  | unknownNetwork name => s!"Unknown network '{name}'"
  | blockRefused place hash _ => s!"Block #{place} ({hash}) not accepted"
  | emptyRange first last => s!"Empty search range {first}..={last}"
  | searchFailed outpoint _ => s!"Kernel search for {outpoint} failed"
  | checkpointMismatch => "Stake modifier checkpoint mismatch"

/-- All messages. -/
def chain (e : ToolError) : List String :=
  e.message ::
    match e with
    | paramsInvalid cause => [cause.message]
    | blockRefused _ _ cause => cause.causes
    | searchFailed _ cause => cause.causes
    | _ => []

end ToolError

end StakeChain
