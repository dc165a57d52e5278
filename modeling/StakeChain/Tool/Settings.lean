import StakeChain.Record.Config
import StakeChain.Toml.Reader
import StakeChain.Tool.Error
/-!
Which parameters to use: those of a file, if one is given, else those of a network given by name,
else those of the fixture's network.
-/

namespace StakeChain.Settings

/-- The parameters that a file's text describes. Lists may be longer than the records they stand for. -/
def ofFile (text : String) : Except ToolError Parameters :=
  match (Toml.read? text).bind (Config.ofDocument? true) with
  | none => .error .paramsMalformed
  | some config => config.parameters.mapError .paramsInvalid

/-- The parameters to use. -/
def resolve (file name : Option String) (fixtureNetwork : Network) : Except ToolError Parameters :=
  match file, name with
  | some text, _ => ofFile text
  | none, some name =>
    match Network.ofName? name with
    | some network => .ok (.ofNetwork network)
    | none => .error (.unknownNetwork name)
  | none, none => .ok (.ofNetwork fixtureNetwork)

end StakeChain.Settings
