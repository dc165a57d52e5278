import StakeChain.Tool.CommandLine
/-!
The pages of help. Options and commands stand in a column as wide as its longest entry needs.
-/

namespace StakeChain.CommandLine

def programName : String := "ppc-tool"

def programVersion : String := "0.1.0"

/-- Entries with their explanations, in two columns. -/
def columns (entries : List (String × String)) : List String :=
  let width := (entries.map fun e => e.1.length).foldl max 0
  entries.map fun e => "  " ++ e.1 ++ String.ofList (List.replicate (width - e.1.length + 2) ' ') ++ e.2

/-- An option as a help page shows it. -/
def Opt.entry (o : Opt) : String × String :=
  let letter :=
    match o.short? with
    | some c => String.ofList ['-', c, ',', ' ']
    | none => "    "
  (s!"{letter}--{o.long} <{o.valueName}>", o.about)

def helpEntry : String × String := ("-h, --help", "Print help")

/-- The options in the order that a page shows them. -/
def Opt.onPage : Verb → List Opt
  | .search => [network, txid, params, vout, first, logLevel, last, bits]
  | _ => shared

def helpAbout : String := "Print this message or the help of the given subcommand(s)"

def usageOf (verb : Verb) : String :=
  let needed := if verb = .search then Opt.ofSearch else []
  let needed := String.join (needed.map fun o => s!" --{o.long} <{o.valueName}>")
  s!"Usage: {programName} {verb.name} [OPTIONS]{needed} <FIXTURE>"

/-- The lines of a page. -/
def Page.lines : Page → List String
  | .overview =>
    ["Replay chain fixtures through the proof-of-stake kernel", "",
      s!"Usage: {programName} [OPTIONS] <COMMAND>", "", "Commands:"] ++
    columns ((Verb.all.map fun v => (v.name, v.about)) ++ [("help", helpAbout)]) ++
    ["", "Options:"] ++
    columns (Opt.shared.map Opt.entry ++ [helpEntry, ("-V, --version", "Print version")])
  | .ofVerb verb =>
    [verb.about, "", usageOf verb, "", "Arguments:"] ++
    columns [("<FIXTURE>", "Chain fixture (JSON)")] ++
    ["", "Options:"] ++
    columns ((Opt.onPage verb).map Opt.entry ++ [helpEntry])
  | .ofHelp =>
    [helpAbout, "", s!"Usage: {programName} help [COMMAND]...", "", "Arguments:"] ++
    columns [("[COMMAND]...", "Print help for the subcommand(s)")]
  | .version => [s!"{programName} {programVersion}"]

end StakeChain.CommandLine
