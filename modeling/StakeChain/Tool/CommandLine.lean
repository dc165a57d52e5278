import StakeChain.Text.Numeral
import StakeChain.Tool.KernelSearch
/-!
The command line. Arguments are read from left to right, and the first that asks for help, or that
does not fit, decides. An option whose value is an argument of its own is checked when the next
option is met, so the one right before the command is checked after all the command's arguments. The
options for the network and the parameter file, and that for the log, may stand before the command
or after it; the later place wins.
-/

namespace StakeChain.CommandLine

inductive Verb where
  | replay
  | checkpoints
  | search
deriving DecidableEq

namespace Verb

def all : List Verb := [replay, checkpoints, search]

def name : Verb → String
  | replay => "replay"
  | checkpoints => "checkpoints"
  | search => "search"

def about : Verb → String
  | replay => "Accept every block and print modifiers and checksums"
  | checkpoints => "Compare computed checksums against the checkpoint table"
  | search => "Find the first timestamp at which an output stakes on the fixture tip"

def ofName? (text : String) : Option Verb := all.find? fun v => v.name == text

end Verb

/-- The options; each takes one value. -/
inductive Opt where
  | network
  | params
  | logLevel
  | txid
  | vout
  | first
  | last
  | bits
deriving DecidableEq

namespace Opt

/-- The options of every command. -/
def shared : List Opt := [network, params, logLevel]

def ofSearch : List Opt := [txid, vout, first, last, bits]

def long : Opt → String
  | network => "network"
  | params => "params"
  | logLevel => "log-level"
  | txid => "txid"
  | vout => "vout"
  | first => "from"
  | last => "to"
  | bits => "bits"

def short? : Opt → Option Char
  | network => some 'n'
  | params => some 'p'
  | _ => none

/-- The name that stands for the value in help texts. -/
def valueName : Opt → String
  | network => "NETWORK"
  | params => "PARAMS"
  | logLevel => "LOG_LEVEL"
  | txid => "TXID"
  | vout => "VOUT"
  | first => "FROM"
  | last => "TO"
  | bits => "BITS"

def about : Opt → String
  | network => "Network to validate against (defaults to the fixture's network)"
  | params => "TOML file with network parameters, overrides --network"
  | logLevel => "Log level [default: info]"
  | txid => "Transaction id of the output"
  | vout => "Output index"
  | first => "First timestamp to try"
  | last => "Last timestamp to try"
  | bits => "Compact target, hex"

end Opt

/-- A decimal number of 32 bits, with or without a sign. -/
def parseNumber? (text : String) : Option UInt32 :=
  (Text.integer? 10 text.toList).bind fun n =>
    if 0 ≤ n ∧ n < UInt32.size then some (UInt32.ofNat n.toNat) else none

/-- A compact target: hexadecimal, with or without a mark in lower case. -/
def parseBits? (text : String) : Option UInt32 :=
  let digits :=
    match text.toList with
    | '0' :: 'x' :: rest => rest
    | cs => cs
  Text.word32? 16 digits

/-- Whether an option takes a value. -/
def Opt.accepts (o : Opt) (value : String) : Bool :=
  match o with
  | .network => true
  | .logLevel => true
  | .params => !value.isEmpty
  | .txid => (Hash.parse value).isOk
  | .vout => (parseNumber? value).isSome
  | .first => (parseNumber? value).isSome
  | .last => (parseNumber? value).isSome
  | .bits => (parseBits? value).isSome

/-- What may be shown instead of doing anything. -/
inductive Page where
  | overview
  | ofVerb (verb : Verb)
  /-- The help on help itself. -/
  | ofHelp
  | version
deriving DecidableEq

/-- Why the arguments call for no command. -/
inductive Stop where
  | show (page : Page)
  /-- They do not fit. -/
  | usage
deriving DecidableEq

/-- Options with their values, and what else was given. -/
structure Given where
  options : List (Opt × String)
  operands : List String

namespace Given

def empty : Given := ⟨[], []⟩

def value? (g : Given) (o : Opt) : Option String := g.options.lookup o

/-- Notes an option, which is given once at most and takes its value. -/
def note (g : Given) (o : Opt) (value : String) : Except Stop Given :=
  if (g.value? o).isNone && o.accepts value then .ok { g with options := g.options ++ [(o, value)] }
  else .error .usage

/-- Notes an operand; each command has one, which is not empty. -/
def noteOperand (g : Given) (value : String) : Except Stop Given :=
  if g.operands.isEmpty && !value.isEmpty then .ok { g with operands := [value] }
  else .error .usage

end Given

/-- What an argument is. -/
inductive Argument where
  /-- All later arguments are operands. -/
  | divider
  /-- An option, with its value where that is attached. -/
  | option (o : Opt) (value : Option String)
  | help
  | version
  | operand (text : String)
  | unknown

/-- An option by its long name, with its value behind an equals sign. -/
def classifyLong (options : List Opt) (hasVersion : Bool) (cs : List Char) : Argument :=
  let (name, rest) := cs.span (· != '=')
  let value := rest.tail?.map String.ofList
  match options.find? fun o => o.long.toList == name with
  | some o => .option o value
  | none =>
    if value.isSome then .unknown
    else if name == "help".toList then .help
    else if hasVersion && name == "version".toList then .version
    else .unknown

/-- An option by its letter, with its value right behind it or behind an equals sign. -/
def classifyShort (options : List Opt) (hasVersion : Bool) (letter : Char) (rest : List Char) :
    Argument :=
  match options.find? fun o => o.short? == some letter with
  | some o =>
    match rest with
    | [] => .option o none
    | '=' :: value => .option o (some (String.ofList value))
    | value => .option o (some (String.ofList value))
  | none =>
    if letter == 'h' then .help
    else if hasVersion && letter == 'V' then .version
    else .unknown

/-- What an argument is, where these options are known. A lone hyphen is an operand. -/
def classify (options : List Opt) (hasVersion : Bool) (text : String) : Argument :=
  match text.toList with
  | ['-', '-'] => .divider
  | '-' :: '-' :: cs => classifyLong options hasVersion cs
  | '-' :: letter :: rest => classifyShort options hasVersion letter rest
  | _ => .operand text

/-- Whether an argument cannot be the value of the option before it. -/
def looksLikeOption (text : String) : Bool :=
  match text.toList with
  | '-' :: _ :: _ => true
  | _ => false

/-- Reads the arguments of a command. -/
def readCommand (verb : Verb) (options : List Opt) : Given → List String → Except Stop Given
  | g, [] => .ok g
  | g, text :: rest =>
    match classify options false text with
    | .divider => rest.foldlM Given.noteOperand g
    | .operand text => (g.noteOperand text).bind fun g => readCommand verb options g rest
    | .help => .error (.show (.ofVerb verb))
    | .version => .error .usage
    | .unknown => .error .usage
    | .option o (some value) => (g.note o value).bind fun g => readCommand verb options g rest
    | .option o none =>
      match rest with
      | [] => .error .usage
      | value :: rest =>
        if looksLikeOption value then .error .usage
        else (g.note o value).bind fun g => readCommand verb options g rest

/-- The page that the words after `help` name. -/
def helpPage : List String → Stop
  | [] => .show .overview
  | [word] =>
    match Verb.ofName? word with
    | some verb => .show (.ofVerb verb)
    | none => if word == "help" then .show .ofHelp else .usage
  | _ => .usage

/-- What stands before the command: the options that are checked, and the last one where it is not
checked yet. -/
structure Front where
  given : Given
  waiting : Option (Opt × String)

namespace Front

def empty : Front := ⟨.empty, none⟩

/-- All the options, the last one checked too. -/
def settle (f : Front) : Except Stop Given :=
  match f.waiting with
  | none => .ok f.given
  | some (o, value) => f.given.note o value

end Front

/-- Reads the arguments up to the command: what is given before it, the command, and the rest. -/
def readFront : Front → List String → Except Stop (Front × Verb × List String)
  | _, [] => .error .usage
  | f, text :: rest =>
    match classify Opt.shared true text with
    | .divider => .error .usage
    | .help => f.settle.bind fun _ => .error (.show .overview)
    | .version => f.settle.bind fun _ => .error (.show .version)
    | .unknown => .error .usage
    | .operand text =>
      match Verb.ofName? text with
      | some verb => .ok (f, verb, rest)
      | none => .error (if text == "help" then helpPage rest else .usage)
    | .option o (some value) =>
      (f.settle.bind fun g => g.note o value).bind fun g => readFront ⟨g, none⟩ rest
    | .option o none =>
      match rest with
      | [] => .error .usage
      | value :: rest =>
        if looksLikeOption value then .error .usage
        else f.settle.bind fun g => readFront ⟨g, some (o, value)⟩ rest

/-- What a command does, to the fixture of its invocation. -/
inductive Task where
  | replay
  | checkpoints
  | search (request : SearchRequest)
deriving DecidableEq

structure Invocation where
  /-- The path of the fixture. -/
  fixture : String
  /-- The path of the parameter file. -/
  params : Option String
  network : Option String
  task : Task
deriving DecidableEq

/-- The search that the options ask for, when none is missing. -/
def searchRequest? (g : Given) : Option SearchRequest := do
  let txid ← (Hash.parse (← g.value? .txid)).toOption
  let vout ← parseNumber? (← g.value? .vout)
  let first ← parseNumber? (← g.value? .first)
  let last ← parseNumber? (← g.value? .last)
  let nBits ← parseBits? (← g.value? .bits)
  return ⟨⟨txid, vout⟩, nBits, first, last⟩

def task? (verb : Verb) (g : Given) : Option Task :=
  match verb with
  | .replay => some .replay
  | .checkpoints => some .checkpoints
  | .search => (searchRequest? g).map .search

/-- The options that a command knows. -/
def optionsOf (verb : Verb) : List Opt := if verb = .search then Opt.ofSearch ++ Opt.shared else Opt.shared

/-- What the arguments ask for. -/
def parse (args : List String) : Except Stop Invocation := do
  let (front, verb, rest) ← readFront .empty args
  let g ← readCommand verb (optionsOf verb) .empty rest
  let front ← front.settle
  let value? (o : Opt) := (g.value? o).or (front.value? o)
  match g.operands, task? verb g with
  | [fixture], some task => return ⟨fixture, value? .params, value? .network, task⟩
  | _, _ => throw .usage

end StakeChain.CommandLine
