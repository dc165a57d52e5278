import StakeChain.Toml.Number
import StakeChain.Toml.Tree
/-!
Reading TOML, version 1.0. A text is read line by line into statements, from which the tables are
built up. Dotted keys, and lists and inline tables within one another, are less than eighty deep.
-/

namespace StakeChain.Toml

/-- Paths and nested values are less deep than this. -/
def depthBound : Nat := 80

/-! ### Blanks and comments -/

def isBlank (c : Char) : Bool := c == ' ' || c == '\t'

def skipBlanks (cs : List Char) : List Char := cs.dropWhile isBlank

/-- Whether a character may stand in a comment or, its quote apart, in a string on one line. -/
def isInLine (c : Char) : Bool := c == '\t' || (' ' ≤ c && c != '\x7f')

/-- The text after a line break, if one comes first. -/
def lineBreak? : List Char → Option (List Char)
  | '\n' :: rest => some rest
  | '\r' :: '\n' :: rest => some rest
  | _ => none

def skipComment : List Char → List Char
  | '#' :: rest => rest.dropWhile isInLine
  | cs => cs

/-- What follows the end of a line, before which only blanks and a comment may stand. -/
def endLine? (cs : List Char) : Option (List Char) :=
  match skipComment (skipBlanks cs) with
  | [] => some []
  | rest => lineBreak? rest

/-- Passes over blanks, comments and line breaks, at most `steps` of them. -/
def skipLines : (steps : Nat) → List Char → List Char
  | 0, cs => cs
  | steps + 1, cs =>
    match cs with
    | '#' :: rest =>
      match lineBreak? (rest.dropWhile isInLine) with
      | some tail => skipLines steps tail
      | none => cs
    | c :: rest =>
      if isBlank c then skipLines steps rest
      else
        match lineBreak? cs with
        | some tail => skipLines steps tail
        | none => cs
    | [] => []

def skipAllLines (cs : List Char) : List Char := skipLines cs.length cs

/-! ### Strings -/

/-- The character that a backslash and `c` stand for. -/
def shortEscape? (c : Char) : Option Char :=
  match c with
  | 'b' => some '\x08'
  | 't' => some '\t'
  | 'n' => some '\n'
  | 'f' => some '\x0c'
  | 'r' => some '\r'
  | '\x22' => some '\x22'
  | '\x5c' => some '\x5c'
  | _ => none

/-- The character with the code that the digits spell, surrogates excluded. -/
def charOfHex? (ds : List Char) : Option Char :=
  (Text.digits? 16 ds).bind fun n => if n.isValidChar then some (Char.ofNat n) else none

/-- What comes of an escape after its backslash, and what follows it. -/
def escape? : List Char → Option (Char × List Char)
  | 'u' :: a :: b :: c :: d :: rest => (charOfHex? [a, b, c, d]).map fun x => (x, rest)
  | 'U' :: a :: b :: c :: d :: e :: f :: g :: h :: rest =>
    (charOfHex? [a, b, c, d, e, f, g, h]).map fun x => (x, rest)
  | c :: rest => (shortEscape? c).map fun x => (x, rest)
  | [] => none

/-- A string with escapes on one line, after its opening quote. -/
def basicString? : (steps : Nat) → List Char → Option (List Char × List Char)
  | 0, _ => none
  | steps + 1, cs =>
    match cs with
    | '\x22' :: rest => some ([], rest)
    | '\x5c' :: rest => do
      let (c, rest) ← escape? rest
      let (s, tail) ← basicString? steps rest
      return (c :: s, tail)
    | c :: rest =>
      if isInLine c then (basicString? steps rest).map fun (s, tail) => (c :: s, tail) else none
    | [] => none

/-- A string without escapes on one line, after its opening quote. -/
def literalString? (cs : List Char) : Option (List Char × List Char) :=
  match cs.span fun c => isInLine c && c != '\x27' with
  | (s, '\x27' :: rest) => some (s, rest)
  | _ => none

/-- The end of a string in triple quotes: the quotes that still belong to it, at most two, and what
follows the closing three. -/
def closing? (quote : Char) (cs : List Char) : Option (List Char × List Char) :=
  let run := (cs.takeWhile (· == quote)).length
  if run < 3 then none
  else
    let own := min (run - 3) 2
    some (List.replicate own quote, cs.drop (own + 3))

/-- The text without the blanks and line breaks in front. -/
def dropBreaks : List Char → List Char
  | ' ' :: rest => dropBreaks rest
  | '\t' :: rest => dropBreaks rest
  | '\n' :: rest => dropBreaks rest
  | '\r' :: '\n' :: rest => dropBreaks rest
  | cs => cs

/-- A string with escapes in triple quotes, after these. A backslash at the end of a line joins it
with the next text. -/
def basicLines? : (steps : Nat) → List Char → Option (List Char × List Char)
  | 0, _ => none
  | steps + 1, cs =>
    match closing? '\x22' cs with
    | some done => some done
    | none =>
      match cs with
      | '\x5c' :: rest =>
        match lineBreak? (skipBlanks rest) with
        | some tail => basicLines? steps (dropBreaks tail)
        | none => do
          let (c, rest) ← escape? rest
          let (s, tail) ← basicLines? steps rest
          return (c :: s, tail)
      | c :: rest =>
        match lineBreak? cs with
        | some rest => (basicLines? steps rest).map fun (s, tail) => ('\n' :: s, tail)
        | none =>
          if isInLine c then (basicLines? steps rest).map fun (s, tail) => (c :: s, tail) else none
      | [] => none

/-- A string without escapes in triple quotes, after these. -/
def literalLines? : (steps : Nat) → List Char → Option (List Char × List Char)
  | 0, _ => none
  | steps + 1, cs =>
    match closing? '\x27' cs with
    | some done => some done
    | none =>
      match cs with
      | c :: rest =>
        match lineBreak? cs with
        | some rest => (literalLines? steps rest).map fun (s, tail) => ('\n' :: s, tail)
        | none =>
          if isInLine c then (literalLines? steps rest).map fun (s, tail) => (c :: s, tail) else none
      | [] => none

/-- The text without a line break in front. -/
def skipLineBreak (cs : List Char) : List Char := (lineBreak? cs).getD cs

/-- A string of any of the four kinds. -/
def string? (cs : List Char) : Option (List Char × List Char) :=
  match cs with
  | '\x22' :: '\x22' :: '\x22' :: rest => basicLines? (rest.length + 1) (skipLineBreak rest)
  | '\x22' :: rest => basicString? (rest.length + 1) rest
  | '\x27' :: '\x27' :: '\x27' :: rest => literalLines? (rest.length + 1) (skipLineBreak rest)
  | '\x27' :: rest => literalString? rest
  | _ => none

/-! ### Keys -/

def isBareKey (c : Char) : Bool := c.isAlphanum || c == '_' || c == '-'

def simpleKey? (cs : List Char) : Option (String × List Char) :=
  match cs with
  | '\x22' :: rest => (basicString? (rest.length + 1) rest).map fun (s, tail) => (String.ofList s, tail)
  | '\x27' :: rest => (literalString? rest).map fun (s, tail) => (String.ofList s, tail)
  | _ =>
    match cs.span isBareKey with
    | ([], _) => none
    | (s, tail) => some (String.ofList s, tail)

/-- Keys with dots between them, and blanks around any of them. -/
def dottedKey? : (steps : Nat) → List Char → Option (List String × List Char)
  | 0, _ => none
  | steps + 1, cs => do
    let (key, rest) ← simpleKey? (skipBlanks cs)
    match skipBlanks rest with
    | '.' :: rest =>
      let (path, tail) ← dottedKey? steps rest
      return (key :: path, tail)
    | rest => return ([key], rest)

/-- A path and the key at its end. -/
def key? (cs : List Char) : Option ((List String × String) × List Char) := do
  let (path, rest) ← dottedKey? depthBound cs
  let key ← path.getLast?
  if path.length < depthBound then return ((path.dropLast, key), rest)
  none

/-! ### Values -/

/-- Whether a character may stand in a number, a date or a time. -/
def isInRun (c : Char) : Bool := c.isAlphanum || c == '+' || c == '-' || c == '_' || c == ':' || c == '.'

/-- A value that is one run of characters, or two with a blank between date and time. -/
def run? (cs : List Char) : Option (Document × List Char) :=
  let (run, rest) := cs.span isInRun
  if run == "true".toList then some (.bool true, rest)
  else if run == "false".toList then some (.bool false, rest)
  else
    let (time, tail) := (rest.drop 1).span isInRun
    if isDate run && rest.head? == some ' ' && isTimeAndOffset time then
      some (momentDocument (run ++ ' ' :: time), tail)
    else (ofRun? run).map fun d => (d, rest)

mutual

/-- A value, `level` deep in lists and inline tables. -/
def value? : (steps level : Nat) → List Char → Option (Document × List Char)
  | 0, _, _ => none
  | steps + 1, level, cs =>
    match cs with
    | '[' :: rest =>
      if level + 1 < depthBound then
        (items? steps (level + 1) rest).map fun (ds, tail) => (.list ds, tail)
      else none
    | '\x7b' :: rest =>
      if level + 1 < depthBound then
        match skipBlanks rest with
        | '\x7d' :: tail => some (.table [], tail)
        | rest => do
          let (pairs, tail) ← pairs? steps (level + 1) rest
          return (← ofPairs? pairs, tail)
      else none
    | c :: _ =>
      if c == '\x22' || c == '\x27' then
        (string? cs).map fun (s, tail) => (.string (String.ofList s), tail)
      else run? cs
    | [] => none

/-- The elements of a list up to its end. The last one may have a comma behind it. -/
def items? : (steps level : Nat) → List Char → Option (List Document × List Char)
  | 0, _, _ => none
  | steps + 1, level, cs =>
    match skipAllLines cs with
    | ']' :: tail => some ([], tail)
    | cs =>
      match value? steps level cs with
      | none => none
      | some (d, rest) =>
        match skipAllLines rest with
        | ']' :: tail => some ([d], tail)
        | ',' :: rest => (items? steps level rest).map fun (ds, tail) => (d :: ds, tail)
        | _ => none

/-- The pairs of an inline table up to its end, at least one, all on one line. -/
def pairs? : (steps level : Nat) → List Char → Option (List (List String × String × Document) × List Char)
  | 0, _, _ => none
  | steps + 1, level, cs =>
    match key? cs with
    | some ((path, key), '=' :: rest) =>
      match value? steps level (skipBlanks rest) with
      | none => none
      | some (d, rest) =>
        match skipBlanks rest with
        | '\x7d' :: tail => some ([(path, key, d)], tail)
        | ',' :: rest => (pairs? steps level rest).map fun (ps, tail) => ((path, key, d) :: ps, tail)
        | _ => none
    | _ => none

end

/-! ### Lines -/

/-- A line that is a header, a list header, or a pair, and what follows it. -/
def statement? (cs : List Char) : Option (Statement × List Char) := do
  match cs with
  | '[' :: '[' :: rest =>
    let ((path, key), rest) ← key? rest
    let ']' :: ']' :: rest := rest | none
    return (.listHeader path key, ← endLine? rest)
  | '[' :: rest =>
    let ((path, key), rest) ← key? rest
    let ']' :: rest := rest | none
    return (.header path key, ← endLine? rest)
  | _ =>
    let ((path, key), rest) ← key? cs
    let '=' :: rest := rest | none
    let (d, rest) ← value? (2 * rest.length + 2) 0 (skipBlanks rest)
    return (.assign path key d, ← endLine? rest)

/-- The statements of a text, at most `steps` of them. -/
def statements? : (steps : Nat) → List Char → Option (List Statement)
  | 0, _ => none
  | steps + 1, cs =>
    match skipAllLines cs with
    | [] => some []
    | '#' :: rest => if (rest.dropWhile isInLine).isEmpty then some [] else none
    | cs => do
      let (statement, rest) ← statement? cs
      return statement :: (← statements? steps rest)

/-- The document that a text is. One byte order mark may stand in front. -/
def read? (text : String) : Option Document :=
  let cs :=
    match text.toList with
    | '\ufeff' :: rest => rest
    | cs => cs
  (statements? (cs.length + 1) cs).bind ofStatements?

end StakeChain.Toml
