import StakeChain.Document
/-!
Reading JSON, strictly: no comments, no trailing commas, no leading zeros, four kinds of blanks, and
nothing but blanks after the value. A string whose escapes pair no surrogates is well formed, but
has no reading.
-/

namespace StakeChain.Json

def isSpace (c : Char) : Bool := c == ' ' || c == '\n' || c == '\t' || c == '\r'

def skipSpace (cs : List Char) : List Char := cs.dropWhile isSpace

def isDigit (c : Char) : Bool := '0' ≤ c && c ≤ '9'

/-! ### Strings -/

/-- What a string literal is made of: characters, and UTF-16 units written as escapes. -/
inductive Piece where
  | char (c : Char)
  | unit (n : Nat)

def hexDigit? (c : Char) : Option Nat :=
  if '0' ≤ c ∧ c ≤ '9' then some (c.toNat - 48)
  else if 'a' ≤ c ∧ c ≤ 'f' then some (c.toNat - 87)
  else if 'A' ≤ c ∧ c ≤ 'F' then some (c.toNat - 55)
  else none

/-- The number that hexadecimal digits spell. -/
def hexNumber? (cs : List Char) : Option Nat :=
  cs.foldlM (fun n c => (hexDigit? c).map (16 * n + ·)) 0

/-- The character that a backslash and `c` stand for. -/
def shortEscape? (c : Char) : Option Char :=
  match c with
  | '\x22' => some '\x22'
  | '\x5c' => some '\x5c'
  | '/' => some '/'
  | 'b' => some '\x08'
  | 'f' => some '\x0c'
  | 'n' => some '\n'
  | 'r' => some '\r'
  | 't' => some '\t'
  | _ => none

/-- The pieces of a literal up to its closing quote, and what follows it. -/
def pieces? : List Char → Option (List Piece × List Char)
  | [] => none
  | '\x22' :: rest => some ([], rest)
  | '\x5c' :: 'u' :: a :: b :: c :: d :: rest =>
    match hexNumber? [a, b, c, d], pieces? rest with
    | some n, some (ps, tail) => some (.unit n :: ps, tail)
    | _, _ => none
  | '\x5c' :: e :: rest =>
    match shortEscape? e, pieces? rest with
    | some c, some (ps, tail) => some (.char c :: ps, tail)
    | _, _ => none
  | c :: rest => if c < ' ' then none else (pieces? rest).map fun (ps, tail) => (.char c :: ps, tail)

/-- The text that pieces spell. A high surrogate needs a low one right after it. -/
def spell? : List Piece → Option (List Char)
  | [] => some []
  | .char c :: rest => (spell? rest).map (c :: ·)
  | .unit n :: rest =>
    if 0xd800 ≤ n ∧ n < 0xdc00 then
      match rest with
      | .unit m :: rest =>
        if 0xdc00 ≤ m ∧ m < 0xe000 then
          (spell? rest).map (Char.ofNat (0x10000 + (n - 0xd800) * 0x400 + (m - 0xdc00)) :: ·)
        else none
      | _ => none
    else if 0xdc00 ≤ n ∧ n < 0xe000 then none
    else (spell? rest).map (Char.ofNat n :: ·)

/-- A string after its opening quote: its text, if it spells one, and what follows. -/
def string? (cs : List Char) : Option (Option String × List Char) :=
  (pieces? cs).map fun (ps, tail) => ((spell? ps).map String.ofList, tail)

/-! ### Numbers -/

/-- One or more digits, and what follows them. -/
def digits? (cs : List Char) : Option (List Char × List Char) :=
  match cs.span isDigit with
  | ([], _) => none
  | (ds, rest) => some (ds, rest)

/-- The digits of an integer part: a single zero, or digits that begin with another. -/
def integerPart? : List Char → Option (List Char × List Char)
  | '0' :: rest => some (['0'], rest)
  | cs => digits? cs

/-- A fraction, if there is one. -/
def fraction? : List Char → Option (List Char × List Char)
  | '.' :: rest => (digits? rest).map fun (ds, tail) => ('.' :: ds, tail)
  | cs => some ([], cs)

/-- An exponent, if there is one. -/
def exponent? : List Char → Option (List Char × List Char)
  | e :: rest =>
    if e == 'e' || e == 'E' then
      let (sign, rest) :=
        match rest with
        | '+' :: tail => (['+'], tail)
        | '-' :: tail => (['-'], tail)
        | _ => ([], rest)
      (digits? rest).map fun (ds, tail) => (e :: sign ++ ds, tail)
    else some ([], e :: rest)
  | [] => some ([], [])

/-- The number that decimal digits spell. -/
def decimalValue (ds : List Char) : Nat := ds.foldl (fun n c => 10 * n + (c.toNat - 48)) 0

/-- A number, and what follows it. -/
def number? (cs : List Char) : Option (Document × List Char) := do
  let (minus, rest) :=
    match cs with
    | '-' :: tail => (true, tail)
    | _ => (false, cs)
  let (whole, rest) ← integerPart? rest
  let (fraction, rest) ← fraction? rest
  let (exponent, rest) ← exponent? rest
  let n := decimalValue whole
  if fraction.isEmpty && exponent.isEmpty && !(minus && n == 0) then
    return (.int (if minus then -(n : Int) else n), rest)
  let sign := if minus then ['-'] else []
  return (.decimal (String.ofList (sign ++ whole ++ fraction ++ exponent)), rest)

/-! ### Values -/

/-- A string value. -/
def ofText : Option String → Document
  | some s => .string s
  | none => .unreadable

/-- A table value; one key without a text leaves all of it without a reading. -/
def ofMembers (members : List (Option String × Document)) : Document :=
  match members.mapM fun m => m.1.map fun key => (key, m.2) with
  | some members => .table members
  | none => .unreadable

mutual

/-- A value, and what follows it; `depth` bounds the number of nested calls. -/
def value? : (depth : Nat) → List Char → Option (Document × List Char)
  | 0, _ => none
  | depth + 1, cs =>
    match skipSpace cs with
    | 'n' :: 'u' :: 'l' :: 'l' :: rest => some (.null, rest)
    | 't' :: 'r' :: 'u' :: 'e' :: rest => some (.bool true, rest)
    | 'f' :: 'a' :: 'l' :: 's' :: 'e' :: rest => some (.bool false, rest)
    | '\x22' :: rest => (string? rest).map fun (s, tail) => (ofText s, tail)
    | '[' :: rest =>
      match skipSpace rest with
      | ']' :: tail => some (.list [], tail)
      | _ => (items? depth rest).map fun (ds, tail) => (.list ds, tail)
    | '\x7b' :: rest =>
      match skipSpace rest with
      | '\x7d' :: tail => some (.table [], tail)
      | _ => (members? depth rest).map fun (ms, tail) => (ofMembers ms, tail)
    | rest => number? rest

/-- The elements of a list up to its end, at least one. -/
def items? : (depth : Nat) → List Char → Option (List Document × List Char)
  | 0, _ => none
  | depth + 1, cs =>
    match value? depth cs with
    | none => none
    | some (d, rest) =>
      match skipSpace rest with
      | ']' :: tail => some ([d], tail)
      | ',' :: tail => (items? depth tail).map fun (ds, tail) => (d :: ds, tail)
      | _ => none

/-- The members of a table up to its end, at least one. -/
def members? : (depth : Nat) → List Char → Option (List (Option String × Document) × List Char)
  | 0, _ => none
  | depth + 1, cs =>
    match skipSpace cs with
    | '\x22' :: rest =>
      match string? rest with
      | none => none
      | some (key, rest) =>
        match skipSpace rest with
        | ':' :: rest =>
          match value? depth rest with
          | none => none
          | some (d, rest) =>
            match skipSpace rest with
            | '\x7d' :: tail => some ([(key, d)], tail)
            | ',' :: tail => (members? depth tail).map fun (ms, tail) => ((key, d) :: ms, tail)
            | _ => none
        | _ => none
    | _ => none

end

/-- The document that a text is. Every character opens at most two nested calls. -/
def read? (text : String) : Option Document :=
  let cs := text.toList
  match value? (2 * cs.length + 2) cs with
  | some (d, rest) => if (skipSpace rest).isEmpty then some d else none
  | none => none

end StakeChain.Json
