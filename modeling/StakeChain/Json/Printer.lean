import StakeChain.Document
/-!
Writing JSON, on one line without blanks, or laid out with two blanks for each level.
-/

namespace StakeChain.Json

/-- The two hexadecimal digits of a number below 256. -/
def hexPair (n : Nat) : List Char := [Nat.digitChar (n / 16), Nat.digitChar (n % 16)]

/-- A character inside a string. -/
def escape (c : Char) : List Char :=
  match c with
  | '\x22' => ['\x5c', '\x22']
  | '\x5c' => ['\x5c', '\x5c']
  | '\x08' => ['\x5c', 'b']
  | '\x0c' => ['\x5c', 'f']
  | '\n' => ['\x5c', 'n']
  | '\r' => ['\x5c', 'r']
  | '\t' => ['\x5c', 't']
  | c => if c < ' ' then ['\x5c', 'u', '0', '0'] ++ hexPair c.toNat else [c]

def quoted (s : String) : List Char := '\x22' :: s.toList.flatMap escape ++ ['\x22']

/-- A document that is neither a list nor a table. What has no reading is written as null. -/
def leaf : Document → List Char
  | .bool true => "true".toList
  | .bool false => "false".toList
  | .int n => (toString n).toList
  | .decimal literal => literal.toList
  | .string s => quoted s
  | _ => "null".toList

mutual

/-- The document on one line. -/
def compact : Document → List Char
  | .list items => '[' :: compactItems items ++ [']']
  | .table members => '\x7b' :: compactMembers members ++ ['\x7d']
  | d => leaf d

def compactItems : List Document → List Char
  | [] => []
  | [d] => compact d
  | d :: rest => compact d ++ ',' :: compactItems rest

def compactMembers : List (String × Document) → List Char
  | [] => []
  | [(key, d)] => quoted key ++ ':' :: compact d
  | (key, d) :: rest => quoted key ++ ':' :: compact d ++ ',' :: compactMembers rest

end

/-- A new line at a level. -/
def lineBreak (level : Nat) : List Char := '\n' :: List.replicate (2 * level) ' '

mutual

/-- The document laid out, its first line at a level. -/
def laidOut (level : Nat) : Document → List Char
  | .list [] => ['[', ']']
  | .list items => '[' :: laidOutItems (level + 1) items ++ lineBreak level ++ [']']
  | .table [] => ['\x7b', '\x7d']
  | .table members => '\x7b' :: laidOutMembers (level + 1) members ++ lineBreak level ++ ['\x7d']
  | d => leaf d

def laidOutItems (level : Nat) : List Document → List Char
  | [] => []
  | [d] => lineBreak level ++ laidOut level d
  | d :: rest => lineBreak level ++ laidOut level d ++ ',' :: laidOutItems level rest

def laidOutMembers (level : Nat) : List (String × Document) → List Char
  | [] => []
  | [(key, d)] => lineBreak level ++ quoted key ++ ':' :: ' ' :: laidOut level d
  | (key, d) :: rest =>
    lineBreak level ++ quoted key ++ ':' :: ' ' :: laidOut level d ++ ',' :: laidOutMembers level rest

end

/-- The text of a document on one line. -/
def write (d : Document) : String := String.ofList (compact d)

/-- The text of a document laid out. -/
def writePretty (d : Document) : String := String.ofList (laidOut 0 d)

end StakeChain.Json
