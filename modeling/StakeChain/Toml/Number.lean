import StakeChain.Document
import StakeChain.Text.Numeral
/-!
Numbers, dates and times in TOML. Each is one run of characters without blanks, except that a blank
may stand between a date and its time.
-/

namespace StakeChain.Toml

def isDecimal (c : Char) : Bool := '0' ≤ c && c ≤ '9'

/-- The digits of a text of digits in which single underscores may stand between digits. -/
def joined? (isDigit : Char → Bool) : List Char → Option (List Char)
  | [] => none
  | [c] => if isDigit c then some [c] else none
  | c :: '_' :: rest => if isDigit c then (joined? isDigit rest).map (c :: ·) else none
  | c :: rest => if isDigit c then (joined? isDigit rest).map (c :: ·) else none

/-- A text without its sign, and whether that is a minus. -/
def splitSign : List Char → Bool × List Char
  | '-' :: rest => (true, rest)
  | '+' :: rest => (false, rest)
  | cs => (false, cs)

/-- The digits of a decimal integer without its sign: a lone zero, or no zero in front. -/
def wholeDigits? (cs : List Char) : Option (List Char) :=
  match cs with
  | ['0'] => some ['0']
  | '0' :: _ => none
  | _ => joined? isDecimal cs

/-- An integer in one of the bases that a mark announces; only decimal ones have a sign. -/
def integer? (cs : List Char) : Option Int :=
  let based (base : Nat) (ds : List Char) : Option Int :=
    ((joined? (fun c => (Text.digitValue? base c).isSome) ds).bind (Text.digits? base)).map Int.ofNat
  match cs with
  | '0' :: 'x' :: rest => based 16 rest
  | '0' :: 'o' :: rest => based 8 rest
  | '0' :: 'b' :: rest => based 2 rest
  | _ =>
    let (minus, ds) := splitSign cs
    ((wholeDigits? ds).bind (Text.digits? 10)).map fun n => if minus then -(n : Int) else n

/-- Numbers from here on are nearer to infinity than to any 64-bit float. -/
def floatBound : Nat := (1 <<< 1024) - (1 <<< 970)

/-- Whether `n * 10 ^ e` is too large for a 64-bit float. -/
def overflows (n : Nat) (e : Int) : Bool :=
  if n = 0 then false
  else if 400 < e then true
  else if 0 ≤ e then floatBound ≤ n * Nat.pow 10 e.toNat
  else if ((Nat.toDigits 10 n).length : Int) + e < 300 then false
  else floatBound * Nat.pow 10 (-e).toNat ≤ n

/-- Whether a text is a float: an integer with a fraction or an exponent, not above all floats, or
one of the two special names. -/
def isFloat (cs : List Char) : Bool :=
  let (minus, unsigned) := splitSign cs
  if unsigned == "inf".toList || unsigned == "nan".toList then true
  else
    let (mantissa, exponent) := unsigned.span fun c => c != 'e' && c != 'E'
    let (whole, fraction) := mantissa.span (· != '.')
    let fractionDigits :=
      match fraction with
      | [] => some []
      | _ :: ds => joined? isDecimal ds
    let exponentValue :=
      match exponent with
      | [] => some 0
      | _ :: cs =>
        let (down, ds) := splitSign cs
        ((joined? isDecimal ds).bind (Text.digits? 10)).map fun n => if down then -(n : Int) else n
    match wholeDigits? whole, fractionDigits, exponentValue with
    | some ws, some fs, some e =>
      !(fraction.isEmpty && exponent.isEmpty) &&
        (minus || !overflows ((Text.digits? 10 (ws ++ fs)).getD 0) (e - fs.length))
    | _, _, _ => false

/-- Exactly `n` digits, their number, and what follows. -/
def fixedDigits? (n : Nat) (cs : List Char) : Option (Nat × List Char) :=
  if (cs.take n).length = n && (cs.take n).all isDecimal then
    (Text.digits? 10 (cs.take n)).map fun value => (value, cs.drop n)
  else none

/-- The number of days in a month of a year. -/
def daysIn (year month : Nat) : Nat :=
  if month = 2 then if year % 4 = 0 ∧ (year % 100 ≠ 0 ∨ year % 400 = 0) then 29 else 28
  else if month = 4 ∨ month = 6 ∨ month = 9 ∨ month = 11 then 30
  else 31

/-- What follows a date. -/
def afterDate? (cs : List Char) : Option (List Char) := do
  let (year, cs) ← fixedDigits? 4 cs
  let '-' :: cs := cs | none
  let (month, cs) ← fixedDigits? 2 cs
  let '-' :: cs := cs | none
  let (day, cs) ← fixedDigits? 2 cs
  if 1 ≤ month ∧ month ≤ 12 ∧ 1 ≤ day ∧ day ≤ daysIn year month then return cs
  none

/-- What follows hours and minutes. -/
def afterHourMinute? (cs : List Char) : Option (List Char) := do
  let (hour, cs) ← fixedDigits? 2 cs
  let ':' :: cs := cs | none
  let (minute, cs) ← fixedDigits? 2 cs
  if hour < 24 ∧ minute < 60 then return cs
  none

/-- What follows a time of day. -/
def afterTime? (cs : List Char) : Option (List Char) := do
  let ':' :: cs ← afterHourMinute? cs | none
  let (second, cs) ← fixedDigits? 2 cs
  if 60 < second then none
  match cs with
  | '.' :: rest =>
    let tail := rest.dropWhile isDecimal
    if tail.length < rest.length then return tail
    none
  | _ => return cs

/-- Whether a text is a time of day, with an offset from universal time or without. -/
def isTimeAndOffset (cs : List Char) : Bool :=
  match afterTime? cs with
  | none => false
  | some [] => true
  | some ['Z'] => true
  | some ['z'] => true
  | some (sign :: rest) => (sign == '+' || sign == '-') && afterHourMinute? rest == some []

/-- Whether a text is a date, a time of day, or both in one. -/
def isMoment (cs : List Char) : Bool :=
  match afterDate? cs with
  | some [] => true
  | some (c :: rest) => (c == 'T' || c == 't') && isTimeAndOffset rest
  | none => afterTime? cs == some []

def isDate (cs : List Char) : Bool := afterDate? cs == some []

/-- A moment reads as a table with one reserved key. -/
def momentDocument (literal : List Char) : Document :=
  .table [("$__toml_private_datetime", .string (String.ofList literal))]

/-- The value that a run of characters is. -/
def ofRun? (cs : List Char) : Option Document :=
  if isMoment cs then some (momentDocument cs)
  else if isFloat cs then some (.decimal (String.ofList cs))
  else
    (integer? cs).bind fun n => if -0x8000000000000000 ≤ n ∧ n < 0x8000000000000000 then some (.int n) else none

end StakeChain.Toml
