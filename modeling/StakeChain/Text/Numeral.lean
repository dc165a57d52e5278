/-!
Numerals. Reading takes one or more digits of a base, after an optional sign; writing pads with
zeros or blanks to a width.
-/

namespace StakeChain.Text

/-- The value of a digit below `base`, letters of either case standing for ten and more. -/
def digitValue? (base : Nat) (c : Char) : Option Nat :=
  let n := c.toNat
  let value :=
    if '0' ≤ c ∧ c ≤ '9' then some (n - 48)
    else if 'a' ≤ c ∧ c ≤ 'z' then some (n - 87)
    else if 'A' ≤ c ∧ c ≤ 'Z' then some (n - 55)
    else none
  value.filter (· < base)

/-- Reads further digits after those that make up `n`. -/
def digitsFrom? (base n : Nat) : List Char → Option Nat
  | [] => some n
  | c :: rest => (digitValue? base c).bind fun d => digitsFrom? base (base * n + d) rest

/-- One or more digits, and nothing else. -/
def digits? (base : Nat) : List Char → Option Nat
  | [] => none
  | cs => digitsFrom? base 0 cs

/-- Digits after at most one plus sign. -/
def natural? (base : Nat) : List Char → Option Nat
  | '+' :: rest => digits? base rest
  | cs => digits? base cs

/-- Digits after at most one sign. -/
def integer? (base : Nat) : List Char → Option Int
  | '-' :: rest => (digits? base rest).map fun n => -(n : Int)
  | cs => (natural? base cs).map Int.ofNat

/-- A number that fits 32 bits. -/
def word32? (base : Nat) (cs : List Char) : Option UInt32 :=
  (natural? base cs).bind fun n => if n < UInt32.size then some (UInt32.ofNat n) else none

/-- At least `width` lower-case hexadecimal digits after a mark. -/
def markedHex (width n : Nat) : String :=
  let ds := Nat.toDigits 16 n
  String.ofList ('0' :: 'x' :: List.replicate (width - ds.length) '0' ++ ds)

/-- Blanks in front, up to a width. -/
def alignRight (width : Nat) (text : String) : String :=
  String.ofList (List.replicate (width - text.length) ' ') ++ text

end StakeChain.Text
