/-!
Hexadecimal text. Encoding writes two lower-case digits for each byte; decoding works on the UTF-8
bytes of the text, takes digits of either case and names the first thing that is wrong.
-/

namespace StakeChain.Text

/-- Why a text is not the hexadecimal form of the bytes asked for. -/
inductive HexError where
  | oddLength
  | wrongLength
  /-- The byte, and how many bytes come before it. -/
  | invalidDigit (byte : UInt8) (index : Nat)
deriving DecidableEq

/-- The UTF-8 bytes of a text. -/
def utf8 (cs : List Char) : List UInt8 := cs.flatMap String.utf8EncodeChar

namespace Hex

/-- The digit for a value below sixteen, letters in lower case. -/
def digit (n : Nat) : Char := Char.ofNat (if n < 10 then 48 + n else 87 + n)

def encodeByte (b : UInt8) : List Char := [digit (b.toNat / 16), digit (b.toNat % 16)]

def encode (bs : List UInt8) : List Char := bs.flatMap encodeByte

/-- The value of a digit of either case. -/
def value? (b : UInt8) : Option Nat :=
  let n := b.toNat
  if 48 ≤ n ∧ n < 58 then some (n - 48)
  else if 97 ≤ n ∧ n < 103 then some (n - 87)
  else if 65 ≤ n ∧ n < 71 then some (n - 55)
  else none

/-- Bytes from pairs of digits; `index` is the number of digits already read. -/
def decodePairs : Nat → List UInt8 → Except HexError (List UInt8)
  | _, [] => .ok []
  | _, [_] => .error .oddLength
  | index, hi :: lo :: rest =>
    match value? hi, value? lo with
    | none, _ => .error (.invalidDigit hi index)
    | _, none => .error (.invalidDigit lo (index + 1))
    | some h, some l => (decodePairs (index + 2) rest).map (UInt8.ofNat (16 * h + l) :: ·)

/-- The bytes that a text of any even length spells. -/
def decode (cs : List Char) : Except HexError (List UInt8) :=
  let bs := utf8 cs
  if bs.length % 2 ≠ 0 then .error .oddLength else decodePairs 0 bs

/-- The bytes that a text spells, when exactly `n` bytes are asked for. -/
def decodeExactly (n : Nat) (cs : List Char) : Except HexError (List UInt8) :=
  let bs := utf8 cs
  if bs.length % 2 ≠ 0 then .error .oddLength
  else if bs.length ≠ 2 * n then .error .wrongLength
  else decodePairs 0 bs

end Hex

/-- A byte, read as the character with that code, between single quotes. Quotes, the backslash and
characters that do not print are escaped. -/
def quotedByte (b : UInt8) : String :=
  let body :=
    match b.toNat with
    | 0 => "\\0".toList
    | 9 => "\\t".toList
    | 10 => "\\n".toList
    | 13 => "\\r".toList
    | 39 => ['\x5c', '\x27']
    | 92 => ['\x5c', '\x5c']
    | n =>
      if n < 32 ∨ (127 ≤ n ∧ n ≤ 160) ∨ n = 173 then
        "\\u\x7b".toList ++ Nat.toDigits 16 n ++ ['\x7d']
      else [Char.ofNat n]
  String.ofList ('\x27' :: body ++ ['\x27'])

/-- The wording of a decoding error. -/
def HexError.message : HexError → String
  | .oddLength => "Odd number of digits"
  | .wrongLength => "Invalid string length"
  | .invalidDigit byte index => s!"Invalid character {quotedByte byte} at position {index}"

end StakeChain.Text
