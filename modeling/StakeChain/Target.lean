/-!
Targets and their compact form. A target is a number below `2 ^ 256`; its compact form is a 32-bit
word with a length in bytes on top of the three leading bytes, of which the highest bit is a sign
that targets do not use.
-/

namespace StakeChain.Target

/-- Targets stay below this. -/
def bound : Nat := 1 <<< 256

/-- The remainder that a 256-bit word keeps. -/
def truncate (n : Nat) : Nat := n % bound

/-- The number of binary digits of `n`. -/
def bitLength (n : Nat) : Nat := if n = 0 then 0 else n.log2 + 1

/-- The number of bytes that `n` fills. -/
def byteLength (n : Nat) : Nat := (bitLength n + 7) / 8

/-- The target that a compact word stands for. The sign bit counts for nothing. -/
def ofCompact (compact : UInt32) : Nat :=
  let size := compact.toNat >>> 24
  let word := compact.toNat % 0x800000
  if size ≤ 3 then word >>> (8 * (3 - size)) else truncate (word <<< (8 * (size - 3)))

/-- The compact word of a number: its byte length, and its three leading bytes. Where the sign bit
would be set, a zero byte is put in front. A length of 256 or more keeps its low eight bits. -/
def toCompact (n : Nat) : UInt32 :=
  let size := byteLength n
  let word := if size ≤ 3 then n <<< (8 * (3 - size)) else n >>> (8 * (size - 3))
  if word < 0x800000 then UInt32.ofNat (word + (size <<< 24))
  else UInt32.ofNat ((word >>> 8) + ((size + 1) <<< 24))

end StakeChain.Target
