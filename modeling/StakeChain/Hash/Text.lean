import StakeChain.Hash
import StakeChain.Text.Blank
import StakeChain.Text.Hex
/-!
Hashes as text: sixty-four hexadecimal digits, most significant byte first, which is the reverse of
the order the bytes are kept in. Reading trims blanks and one hexadecimal mark first.
-/

namespace StakeChain.Hash

open Text

/-- The sixty-four digits shown for a hash. -/
def toChars (h : Hash) : List Char := Hex.encode h.toBytes.reverse

instance : ToString Hash := ⟨fun h => String.ofList h.toChars⟩

/-- Reads the digits of a hash. -/
def parse (text : String) : Except HexError Hash :=
  (Hex.decodeExactly 32 (dropHexMark (trim text.toList))).map fun bs => ofBytes bs.reverse

end StakeChain.Hash
