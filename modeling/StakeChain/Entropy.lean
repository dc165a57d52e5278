import StakeChain.Protocol
import StakeChain.Hash.Text
/-!
The bit that each block gives to stake modifiers. From version 0.4 on it is the lowest bit of the
block's hash; before, it is the highest bit of the last byte of the digest of the block's signature.
-/

namespace StakeChain

/-- The twenty bytes of a digest of a block's signature. -/
abbrev SignatureDigest := Vector UInt8 20

/-- The digest of an empty signature. -/
def SignatureDigest.ofEmpty : SignatureDigest := #v[
  0xb4, 0x72, 0xa2, 0x66, 0xd0, 0xbd, 0x89, 0xc1, 0x37, 0x06, 0xa4, 0x13, 0x2c, 0xcf, 0xb1, 0x6f,
  0x7c, 0x3b, 0x9f, 0xcb]

/-- The lowest bit of the hash read as a number. -/
def Hash.entropy (h : Hash) : Bool := h.low64 &&& 1 == 1

/-- The bit of a block; a block without a signature counts as signed with an empty one. -/
def Parameters.entropy (p : Parameters) (time : UInt32) (hash : Hash)
    (digest : Option SignatureDigest) : Bool :=
  if p.inForce .v04 time then hash.entropy
  else (digest.getD .ofEmpty)[19] >>> 7 == 1

end StakeChain
