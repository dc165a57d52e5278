import StakeChain.Entropy
import StakeChain.Transaction
/-!
Blocks offered for acceptance, and what checking one derives.
-/

namespace StakeChain

structure CandidateBlock where
  hash : Hash
  /-- Absent for the first block only. -/
  prevHash : Option Hash
  time : UInt32
  version : Int32
  /-- The compact target. -/
  nBits : UInt32
  transactions : List Transaction
  /-- The digest of the block's signature, from which entropy comes before version 0.4. -/
  signatureDigest : Option SignatureDigest
deriving DecidableEq

namespace CandidateBlock

/-- The second transaction, when it is a coinstake. -/
def coinstake? (b : CandidateBlock) : Option Transaction :=
  b.transactions[1]?.filter Transaction.isCoinstake

def isProofOfStake (b : CandidateBlock) : Bool := b.coinstake?.isSome

end CandidateBlock

/-- What a valid block gets. -/
structure ValidatedBlock where
  height : Nat
  stakeModifier : UInt64
  checksum : UInt32
  generated : Bool
  entropy : Bool
  /-- The kernel's proof, for a proof-of-stake block. -/
  proof : Option Hash
deriving DecidableEq

end StakeChain
