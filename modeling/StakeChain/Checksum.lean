import StakeChain.Chain.View
import StakeChain.Parameters
/-!
Checksums over stake modifiers. A block's checksum is chained from that of the block before, so one
known checksum vouches for every modifier up to its height.
-/

namespace StakeChain

/-- What is hashed for a checksum. -/
def checksumMessage (prevChecksum : Option UInt32) (flags : Flags) (proofHash : Hash)
    (modifier : UInt64) : List UInt8 :=
  (prevChecksum.map word32).getD [] ++ word32 flags.bits ++ proofHash.toBytes ++ word64 modifier

/-- The highest thirty-two bits of the hash. -/
def modifierChecksum (prevChecksum : Option UInt32) (flags : Flags) (proofHash : Hash)
    (modifier : UInt64) : UInt32 :=
  let digest := Hash.doubleSha256 (checksumMessage prevChecksum flags proofHash modifier)
  UInt32.ofNat (ofLittleEndian (digest.toBytes.drop 28))

/-- The checksum of a block, chained from the one stored for the block before. -/
def View.checksumOf (v : View) (b : Position) : Except ConsensusError UInt32 := do
  let prevChecksum ← b.prev.mapM fun prev => (v.resolve prev).map Position.checksum
  return modifierChecksum prevChecksum b.flags b.proofHash b.stakeModifier

/-- Refuses a checksum that differs from the one pinned to its height. -/
def Parameters.enforceCheckpoint (p : Parameters) (height : Nat) (checksum : UInt32) :
    Except Rejection Unit :=
  match p.checkpoints.get? height with
  | some expected =>
    if expected = checksum then .ok () else .error (.checkpointMismatch height checksum expected)
  | none => .ok ()

end StakeChain
