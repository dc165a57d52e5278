import StakeChain.Chain.Position
import StakeChain.Record.Transaction
import StakeChain.State.Block
/-!
Blocks as records: those of the index, and those offered to it.
-/

namespace StakeChain

open Document

namespace Position

def toDocument (b : Position) : Document :=
  .table [
    ("prev", ofOption .nat b.prev),
    ("height", .nat b.height),
    ("time", .nat b.time.toNat),
    ("version", .int b.version.toInt),
    ("hash", b.hash.toDocument),
    ("flags", .nat b.flags.bits.toNat),
    ("stake_modifier", .nat b.stakeModifier.toNat),
    ("stake_modifier_checksum", .nat b.checksum.toNat),
    ("hash_proof_of_stake", b.proofHash.toDocument)]

def ofDocument? (d : Document) : Option Position := do
  match ← d.fields? ["prev", "height", "time", "version", "hash", "flags", "stake_modifier",
      "stake_modifier_checksum", "hash_proof_of_stake"] with
  | [prev, height, time, version, hash, flags, stakeModifier, checksum, proofHash] =>
    return {
      prev := ← optional nat32? prev
      height := ← required nat32? height
      time := ← required uint32? time
      version := ← required int32? version
      hash := ← required Hash.ofDocument? hash
      flags := ⟨← required uint32? flags⟩
      stakeModifier := ← required uint64? stakeModifier
      checksum := ← required uint32? checksum
      proofHash := ← required Hash.ofDocument? proofHash }
  | _ => none

end Position

namespace CandidateBlock

def toDocument (b : CandidateBlock) : Document :=
  .table [
    ("hash", b.hash.toDocument),
    ("prev_hash", ofOption Hash.toDocument b.prevHash),
    ("time", .nat b.time.toNat),
    ("version", .int b.version.toInt),
    ("n_bits", .nat b.nBits.toNat),
    ("transactions", .list (b.transactions.map Transaction.toDocument)),
    ("signature_digest", ofOption SignatureDigest.toDocument b.signatureDigest)]

/-- A block without a version has version 1. -/
def ofDocument? (d : Document) : Option CandidateBlock := do
  match ← d.fields? ["hash", "prev_hash", "time", "version", "n_bits", "transactions",
      "signature_digest"] with
  | [hash, prevHash, time, version, nBits, transactions, digest] =>
    return {
      hash := ← required Hash.ofDocument? hash
      prevHash := ← optional Hash.ofDocument? prevHash
      time := ← required uint32? time
      version := ← defaulted 1 int32? version
      nBits := ← required uint32? nBits
      transactions := ← required (listOf? Transaction.ofDocument?) transactions
      signatureDigest := ← optional SignatureDigest.ofDocument? digest }
  | _ => none

end CandidateBlock

end StakeChain
