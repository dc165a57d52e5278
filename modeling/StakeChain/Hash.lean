import StakeChain.Bytes
import StakeChain.Sha256
/-!
Block hashes, transaction ids and kernel proofs: thirty-two bytes, read as a number least
significant byte first. `Hash.doubleSha256` is the only way the chain computes one.
-/

namespace StakeChain

/-- Thirty-two bytes. -/
structure Hash where
  bytes : Vector UInt8 32
deriving DecidableEq

namespace Hash

/-- The hash whose bytes are all zero. -/
def zero : Hash := ⟨Vector.replicate 32 0⟩

instance : Inhabited Hash := ⟨zero⟩

/-- The first thirty-two of the bytes, filled up with zeros. -/
def ofBytes (bs : List UInt8) : Hash := ⟨Vector.ofFn fun i => bs.getD i 0⟩

def toBytes (h : Hash) : List UInt8 := h.bytes.toList

@[simp] theorem length_toBytes (h : Hash) : h.toBytes.length = 32 := by simp [toBytes]

theorem toBytes_ofBytes {bs : List UInt8} (h : bs.length = 32) : (ofBytes bs).toBytes = bs := by
  apply List.ext_getElem <;> simp +contextual [toBytes, ofBytes, h, List.getD_eq_getElem?_getD]

@[simp] theorem ofBytes_toBytes (h : Hash) : ofBytes h.toBytes = h := by
  obtain ⟨bytes⟩ := h
  simp only [ofBytes, toBytes, mk.injEq]
  ext i hi
  simp [List.getD_eq_getElem?_getD]

theorem toBytes_injective {g h : Hash} (e : g.toBytes = h.toBytes) : g = h := by
  rw [← ofBytes_toBytes g, e, ofBytes_toBytes]

def isZero (h : Hash) : Bool := h.toBytes.all (· == 0)

/-- The hash as an unsigned number. -/
def toNat (h : Hash) : Nat := ofLittleEndian h.toBytes

/-- The low sixty-four bits of the number. -/
def low64 (h : Hash) : UInt64 := UInt64.ofNat (ofLittleEndian (h.toBytes.take 8))

/-- The number read most significant byte first. Hashes in order of rank are in the lexicographic
order of their bytes. -/
def rank (h : Hash) : Nat := ofLittleEndian h.toBytes.reverse

theorem rank_injective {g h : Hash} (e : g.rank = h.rank) : g = h := by
  have hreverse : g.toBytes.reverse = h.toBytes.reverse := ofLittleEndian_inj (by simp) e
  exact toBytes_injective (List.reverse_inj.1 hreverse)

/-- SHA-256 of SHA-256. -/
def doubleSha256 (message : List UInt8) : Hash := ofBytes (Sha256.digest (Sha256.digest message))

end Hash

end StakeChain
