import Mathlib.Algebra.GroupWithZero.Nat
import StakeChain.Checksum
import StakeChain.Modifier.Draw
import StakeChain.Stake.Kernel
/-!
What tells hashed messages apart. Kernels, checksums and scores are hashes of one kind, over fields of fixed
width that are written one after another. No two layouts of fields have the same length, so a message shows its
layout, and with it where each field begins: two calls have one message only where they write the same fields.
-/

namespace StakeChain

/-- Without its lowest bytes a number is divided. -/
theorem ofLittleEndian_drop (bs : List UInt8) (k : Nat) :
    ofLittleEndian (bs.drop k) = ofLittleEndian bs / Nat.pow 256 k := by
  induction k generalizing bs with
  | zero => exact (Nat.div_one _).symm
  | succ k ih =>
    cases bs with
    | nil => simp [ofLittleEndian]
    | cons b bs =>
      have hb := b.toNat_lt
      have hrest : (b.toNat + 256 * ofLittleEndian bs) / 256 = ofLittleEndian bs := by omega
      have hpow : Nat.pow 256 (k + 1) = 256 * Nat.pow 256 k := Nat.mul_comm _ _
      rw [List.drop_succ_cons, ih, ofLittleEndian, hpow, ← Nat.div_div_eq_div_mul, hrest]

/-- What one write adds to a message. -/
inductive Field where
  | word32 (x : UInt32)
  | word64 (x : UInt64)
  | hash (h : Hash)

namespace Field

variable {f g : Field} {fields fields' : List Field}

/-- The bytes of a field; a number has its lowest byte first. -/
def bytes : Field → List UInt8
  | word32 x => littleEndian 4 x.toNat
  | word64 x => littleEndian 8 x.toNat
  | hash h => h.toBytes

def width : Field → Nat
  | word32 _ => 4
  | word64 _ => 8
  | hash _ => 32

@[simp] theorem length_bytes (f : Field) : f.bytes.length = f.width := by
  cases f <;> simp [bytes, width]

/-- Fields of one width are read back from their bytes. -/
theorem eq_of_bytes (hwidth : f.width = g.width) (h : f.bytes = g.bytes) : f = g := by
  cases f <;> cases g <;> simp [width] at hwidth
  case word32.word32 x y => exact congrArg word32 (word32_inj.1 h)
  case word64.word64 x y => exact congrArg word64 (word64_inj.1 h)
  case hash.hash x y => exact congrArg hash (Hash.toBytes_injective h)

theorem length_flatMap_bytes (fields : List Field) :
    (fields.flatMap bytes).length = (fields.map width).sum := by
  simp [List.length_flatMap]

/-- Fields in one layout are read back from the message they are written into. -/
theorem eq_of_flatMap_bytes (hlayout : fields.map width = fields'.map width)
    (h : fields.flatMap bytes = fields'.flatMap bytes) : fields = fields' := by
  induction fields generalizing fields' with
  | nil => exact (List.map_eq_nil_iff.1 hlayout.symm).symm
  | cons f fields ih =>
    obtain _ | ⟨g, fields'⟩ := fields'
    · simp at hlayout
    obtain ⟨hwidth, hlayout⟩ := List.cons.inj hlayout
    obtain ⟨hfirst, hrest⟩ := List.append_inj h (by simp only [length_bytes, hwidth])
    rw [eq_of_bytes hwidth hfirst, ih hlayout hrest]

end Field

/-- A call of one of the functions that hash. -/
inductive HashCall where
  | kernel (m : KernelModifier) (nBits blockTime txOffset prevTime vout time : UInt32)
  | checksum (prevChecksum : Option UInt32) (flags : Flags) (proofHash : Hash) (modifier : UInt64)
  | score (b : Position) (prevModifier : UInt64)

namespace HashCall

/-- What the call writes, in order. -/
def fields : HashCall → List Field
  | kernel (.modifier value) _ blockTime txOffset prevTime vout time =>
    [.word64 value, .word32 blockTime, .word32 txOffset, .word32 prevTime, .word32 vout, .word32 time]
  | kernel .legacyBits nBits blockTime txOffset prevTime vout time =>
    [.word32 nBits, .word32 blockTime, .word32 txOffset, .word32 prevTime, .word32 vout, .word32 time]
  | checksum none flags proofHash modifier => [.word32 flags.bits, .hash proofHash, .word64 modifier]
  | checksum (some prev) flags proofHash modifier =>
    [.word32 prev, .word32 flags.bits, .hash proofHash, .word64 modifier]
  | score b prevModifier => [.hash b.drawHash, .word64 prevModifier]

/-- What is hashed. -/
def message (c : HashCall) : List UInt8 := c.fields.flatMap Field.bytes

/-- The calls are of one function, in one shape, and write the same. The target is written only where there is
no modifier, and of a block its drawing hash alone. -/
def Alike : HashCall → HashCall → Prop
  | kernel m nBits blockTime txOffset prevTime vout time,
      kernel m' nBits' blockTime' txOffset' prevTime' vout' time' =>
    m = m' ∧ (m = .legacyBits → nBits = nBits') ∧ blockTime = blockTime' ∧ txOffset = txOffset' ∧
      prevTime = prevTime' ∧ vout = vout' ∧ time = time'
  | checksum prev flags proofHash modifier, checksum prev' flags' proofHash' modifier' =>
    prev = prev' ∧ flags = flags' ∧ proofHash = proofHash' ∧ modifier = modifier'
  | score b prevModifier, score b' prevModifier' => b.drawHash = b'.drawHash ∧ prevModifier = prevModifier'
  | _, _ => False

theorem message_kernel (m : KernelModifier) (nBits blockTime txOffset prevTime vout time : UInt32) :
    (kernel m nBits blockTime txOffset prevTime vout time).message =
      kernelMessage m nBits blockTime txOffset prevTime vout time := by
  cases m <;> simp [message, fields, Field.bytes, kernelMessage, word32, word64]

theorem message_checksum (prev : Option UInt32) (flags : Flags) (proofHash : Hash) (modifier : UInt64) :
    (checksum prev flags proofHash modifier).message = checksumMessage prev flags proofHash modifier := by
  cases prev <;> simp [message, fields, Field.bytes, checksumMessage, word32, word64]

theorem message_score (b : Position) (prevModifier : UInt64) :
    (score b prevModifier).message = scoreMessage b prevModifier := by
  simp [message, fields, Field.bytes, scoreMessage, word64]

/-- The widths of the fields that a call can write. -/
def layouts : List (List Nat) :=
  [[8, 4, 4, 4, 4, 4], [4, 4, 4, 4, 4, 4], [4, 32, 8], [4, 4, 32, 8], [32, 8]]

theorem layout_mem (c : HashCall) : c.fields.map Field.width ∈ layouts := by
  rcases c with ⟨_ | _, _⟩ | ⟨_ | _, _⟩ | _ <;> simp [layouts, fields, Field.width]

/-- Messages in different layouts have different lengths. -/
theorem layout_eq_of_sum : ∀ a ∈ layouts, ∀ b ∈ layouts, a.sum = b.sum → a = b := by decide

theorem message_inj {c d : HashCall} : c.message = d.message ↔ c.fields = d.fields := by
  refine ⟨fun h => ?_, congrArg _⟩
  have hlength := congrArg List.length h
  rw [message, message, Field.length_flatMap_bytes, Field.length_flatMap_bytes] at hlength
  exact Field.eq_of_flatMap_bytes (layout_eq_of_sum _ c.layout_mem _ d.layout_mem hlength) h

theorem fields_inj {c d : HashCall} : c.fields = d.fields ↔ c.Alike d := by
  rcases c with ⟨_ | _, _⟩ | ⟨_ | _, ⟨_⟩, _⟩ | _ <;>
    rcases d with ⟨_ | _, _⟩ | ⟨_ | _, ⟨_⟩, _⟩ | _ <;>
    simp [fields, Alike]

end HashCall

/-- The checksum of a modifier is the highest thirty-two bits of the hash. -/
theorem toNat_modifierChecksum (prev : Option UInt32) (flags : Flags) (proofHash : Hash) (modifier : UInt64) :
    (modifierChecksum prev flags proofHash modifier).toNat =
      (Hash.doubleSha256 (HashCall.checksum prev flags proofHash modifier).message).toNat >>> 224 := by
  rw [HashCall.message_checksum, modifierChecksum]
  generalize Hash.doubleSha256 (checksumMessage prev flags proofHash modifier) = digest
  have hshort : ofLittleEndian (digest.toBytes.drop 28) < Nat.pow 256 4 := by
    simpa using ofLittleEndian_lt (digest.toBytes.drop 28)
  rw [UInt32.toNat_ofNat', Nat.mod_eq_of_lt hshort, ofLittleEndian_drop, Hash.toNat, Nat.shiftRight_eq_div_pow]

/-- The hash of a kernel, of a checksum or of a score is taken over the fields of the call, written one after
another. Two calls of any of the three have one message exactly when they are calls of one function, in one
shape, that write the same. -/
theorem hashed_messages_unambiguous :
    (∀ m nBits blockTime txOffset prevTime vout time,
      kernelHash m nBits blockTime txOffset prevTime vout time =
        .doubleSha256 (HashCall.kernel m nBits blockTime txOffset prevTime vout time).message) ∧
    (∀ prev flags proofHash modifier, (modifierChecksum prev flags proofHash modifier).toNat =
      (Hash.doubleSha256 (HashCall.checksum prev flags proofHash modifier).message).toNat >>> 224) ∧
    (∀ b prevModifier, drawScore b prevModifier =
      (Hash.doubleSha256 (HashCall.score b prevModifier).message).toNat >>>
        if b.flags.proofOfStake then 32 else 0) ∧
    ∀ c d : HashCall, c.message = d.message ↔ c.Alike d := by
  refine ⟨fun m nBits blockTime txOffset prevTime vout time => ?_, toNat_modifierChecksum,
    fun b prevModifier => ?_, fun c d => HashCall.message_inj.trans HashCall.fields_inj⟩
  · rw [HashCall.message_kernel, kernelHash]
  · simp only [HashCall.message_score, drawScore]
    cases b.flags.proofOfStake with
    | true => simp only [if_true]
    | false => simp only [Bool.false_eq_true, if_false, Nat.shiftRight_zero]

end StakeChain
