/-!
Numbers as bytes, least significant byte first. Every field of a hashed message and every reading of
a hash as a number uses this order; `ofLittleEndian_littleEndian` says that a field wide enough for
its number loses nothing.
-/

namespace StakeChain

/-- The `width` low bytes of `n`, least significant first. -/
def littleEndian : Nat → Nat → List UInt8
  | 0, _ => []
  | width + 1, n => UInt8.ofNat n :: littleEndian width (n / 256)

/-- The number whose bytes, least significant first, are given. -/
def ofLittleEndian : List UInt8 → Nat
  | [] => 0
  | b :: rest => b.toNat + 256 * ofLittleEndian rest

@[simp] theorem length_littleEndian (width n : Nat) : (littleEndian width n).length = width := by
  induction width generalizing n with
  | zero => rfl
  | succ width ih => simp [littleEndian, ih]

theorem ofLittleEndian_littleEndian {width n : Nat} (h : n < Nat.pow 256 width) :
    ofLittleEndian (littleEndian width n) = n := by
  induction width generalizing n with
  | zero => simp at h; simp [littleEndian, ofLittleEndian, h]
  | succ width ih =>
    have hn : n / 256 < Nat.pow 256 width := by
      have hpow : Nat.pow 256 (width + 1) = Nat.pow 256 width * 256 := rfl
      exact Nat.div_lt_of_lt_mul (by omega)
    simp only [littleEndian, ofLittleEndian, ih hn, UInt8.toNat_ofNat']
    omega

/-- Fields tell the numbers apart that they are wide enough for. -/
theorem littleEndian_inj {width m n : Nat} (hm : m < Nat.pow 256 width) (hn : n < Nat.pow 256 width) :
    littleEndian width m = littleEndian width n ↔ m = n := by
  refine ⟨fun h => ?_, congrArg _⟩
  rw [← ofLittleEndian_littleEndian hm, h, ofLittleEndian_littleEndian hn]

theorem ofLittleEndian_lt (bs : List UInt8) : ofLittleEndian bs < Nat.pow 256 bs.length := by
  induction bs with
  | nil => simp [ofLittleEndian]
  | cons b rest ih =>
    have hb := b.toNat_lt
    have hpow : Nat.pow 256 (rest.length + 1) = Nat.pow 256 rest.length * 256 := rfl
    rw [ofLittleEndian, List.length_cons]
    omega

/-- Bytes in a given number are read back from their number. -/
theorem ofLittleEndian_inj {bs cs : List UInt8} (hlength : bs.length = cs.length)
    (h : ofLittleEndian bs = ofLittleEndian cs) : bs = cs := by
  induction bs generalizing cs with
  | nil => exact (List.eq_nil_of_length_eq_zero hlength.symm).symm
  | cons b bs ih =>
    cases cs with
    | nil => simp at hlength
    | cons c cs =>
      have hb := b.toNat_lt
      have hc := c.toNat_lt
      simp only [ofLittleEndian] at h
      have hhead : b = c := UInt8.toNat_inj.1 (by omega)
      have hrest : bs = cs := ih (by simpa using hlength) (by omega)
      rw [hhead, hrest]

/-- The four bytes of a 32-bit word. -/
def word32 (x : UInt32) : List UInt8 := littleEndian 4 x.toNat

/-- The eight bytes of a 64-bit word. -/
def word64 (x : UInt64) : List UInt8 := littleEndian 8 x.toNat

@[simp] theorem length_word32 (x : UInt32) : (word32 x).length = 4 := length_littleEndian 4 _

@[simp] theorem length_word64 (x : UInt64) : (word64 x).length = 8 := length_littleEndian 8 _

theorem word32_inj {x y : UInt32} : word32 x = word32 y ↔ x = y := by
  rw [word32, word32, littleEndian_inj x.toNat_lt y.toNat_lt, UInt32.toNat_inj]

theorem word64_inj {x y : UInt64} : word64 x = word64 y ↔ x = y := by
  rw [word64, word64, littleEndian_inj x.toNat_lt y.toNat_lt, UInt64.toNat_inj]

end StakeChain
