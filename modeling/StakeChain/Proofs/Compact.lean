import Mathlib.Algebra.Group.Nat.Defs
import Mathlib.Order.Bounds.Basic
import StakeChain.Target
/-!
What compact words make of targets. A word keeps the leading bytes of a target and cuts off the low ones,
with twenty-three bits left for the leading bytes, so a byte more goes where the highest would be a sign.
What is left is the greatest target, not above the one encoded, that has a compact word at all.
-/

namespace StakeChain.Target

variable {n v k size word : Nat}

theorem bound_eq : bound = 2 ^ 256 := Nat.one_shiftLeft 256

/-! ### Digits of a number -/

theorem bitLength_le_iff : bitLength n ≤ k ↔ n < 2 ^ k := by
  unfold bitLength
  split
  · rename_i hn
    rw [hn]
    exact iff_of_true (Nat.zero_le k) (Nat.two_pow_pos k)
  · rename_i hn
    exact Nat.log2_lt hn

theorem lt_two_pow_bitLength : n < 2 ^ bitLength n := bitLength_le_iff.1 (Nat.le_refl _)

theorem two_pow_le (h : k < bitLength n) : 2 ^ k ≤ n :=
  Nat.not_lt.1 fun hlt => Nat.not_le.2 h (bitLength_le_iff.2 hlt)

theorem bitLength_pos (hn : n ≠ 0) : 0 < bitLength n := by
  rw [bitLength, if_neg hn]
  exact Nat.succ_pos _

/-! ### Words -/

/-- The word with a length in bytes on top of the leading bytes. -/
def packed (size word : Nat) : UInt32 := UInt32.ofNat (word + (size <<< 24))

/-- The three leading bytes of a number that fills `size` bytes. -/
def leading (size n : Nat) : Nat := if size ≤ 3 then n <<< (8 * (3 - size)) else n >>> (8 * (size - 3))

theorem ofCompact_packed (hsize : size < 256) (hword : word < 0x800000) :
    ofCompact (packed size word) =
      if size ≤ 3 then word >>> (8 * (3 - size)) else truncate (word <<< (8 * (size - 3))) := by
  have htoNat : (packed size word).toNat = word + size * 2 ^ 24 := by
    rw [packed, Nat.shiftLeft_eq]
    exact UInt32.toNat_ofNat_of_lt' (by
      change word + size * 2 ^ 24 < 2 ^ 32
      omega)
  have hlength : (word + size * 2 ^ 24) >>> 24 = size := by
    rw [Nat.shiftRight_eq_div_pow]
    omega
  have hbytes : (word + size * 2 ^ 24) % 0x800000 = word := by omega
  simp only [ofCompact, htoNat, hlength, hbytes]

/-- One byte more in front moves the leading bytes on by one. -/
theorem leading_succ : leading size n >>> 8 = leading (size + 1) n := by
  unfold leading
  split
  · rename_i hsmall
    split
    · have hshift : 8 * (3 - size) = 8 * (3 - (size + 1)) + 8 := by omega
      rw [hshift, Nat.shiftLeft_add, Nat.shiftLeft_shiftRight]
    · obtain rfl : size = 3 := by omega
      rfl
  · rename_i hlarge
    rw [if_neg (by omega), ← Nat.shiftRight_add]
    congr 1
    omega

/-- The sign bit is clear when the number leaves the highest bit of its bytes free. -/
theorem leading_lt_iff (hsize : 0 < size) : leading size n < 0x800000 ↔ bitLength n < 8 * size := by
  have hbits : bitLength n < 8 * size ↔ n < 2 ^ (8 * size - 1) := by
    rw [← bitLength_le_iff]
    omega
  rw [hbits, leading]
  split
  · have hpow : 0x800000 = 2 ^ (8 * size - 1) * 2 ^ (8 * (3 - size)) := by
      rw [← Nat.pow_add, show 8 * size - 1 + 8 * (3 - size) = 23 by omega]
    rw [Nat.shiftLeft_eq, hpow]
    exact Nat.mul_lt_mul_right (Nat.two_pow_pos _)
  · have hpow : 2 ^ (8 * size - 1) = 0x800000 * 2 ^ (8 * (size - 3)) := by
      rw [show 8 * size - 1 = 23 + 8 * (size - 3) by omega, Nat.pow_add]
    rw [Nat.shiftRight_eq_div_pow, hpow]
    exact Nat.div_lt_iff_lt_mul (Nat.two_pow_pos _)

/-- The length in a compact word is that of the number's bits with a free one in front. -/
theorem toCompact_eq (hn : n ≠ 0) :
    toCompact n = packed (bitLength n / 8 + 1) (leading (bitLength n / 8 + 1) n) := by
  have hpos := bitLength_pos hn
  have hsize : 0 < byteLength n := by
    unfold byteLength
    omega
  have hword : toCompact n = if leading (byteLength n) n < 0x800000 then
      packed (byteLength n) (leading (byteLength n) n)
      else packed (byteLength n + 1) (leading (byteLength n) n >>> 8) := rfl
  rw [hword, leading_succ]
  split
  · rename_i hclear
    have hlength : byteLength n = bitLength n / 8 + 1 := by
      have := (leading_lt_iff hsize).1 hclear
      unfold byteLength at *
      omega
    rw [hlength]
  · rename_i hset
    have hlength : byteLength n + 1 = bitLength n / 8 + 1 := by
      have := mt (leading_lt_iff hsize).2 hset
      unfold byteLength at *
      omega
    rw [hlength]

/-! ### Rounding -/

/-- The number of low bytes of `n` that its compact form leaves out. -/
def droppedBytes (n : Nat) : Nat := bitLength n / 8 + 1 - 3

/-- The place value of the lowest byte of `n` that its compact form keeps. -/
def unit (n : Nat) : Nat := 2 ^ (8 * droppedBytes n)

theorem unit_pos : 0 < unit n := Nat.two_pow_pos _

/-- `n` without the bytes below its unit. -/
def cut (n : Nat) : Nat := n / unit n * unit n

theorem cut_le : cut n ≤ n := Nat.div_mul_le_self _ _

/-- Encoding a target and decoding it again cuts it. -/
theorem ofCompact_toCompact (hn : n < bound) : ofCompact (toCompact n) = cut n := by
  by_cases hzero : n = 0
  · subst hzero
    rfl
  have hbits : bitLength n ≤ 256 := bitLength_le_iff.2 hn
  rw [toCompact_eq hzero, ofCompact_packed (by omega) ((leading_lt_iff (Nat.succ_pos _)).2 (by omega)),
    leading, cut, unit, droppedBytes]
  split
  · rename_i hsmall
    rw [Nat.shiftLeft_shiftRight, Nat.sub_eq_zero_of_le hsmall]
    simp
  · rw [Nat.shiftLeft_eq, Nat.shiftRight_eq_div_pow, truncate]
    exact Nat.mod_eq_of_lt (Nat.lt_of_le_of_lt (Nat.div_mul_le_self _ _) hn)

/-- A multiple of the unit that is not above `n` is not above what is left of `n`. -/
theorem mul_unit_le (h : k * unit n ≤ n) : k * unit n ≤ cut n :=
  Nat.mul_le_mul_right _ ((Nat.le_div_iff_mul_le unit_pos).2 h)

/-- What a word stands for is a number of twenty-three bits with zero bytes behind it. -/
theorem ofCompact_eq_mul (c : UInt32) : ∃ word k, word < 2 ^ 23 ∧ ofCompact c = word * 2 ^ (8 * k) := by
  have hword : c.toNat % 0x800000 < 2 ^ 23 := Nat.mod_lt _ (by decide)
  unfold ofCompact
  dsimp only
  split
  · exact ⟨_, 0, Nat.lt_of_le_of_lt (Nat.shiftRight_le _ _) hword, (Nat.mul_one _).symm⟩
  · rw [Nat.shiftLeft_eq, truncate, bound_eq]
    generalize c.toNat >>> 24 - 3 = k
    generalize c.toNat % 0x800000 = word at hword ⊢
    by_cases hk : 8 * k ≤ 256
    · refine ⟨word % 2 ^ (256 - 8 * k), k, Nat.lt_of_le_of_lt (Nat.mod_le _ _) hword, ?_⟩
      rw [← Nat.mul_mod_mul_right, ← Nat.pow_add, Nat.sub_add_cancel hk]
    · -- All bits are shifted out.
      refine ⟨0, 0, by decide, ?_⟩
      have hdvd : 2 ^ 256 ∣ 2 ^ (8 * k) := Nat.pow_dvd_pow 2 (by omega)
      rw [Nat.mod_eq_zero_of_dvd (Nat.dvd_mul_left_of_dvd hdvd _), Nat.zero_mul]

theorem ofCompact_lt (c : UInt32) : ofCompact c < bound := by
  have hbound : 2 ^ 23 < bound := by decide
  unfold ofCompact
  dsimp only
  split
  · refine Nat.lt_trans (Nat.lt_of_le_of_lt (Nat.shiftRight_le _ _) ?_) hbound
    exact Nat.mod_lt _ (by decide)
  · exact Nat.mod_lt _ (by decide)

/-- No target that has a word lies between a number and what its own word stands for. -/
theorem le_cut (hword : word < 2 ^ 23) (h : word * 2 ^ (8 * k) ≤ n) :
    word * 2 ^ (8 * k) ≤ cut n := by
  by_cases hk : droppedBytes n ≤ k
  · -- The zero bytes reach down to the unit.
    have hpow : 2 ^ (8 * k) = 2 ^ (8 * (k - droppedBytes n)) * unit n := by
      rw [unit, ← Nat.pow_add]
      congr 1
      omega
    rw [hpow, ← Nat.mul_assoc] at h ⊢
    exact mul_unit_le h
  · -- The number is below any of the length of `n`.
    have hhigh : 2 ^ 15 * unit n ≤ n := by
      rw [unit, ← Nat.pow_add]
      refine two_pow_le ?_
      unfold droppedBytes at *
      omega
    have hpow : 2 ^ 15 * unit n = 2 ^ (8 * (droppedBytes n - 1 - k)) * (2 ^ 23 * 2 ^ (8 * k)) := by
      rw [unit, ← Nat.pow_add, ← Nat.pow_add, ← Nat.pow_add]
      congr 1
      omega
    calc word * 2 ^ (8 * k)
        ≤ 2 ^ 23 * 2 ^ (8 * k) := Nat.mul_le_mul_right _ (Nat.le_of_lt hword)
      _ ≤ 2 ^ 15 * unit n := hpow ▸ Nat.le_mul_of_pos_left _ (Nat.two_pow_pos _)
      _ ≤ cut n := mul_unit_le hhigh

theorem isGreatest_ofCompact_toCompact (hn : n < bound) :
    IsGreatest {v | v ∈ Set.range ofCompact ∧ v ≤ n} (ofCompact (toCompact n)) := by
  refine ⟨⟨⟨_, rfl⟩, ?_⟩, ?_⟩
  · rw [ofCompact_toCompact hn]
    exact cut_le
  · rintro v ⟨⟨c, rfl⟩, hle⟩
    obtain ⟨word, k, hword, hv⟩ := ofCompact_eq_mul c
    rw [hv] at hle ⊢
    rw [ofCompact_toCompact hn]
    exact le_cut hword hle

/-- Cutting off the low bytes leaves the length as it is. -/
theorem bitLength_cut : bitLength (cut n) = bitLength n := by
  refine Nat.le_antisymm (bitLength_le_iff.2 ?_) (Nat.not_lt.1 fun hlt => ?_)
  · exact Nat.lt_of_le_of_lt cut_le lt_two_pow_bitLength
  · have hpow : 2 ^ (bitLength n - 1) = 2 ^ (bitLength n - 1 - 8 * droppedBytes n) * unit n := by
      rw [unit, ← Nat.pow_add]
      congr 1
      unfold droppedBytes
      omega
    have htop : 2 ^ (bitLength n - 1) ≤ cut n := by
      rw [hpow]
      exact mul_unit_le (hpow ▸ two_pow_le (by omega))
    exact Nat.not_lt.2 htop (bitLength_le_iff.1 (by omega))

/-- A number and what is left of it have one compact word. -/
theorem toCompact_cut : toCompact (cut n) = toCompact n := by
  by_cases hzero : n = 0
  · subst hzero
    rfl
  have hcut : cut n ≠ 0 := by
    intro hcut
    have := bitLength_pos hzero
    rw [← bitLength_cut, hcut] at this
    exact absurd this (by decide)
  rw [toCompact_eq hcut, toCompact_eq hzero, bitLength_cut]
  congr 1
  unfold leading
  split
  · rename_i hsmall
    rw [cut, unit, droppedBytes, Nat.sub_eq_zero_of_le hsmall]
    simp
  · rw [Nat.shiftRight_eq_div_pow, Nat.shiftRight_eq_div_pow]
    exact Nat.mul_div_cancel _ unit_pos

/-- The word of a target stands for the greatest target, not above it, that any word stands for. So what
it stands for has the same word again, a greater target is not rounded further down than a smaller one,
and what a word stands for is a target and is not rounded at all. -/
theorem compact_rounds_down {t u : Nat} (ht : t < bound) (hu : u ≤ t) (c : UInt32) :
    IsGreatest {v | v ∈ Set.range ofCompact ∧ v ≤ t} (ofCompact (toCompact t)) ∧
      toCompact (ofCompact (toCompact t)) = toCompact t ∧
      ofCompact (toCompact u) ≤ ofCompact (toCompact t) ∧
      ofCompact c < bound ∧ ofCompact (toCompact (ofCompact c)) = ofCompact c := by
  have hgreatest := isGreatest_ofCompact_toCompact ht
  have hlower := isGreatest_ofCompact_toCompact (Nat.lt_of_le_of_lt hu ht)
  have hword := isGreatest_ofCompact_toCompact (ofCompact_lt c)
  refine ⟨hgreatest, ?_, ?_, ofCompact_lt c, ?_⟩
  · rw [ofCompact_toCompact ht, toCompact_cut]
  · exact hgreatest.2 ⟨hlower.1.1, Nat.le_trans hlower.1.2 hu⟩
  · exact Nat.le_antisymm hword.1.2 (hword.2 ⟨⟨c, rfl⟩, Nat.le_refl _⟩)

/-- The greatest of all targets that a word stands for has two bytes in front of zeros: its first bit would
be a sign in three. -/
theorem compact_rounds_down_largest :
    IsGreatest {v | v ∈ Set.range ofCompact ∧ v ≤ bound - 1} (0xffff <<< 240) ∧
      ofCompact (toCompact 0x800000) ≤ 0xffff <<< 240 := by
  have hlargest : ofCompact (toCompact (bound - 1)) = 0xffff <<< 240 := by decide +kernel
  obtain ⟨hgreatest, -, hle, -⟩ :=
    compact_rounds_down (show bound - 1 < bound by decide) (show 0x800000 ≤ bound - 1 by decide) 0
  rw [hlargest] at hgreatest hle
  exact ⟨hgreatest, hle⟩

end StakeChain.Target
