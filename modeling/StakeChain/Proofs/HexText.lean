import StakeChain.Hash.Text
/-!
Hexadecimal text is read back: bytes of any number, and hashes, whose reader trims blanks and drops a mark that
their digits never have.
-/

namespace StakeChain

namespace Text

/-- A digit is one byte, which has the digit's value; it is neither blank nor the letter of a mark. -/
theorem Hex.digit_facts : ∀ n < 16, ∃ b, String.utf8EncodeChar (Hex.digit n) = [b] ∧ Hex.value? b = some n ∧
    isBlank (Hex.digit n) = false ∧ Hex.digit n ≠ 'x' ∧ Hex.digit n ≠ 'X' := by
  have h : ∀ n < 16, String.utf8EncodeChar (Hex.digit n) = [UInt8.ofNat (Hex.digit n).toNat] ∧
      Hex.value? (UInt8.ofNat (Hex.digit n).toNat) = some n ∧
      isBlank (Hex.digit n) = false ∧ Hex.digit n ≠ 'x' ∧ Hex.digit n ≠ 'X' := by decide
  exact fun n hn => ⟨_, h n hn⟩

namespace Hex

theorem length_utf8_encode (bs : List UInt8) : (utf8 (encode bs)).length = 2 * bs.length := by
  induction bs with
  | nil => rfl
  | cons b bs ih =>
    obtain ⟨x, hx, -⟩ := digit_facts (b.toNat / 16) (by have := b.toNat_lt; omega)
    obtain ⟨y, hy, -⟩ := digit_facts (b.toNat % 16) (by omega)
    have hcons : utf8 (encode (b :: bs)) = x :: y :: utf8 (encode bs) := by
      simp [encode, encodeByte, utf8, hx, hy]
    rw [hcons, List.length_cons, List.length_cons, List.length_cons, ih]
    omega

theorem decodePairs_encode (bs : List UInt8) (index : Nat) : decodePairs index (utf8 (encode bs)) = .ok bs := by
  induction bs generalizing index with
  | nil => rfl
  | cons b bs ih =>
    have hb := b.toNat_lt
    obtain ⟨x, hx, hhigh, -⟩ := digit_facts (b.toNat / 16) (by omega)
    obtain ⟨y, hy, hlow, -⟩ := digit_facts (b.toNat % 16) (by omega)
    have hcons : utf8 (encode (b :: bs)) = x :: y :: utf8 (encode bs) := by
      simp [encode, encodeByte, utf8, hx, hy]
    have hbyte : UInt8.ofNat (16 * (b.toNat / 16) + b.toNat % 16) = b := by
      rw [Nat.div_add_mod]
      exact UInt8.ofNat_toNat
    rw [hcons, decodePairs, hhigh, hlow]
    simp only [ih, Except.map, hbyte]

/-- Bytes of any number are read back. -/
theorem decode_encode (bs : List UInt8) : decode (encode bs) = .ok bs := by
  rw [decode]
  simp [length_utf8_encode, decodePairs_encode]

theorem decodeExactly_encode (bs : List UInt8) : decodeExactly bs.length (encode bs) = .ok bs := by
  rw [decodeExactly]
  simp [length_utf8_encode, decodePairs_encode]

theorem isBlank_of_mem_encode {bs : List UInt8} {c : Char} (h : c ∈ encode bs) : isBlank c = false := by
  obtain ⟨b, -, hc⟩ := List.mem_flatMap.1 h
  have hb := b.toNat_lt
  obtain ⟨-, -, -, hhigh, -⟩ := digit_facts (b.toNat / 16) (by omega)
  obtain ⟨-, -, -, hlow, -⟩ := digit_facts (b.toNat % 16) (by omega)
  rcases List.mem_cons.1 hc with rfl | hc
  · exact hhigh
  · rw [List.mem_singleton.1 hc]
    exact hlow

end Hex

theorem dropWhile_isBlank {cs : List Char} (h : ∀ c ∈ cs, isBlank c = false) : cs.dropWhile isBlank = cs := by
  cases cs with
  | nil => rfl
  | cons c cs => simp [h c List.mem_cons_self]

/-- The digits of bytes have nothing to trim, and no mark in front. -/
theorem dropHexMark_trim_encode (bs : List UInt8) : dropHexMark (trim (Hex.encode bs)) = Hex.encode bs := by
  have htrim : trim (Hex.encode bs) = Hex.encode bs := by
    have hblank : ∀ c ∈ Hex.encode bs, isBlank c = false := fun c hc => Hex.isBlank_of_mem_encode hc
    rw [trim, dropWhile_isBlank hblank, dropWhile_isBlank (by simpa using hblank), List.reverse_reverse]
  rw [htrim]
  cases bs with
  | nil => rfl
  | cons b bs =>
    obtain ⟨-, -, -, -, hlower, hupper⟩ := Hex.digit_facts (b.toNat % 16) (by omega)
    have hcons : Hex.encode (b :: bs) =
        Hex.digit (b.toNat / 16) :: Hex.digit (b.toNat % 16) :: Hex.encode bs := rfl
    rw [hcons]
    unfold dropHexMark
    split
    · rename_i heq
      exact absurd (List.cons.inj (List.cons.inj heq).2).1 hlower
    · rename_i heq
      exact absurd (List.cons.inj (List.cons.inj heq).2).1 hupper
    · rfl

end Text

/-- A hash is read back from the digits shown for it. -/
theorem Hash.parse_toString (h : Hash) : parse (toString h) = .ok h := by
  have hlength : h.toBytes.reverse.length = 32 := by simp
  have hdecode := Text.Hex.decodeExactly_encode h.toBytes.reverse
  rw [hlength] at hdecode
  have htext : (toString h).toList = Text.Hex.encode h.toBytes.reverse := String.toList_ofList
  rw [parse, htext, Text.dropHexMark_trim_encode, hdecode]
  simp [Except.map]

end StakeChain
