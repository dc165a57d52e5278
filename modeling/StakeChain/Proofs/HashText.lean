import Mathlib.Data.List.Induction
import Mathlib.Data.List.TakeWhile
import Mathlib.Tactic.Ring
import StakeChain.Proofs.HexText
import StakeChain.Proofs.Numeral
import StakeChain.Proofs.Success
/-!
Which texts are hashes. Of every text one rest is left when the blanks at its ends and then one mark are gone,
and the text is read exactly when that rest is sixty-four hexadecimal digits; the hash is shown as the rest with
its letters in lower case. What is shown spells the number that the hash is, and the low word is that number's.
-/

namespace StakeChain

/-! ### Numbers and their low bytes -/

theorem ofLittleEndian_append (as bs : List UInt8) :
    ofLittleEndian (as ++ bs) = ofLittleEndian as + 256 ^ as.length * ofLittleEndian bs := by
  induction as with
  | nil => simp [ofLittleEndian]
  | cons a as ih =>
    rw [List.cons_append, ofLittleEndian, ofLittleEndian, ih, List.length_cons, Nat.pow_succ]
    ring

theorem ofLittleEndian_take (bs : List UInt8) (k : Nat) :
    ofLittleEndian (bs.take k) = ofLittleEndian bs % 256 ^ k := by
  by_cases hk : k ≤ bs.length
  · have hlt : ofLittleEndian (bs.take k) < 256 ^ k := by
      have hlow := ofLittleEndian_lt (bs.take k)
      rwa [List.length_take_of_le hk] at hlow
    have hsplit := ofLittleEndian_append (bs.take k) (bs.drop k)
    rw [List.take_append_drop, List.length_take_of_le hk] at hsplit
    rw [hsplit, Nat.add_mul_mod_self_left, Nat.mod_eq_of_lt hlt]
  · have hlong : bs.length ≤ k := by omega
    have hlt : ofLittleEndian bs < 256 ^ k :=
      Nat.lt_of_lt_of_le (ofLittleEndian_lt bs) (Nat.pow_le_pow_right (by decide) hlong)
    rw [List.take_of_length_le hlong, Nat.mod_eq_of_lt hlt]

namespace Text

/-- What lies between the blanks at the two ends of a text. -/
structure Trimmed (cs core : List Char) : Prop where
  between : ∃ front back, cs = front ++ core ++ back ∧ (∀ c ∈ front, c ∈ blanks) ∧ ∀ c ∈ back, c ∈ blanks
  first : ∀ c ∈ core.head?, c ∉ blanks
  last : ∀ c ∈ core.getLast?, c ∉ blanks

/-- What follows the mark at the start of a text; a text without a mark is left as it is. -/
inductive Unmarked : List Char → List Char → Prop where
  | lower {rest : List Char} : Unmarked ('0' :: 'x' :: rest) rest
  | upper {rest : List Char} : Unmarked ('0' :: 'X' :: rest) rest
  | bare {cs : List Char} : ¬ ['0', 'x'] <+: cs → ¬ ['0', 'X'] <+: cs → Unmarked cs cs

/-- What is left of a text without the blanks at its ends and then without one mark. -/
def Stripped (cs rest : List Char) : Prop := ∃ core, Trimmed cs core ∧ Unmarked core rest

variable {cs core rest front back : List Char} {c : Char} {bs : List UInt8} {b : UInt8} {d n index : Nat}

/-! ### The rest of a text -/

theorem isBlank_iff : isBlank c = true ↔ c ∈ blanks := List.contains_iff_mem

/-- Blanks in front of a text go, up to the first character that is none. -/
theorem dropWhile_isBlank_append (hfront : ∀ c ∈ front, c ∈ blanks) (hfirst : ∀ c ∈ cs.head?, c ∉ blanks) :
    (front ++ cs).dropWhile isBlank = cs := by
  rw [List.dropWhile_append_of_pos fun c hc => isBlank_iff.2 (hfront c hc)]
  cases cs with
  | nil => rfl
  | cons c cs => exact List.dropWhile_cons_of_neg (isBlank_iff.not.2 (hfirst c rfl))

/-- A text is its blanks in front and the rest, which begins with no blank. -/
theorem exists_dropWhile_isBlank (cs : List Char) : ∃ front, cs = front ++ cs.dropWhile isBlank ∧
    (∀ c ∈ front, c ∈ blanks) ∧ ∀ c ∈ (cs.dropWhile isBlank).head?, c ∉ blanks := by
  refine ⟨cs.takeWhile isBlank, List.takeWhile_append_dropWhile.symm,
    fun c hc => isBlank_iff.1 (List.mem_takeWhile_imp hc), fun c hc hblank => ?_⟩
  have hnot := List.head?_dropWhile_not isBlank cs
  rw [hc] at hnot
  simp [isBlank_iff.2 hblank] at hnot

theorem Trimmed.trim_eq (h : Trimmed cs core) : trim cs = core := by
  obtain ⟨⟨front, back, rfl, hfront, hback⟩, hfirst, hlast⟩ := h
  have hends : ((core ++ back).reverse.dropWhile isBlank).reverse = core := by
    rw [List.reverse_append, dropWhile_isBlank_append (by simpa using hback) (by simpa using hlast),
      List.reverse_reverse]
  cases core with
  | nil =>
    have hall : ∀ c ∈ front ++ back, c ∈ blanks := by simpa [or_imp, forall_and] using ⟨hfront, hback⟩
    have hnone : (front ++ back ++ []).dropWhile isBlank = [] := dropWhile_isBlank_append hall (by simp)
    rw [List.append_nil] at hnone
    rw [trim, List.append_nil, hnone]
    rfl
  | cons c core =>
    rw [trim, List.append_assoc, dropWhile_isBlank_append hfront (by simpa using hfirst), hends]

theorem trimmed_trim (cs : List Char) : Trimmed cs (trim cs) := by
  obtain ⟨front, hcs, hfront, hfirst⟩ := exists_dropWhile_isBlank cs
  obtain ⟨back, hrest, hback, hlast⟩ := exists_dropWhile_isBlank (cs.dropWhile isBlank).reverse
  have hcore : cs.dropWhile isBlank = trim cs ++ back.reverse := by
    rw [trim, ← List.reverse_append, ← hrest, List.reverse_reverse]
  refine ⟨⟨front, back.reverse, ?_, hfront, by simpa using hback⟩, fun c hc => hfirst c ?_,
    fun c hc => hlast c ?_⟩
  · rw [List.append_assoc, ← hcore]
    exact hcs
  · rw [hcore]
    exact List.mem_head?_append_of_mem_head? hc
  · simpa [trim] using hc

theorem unmarked_iff : Unmarked cs rest ↔ rest = dropHexMark cs := by
  constructor
  · rintro (_ | _ | ⟨hlower, hupper⟩)
    · rfl
    · rfl
    · unfold dropHexMark
      split
      · exact absurd (List.prefix_append ['0', 'x'] _) hlower
      · exact absurd (List.prefix_append ['0', 'X'] _) hupper
      · rfl
  · rintro rfl
    unfold dropHexMark
    split
    · exact .lower
    · exact .upper
    · rename_i hlower hupper
      refine .bare ?_ ?_
      · rintro ⟨rest, rfl⟩
        exact hlower rest rfl
      · rintro ⟨rest, rfl⟩
        exact hupper rest rfl

theorem stripped_iff : Stripped cs rest ↔ rest = dropHexMark (trim cs) := by
  constructor
  · rintro ⟨core, hcore, hrest⟩
    rw [hcore.trim_eq]
    exact unmarked_iff.1 hrest
  · rintro rfl
    exact ⟨trim cs, trimmed_trim cs, unmarked_iff.2 rfl⟩

/-! ### Digits in pairs -/

namespace Hex

theorem toNat_lt_of_isHexDigit (h : c.isHexDigit = true) : c.toNat < 128 := by
  simp only [Char.isHexDigit, Char.isDigit, ge_iff_le, Bool.or_eq_true, Bool.and_eq_true,
    decide_eq_true_eq, UInt32.le_iff_toNat_le] at h
  rcases h with (⟨-, hle⟩ | ⟨-, hle⟩) | ⟨-, hle⟩ <;> exact Nat.lt_of_le_of_lt hle (by decide)

/-- A character with a value is a hexadecimal digit, in lower case the one written for the value. -/
theorem of_digitValue? (h : digitValue? 16 c = some d) :
    d < 16 ∧ c.isHexDigit = true ∧ c.toLower = digit d := by
  obtain ⟨hlt, hdigit⟩ := digitValue?_sixteen.1 h
  have hdigits : ∀ d < 16, ((Nat.digitChar d).isHexDigit = true ∧ (Nat.digitChar d).toLower = digit d) ∧
      (Nat.digitChar d).toUpper.isHexDigit = true ∧ (Nat.digitChar d).toUpper.toLower = digit d := by decide
  rcases hdigit with rfl | rfl
  · exact ⟨hlt, (hdigits d hlt).1⟩
  · exact ⟨hlt, (hdigits d hlt).2⟩

/-- Every hexadecimal digit has a value. -/
theorem exists_digit (h : c.isHexDigit = true) :
    ∃ d < 16, digitValue? 16 c = some d ∧ c.toLower = digit d := by
  have hascii : ∀ n < 128, (Char.ofNat n).isHexDigit = true →
      (digitValue? 16 (Char.ofNat n)).isSome = true := by decide
  have hvalue := hascii c.toNat (toNat_lt_of_isHexDigit h)
  rw [Char.ofNat_toNat] at hvalue
  obtain ⟨d, hd⟩ := Option.isSome_iff_exists.1 (hvalue h)
  obtain ⟨hlt, -, hlower⟩ := of_digitValue? hd
  exact ⟨d, hlt, hd, hlower⟩

theorem value?_of_le (h : 103 ≤ b.toNat) : value? b = none := by
  unfold value?
  dsimp only
  rw [if_neg (by omega), if_neg (by omega), if_neg (by omega)]

/-- A character beyond ASCII has a first byte that is beyond ASCII. -/
theorem utf8EncodeChar_of_le (h : 128 ≤ c.toNat) :
    ∃ b bytes, String.utf8EncodeChar c = b :: bytes ∧ 192 ≤ b.toNat := by
  have hval : ¬ c.val.toNat ≤ 127 := Nat.not_le.2 h
  unfold String.utf8EncodeChar
  dsimp only
  rw [if_neg hval]
  split
  · refine ⟨_, _, rfl, ?_⟩
    rw [UInt8.toNat_ofNat']
    omega
  · split
    · refine ⟨_, _, rfl, ?_⟩
      rw [UInt8.toNat_ofNat']
      omega
    · refine ⟨_, _, rfl, ?_⟩
      rw [UInt8.toNat_ofNat']
      omega

/-- The bytes of a text begin with one that has the value of its first character, and behind a digit they are
the bytes of the characters that follow. -/
theorem utf8_cons (c : Char) (cs : List Char) : ∃ b bytes, utf8 (c :: cs) = b :: bytes ∧
    value? b = digitValue? 16 c ∧ ((digitValue? 16 c).isSome → bytes = utf8 cs) := by
  have hutf8 : utf8 (c :: cs) = String.utf8EncodeChar c ++ utf8 cs := rfl
  by_cases hascii : c.toNat < 128
  · have hvalues : ∀ n < 128, value? (UInt8.ofNat n) = digitValue? 16 (Char.ofNat n) := by decide
    have hvalue := hvalues c.toNat hascii
    rw [Char.ofNat_toNat] at hvalue
    have hbyte : String.utf8EncodeChar c = [UInt8.ofNat c.toNat] := if_pos (Nat.le_of_lt_succ hascii)
    exact ⟨_, utf8 cs, by rw [hutf8, hbyte]; rfl, hvalue, fun _ => rfl⟩
  · obtain ⟨b, bytes, hbytes, hb⟩ := utf8EncodeChar_of_le (Nat.not_lt.1 hascii)
    have hnone : digitValue? 16 c = none := by
      refine Option.eq_none_iff_forall_ne_some.2 fun d hd => hascii ?_
      exact toNat_lt_of_isHexDigit (of_digitValue? hd).2.1
    refine ⟨b, bytes ++ utf8 cs, by rw [hutf8, hbytes, List.cons_append], ?_, by simp [hnone]⟩
    rw [value?_of_le (Nat.le_trans (by decide) hb), hnone]

theorem length_encode (bs : List UInt8) : (encode bs).length = 2 * bs.length := by
  induction bs with
  | nil => rfl
  | cons b bs ih =>
    change (encode bs).length + 1 + 1 = 2 * (bs.length + 1)
    omega

theorem digit_inj : ∀ m < 16, ∀ n < 16, digit m = digit n → m = n := by decide

/-- Two digits in front are those of the first byte. -/
theorem encode_eq_cons_cons {hi lo : Nat} (hhi : hi < 16) (hlo : lo < 16) :
    encode bs = digit hi :: digit lo :: cs ↔
      ∃ rest, encode rest = cs ∧ UInt8.ofNat (16 * hi + lo) :: rest = bs := by
  constructor
  · intro h
    cases bs with
    | nil => simp [encode] at h
    | cons b rest =>
      have hb := b.toNat_lt
      obtain ⟨hhigh, htail⟩ := List.cons.inj h
      obtain ⟨hlow, hrest⟩ := List.cons.inj htail
      have hhigh := digit_inj _ (by omega) _ hhi hhigh
      have hlow := digit_inj _ (Nat.mod_lt _ (by decide)) _ hlo hlow
      refine ⟨rest, hrest, ?_⟩
      rw [← hhigh, ← hlow, Nat.div_add_mod, UInt8.ofNat_toNat]
  · rintro ⟨rest, rfl, rfl⟩
    have hbyte : (UInt8.ofNat (16 * hi + lo)).toNat = 16 * hi + lo :=
      UInt8.toNat_ofNat_of_lt' (by change _ < 256; omega)
    have hhigh : (16 * hi + lo) / 16 = hi := by omega
    have hlow : (16 * hi + lo) % 16 = lo := by omega
    change digit _ :: digit _ :: encode rest = _
    rw [hbyte, hhigh, hlow]

/-- A text that begins with no digit has no bytes. -/
theorem not_decodePairs_of_none (h : digitValue? 16 c = none) :
    decodePairs index (utf8 (c :: cs)) ≠ .ok bs := by
  obtain ⟨b, bytes, hbytes, hvalue, -⟩ := utf8_cons c cs
  rw [hbytes]
  cases bytes with
  | nil => simp [decodePairs]
  | cons lo bytes => simp [decodePairs, hvalue, h]

theorem decodePairs_cons_cons {hi lo : Char} {h : Nat} (hhi : digitValue? 16 hi = some h) :
    decodePairs index (utf8 (hi :: lo :: cs)) = .ok bs ↔ ∃ l, digitValue? 16 lo = some l ∧
      ∃ rest, decodePairs (index + 2) (utf8 cs) = .ok rest ∧ UInt8.ofNat (16 * h + l) :: rest = bs := by
  obtain ⟨x, xs, hx, hxvalue, hxrest⟩ := utf8_cons hi (lo :: cs)
  obtain ⟨y, ys, hy, hyvalue, hyrest⟩ := utf8_cons lo cs
  rw [hx, hxrest (by simp [hhi]), hy, decodePairs, hxvalue, hhi, hyvalue]
  cases hlo : digitValue? 16 lo with
  | none => simp
  | some l =>
    rw [hyrest (by simp [hlo])]
    simp only [map_eq_ok, Option.some.injEq, exists_eq_left']

/-- The bytes decoded from a text of hexadecimal digits are those written as the text in lower case. -/
theorem decodePairs_eq_ok (cs : List Char) (index : Nat) : decodePairs index (utf8 cs) = .ok bs ↔
    (∀ c ∈ cs, c.isHexDigit = true) ∧ encode bs = cs.map Char.toLower := by
  induction cs using List.twoStepInduction generalizing index bs with
  | nil =>
    cases bs with
    | nil => simp [utf8, decodePairs, encode]
    | cons b bs => simp [utf8, decodePairs, encode, encodeByte]
  | singleton c =>
    refine iff_of_false ?_ ?_
    · obtain ⟨b, bytes, hbytes, hvalue, hrest⟩ := utf8_cons c []
      cases hc : digitValue? 16 c with
      | none => exact not_decodePairs_of_none hc
      | some d =>
        rw [hbytes, hrest (by simp [hc])]
        simp [utf8, decodePairs]
    · rintro ⟨-, hencode⟩
      have hlength := congrArg List.length hencode
      rw [length_encode, List.length_map, List.length_singleton] at hlength
      omega
  | cons_cons hi lo cs ih _ =>
    rw [List.forall_mem_cons, List.forall_mem_cons, List.map_cons, List.map_cons]
    constructor
    · intro h
      cases hhi : digitValue? 16 hi with
      | none => exact absurd h (not_decodePairs_of_none hhi)
      | some x =>
        obtain ⟨y, hlo, rest, hrest, rfl⟩ := (decodePairs_cons_cons hhi).1 h
        obtain ⟨hx, hhihex, hhilower⟩ := of_digitValue? hhi
        obtain ⟨hy, hlohex, hlolower⟩ := of_digitValue? hlo
        obtain ⟨hhex, hencode⟩ := (ih _).1 hrest
        rw [hhilower, hlolower, encode_eq_cons_cons hx hy]
        exact ⟨⟨hhihex, hlohex, hhex⟩, rest, hencode, rfl⟩
    · rintro ⟨⟨hhihex, hlohex, hhex⟩, hencode⟩
      obtain ⟨x, hx, hhi, hhilower⟩ := exists_digit hhihex
      obtain ⟨y, hy, hlo, hlolower⟩ := exists_digit hlohex
      rw [hhilower, hlolower, encode_eq_cons_cons hx hy] at hencode
      obtain ⟨rest, hrest, rfl⟩ := hencode
      exact (decodePairs_cons_cons hhi).2 ⟨y, hlo, rest, (ih _).2 ⟨hhex, hrest⟩, rfl⟩

/-- Hexadecimal digits are as many bytes as characters. -/
theorem length_utf8 (h : ∀ c ∈ cs, c.isHexDigit = true) : (utf8 cs).length = cs.length := by
  induction cs with
  | nil => rfl
  | cons c cs ih =>
    obtain ⟨hc, hcs⟩ := List.forall_mem_cons.1 h
    obtain ⟨d, -, hd, -⟩ := exists_digit hc
    obtain ⟨b, bytes, hbytes, -, hrest⟩ := utf8_cons c cs
    rw [hbytes, hrest (by simp [hd]), List.length_cons, List.length_cons, ih hcs]

/-- Even many hexadecimal digits are, in lower case, what is written for some bytes. -/
theorem exists_encode (hlength : cs.length = 2 * n) (hdigits : ∀ c ∈ cs, c.isHexDigit = true) :
    ∃ bs, bs.length = n ∧ encode bs = cs.map Char.toLower := by
  induction n generalizing cs with
  | zero =>
    obtain rfl := List.eq_nil_of_length_eq_zero hlength
    exact ⟨[], rfl, rfl⟩
  | succ n ih =>
    obtain _ | ⟨hi, _ | ⟨lo, cs⟩⟩ := cs
    · simp at hlength
    · simp at hlength; omega
    · obtain ⟨hhihex, htail⟩ := List.forall_mem_cons.1 hdigits
      obtain ⟨hlohex, hhex⟩ := List.forall_mem_cons.1 htail
      obtain ⟨x, hx, -, hhilower⟩ := exists_digit hhihex
      obtain ⟨y, hy, -, hlolower⟩ := exists_digit hlohex
      obtain ⟨rest, hrest, hencode⟩ := ih (by simpa [Nat.mul_succ] using hlength) hhex
      refine ⟨UInt8.ofNat (16 * x + y) :: rest, by rw [List.length_cons, hrest], ?_⟩
      rw [List.map_cons, List.map_cons, hhilower, hlolower, encode_eq_cons_cons hx hy]
      exact ⟨rest, hencode, rfl⟩

/-- A text spells `n` bytes when it is twice as many hexadecimal digits. -/
theorem decodeExactly_eq_ok : decodeExactly n cs = .ok bs ↔
    bs.length = n ∧ (∀ c ∈ cs, c.isHexDigit = true) ∧ encode bs = cs.map Char.toLower := by
  unfold decodeExactly
  dsimp only
  constructor
  · intro h
    split at h
    · simp at h
    · split at h
      · simp at h
      · rename_i hlength
        obtain ⟨hhex, hencode⟩ := (decodePairs_eq_ok cs 0).1 h
        have htext := congrArg List.length hencode
        rw [length_encode, List.length_map, ← length_utf8 hhex] at htext
        exact ⟨by omega, hhex, hencode⟩
  · rintro ⟨rfl, hhex, hencode⟩
    have htext := congrArg List.length hencode
    rw [length_encode, List.length_map, ← length_utf8 hhex] at htext
    rw [if_neg (by omega), if_neg (by omega)]
    exact (decodePairs_eq_ok cs 0).2 ⟨hhex, hencode⟩

/-- The digits written for bytes go on with the number that the bytes are, the first one highest. -/
theorem digitsFrom?_encode (bs : List UInt8) (n : Nat) :
    digitsFrom? 16 n (encode bs) = some (ofLittleEndian bs.reverse + 256 ^ bs.length * n) := by
  have hvalue : ∀ d < 16, digitValue? 16 (digit d) = some d := by decide
  induction bs generalizing n with
  | nil => simp [encode, digitsFrom?, ofLittleEndian]
  | cons b bs ih =>
    have hb := b.toNat_lt
    have hbyte : 16 * (b.toNat / 16) + b.toNat % 16 = b.toNat := Nat.div_add_mod _ _
    change digitsFrom? 16 n (digit (b.toNat / 16) :: digit (b.toNat % 16) :: encode bs) = _
    rw [digitsFrom?, hvalue _ (by omega), Option.bind_some, digitsFrom?, hvalue _ (by omega),
      Option.bind_some, ih, List.reverse_cons, ofLittleEndian_append, List.length_reverse,
      List.length_cons]
    simp only [ofLittleEndian]
    congr 1
    nth_rewrite 3 [← hbyte]
    ring

end Hex

end Text

/-! ### The text of a hash -/

namespace Hash

open Text

variable {g h : Hash} {text : String}

theorem toList_toString (h : Hash) : (toString h).toList = Hex.encode h.toBytes.reverse :=
  String.toList_ofList

/-- The digits shown for a hash spell the number that it is. -/
theorem digits_toString (h : Hash) : Digits 16 (toString h).toList h.toNat := by
  have hread := Hex.digitsFrom?_encode h.toBytes.reverse 0
  rw [List.reverse_reverse, Nat.mul_zero, Nat.add_zero] at hread
  rw [← digits?_eq_some (Nat.le_refl 16), toList_toString]
  cases hbytes : h.toBytes.reverse with
  | nil => simp [← List.length_eq_zero_iff] at hbytes
  | cons b bs =>
    rw [hbytes] at hread
    exact hread

theorem toNat_low64 (h : Hash) : h.low64.toNat = h.toNat % 2 ^ 64 := by
  rw [low64, UInt64.toNat_ofNat', ofLittleEndian_take, toNat]
  exact Nat.mod_mod _ _

/-- A text is read as the hash that is shown as the rest of the text in lower case. -/
theorem parse_eq_ok : parse text = .ok h ↔
    (∀ c ∈ dropHexMark (trim text.toList), c.isHexDigit = true) ∧
      toString h = String.ofList ((dropHexMark (trim text.toList)).map Char.toLower) := by
  rw [parse, map_eq_ok, ← String.toList_inj, toList_toString, String.toList_ofList]
  constructor
  · rintro ⟨bs, hbs, rfl⟩
    obtain ⟨hlength, hhex, hencode⟩ := Hex.decodeExactly_eq_ok.1 hbs
    rw [toBytes_ofBytes (by simpa using hlength), List.reverse_reverse]
    exact ⟨hhex, hencode⟩
  · rintro ⟨hhex, hencode⟩
    refine ⟨h.toBytes.reverse, Hex.decodeExactly_eq_ok.2 ⟨by simp, hhex, hencode⟩, ?_⟩
    rw [List.reverse_reverse, ofBytes_toBytes]

/-- A text is read when its rest is sixty-four hexadecimal digits. -/
theorem exists_parse_eq_ok : (∃ h, parse text = .ok h) ↔
    (dropHexMark (trim text.toList)).length = 64 ∧
      ∀ c ∈ dropHexMark (trim text.toList), c.isHexDigit = true := by
  constructor
  · rintro ⟨h, hread⟩
    obtain ⟨hhex, hshown⟩ := parse_eq_ok.1 hread
    have hlength := congrArg (fun shown => shown.toList.length) hshown
    simp only [toList_toString, Hex.length_encode, List.length_reverse, length_toBytes, String.toList_ofList,
      List.length_map] at hlength
    exact ⟨hlength.symm, hhex⟩
  · rintro ⟨hlength, hhex⟩
    obtain ⟨bs, hbs, hencode⟩ := Hex.exists_encode (n := 32) hlength hhex
    exact ⟨_, map_eq_ok.2 ⟨bs, Hex.decodeExactly_eq_ok.2 ⟨hbs, hhex, hencode⟩, rfl⟩⟩

end Hash

/-- Of every text one rest is left when the blanks around it and one mark in front are gone. The text is read
exactly when that rest is sixty-four hexadecimal digits, of either case, and as the hash that is shown as these
digits in lower case. What is shown for a hash is read as that hash and spells the number that the hash is, whose
low sixty-four bits are the low word. -/
theorem hash_text_exact (text : String) (h : Hash) :
    (∃ rest, (∀ cs, Text.Stripped text.toList cs ↔ cs = rest) ∧
      ((∃ g, Hash.parse text = .ok g) ↔ rest.length = 64 ∧ ∀ c ∈ rest, c.isHexDigit = true) ∧
      ∀ g, Hash.parse text = .ok g ↔
        (∀ c ∈ rest, c.isHexDigit = true) ∧ toString g = String.ofList (rest.map Char.toLower)) ∧
    Hash.parse (toString h) = .ok h ∧
    Text.Digits 16 (toString h).toList h.toNat ∧ h.toNat % 2 ^ 64 = h.low64.toNat :=
  ⟨⟨_, fun _ => Text.stripped_iff, Hash.exists_parse_eq_ok, fun _ => Hash.parse_eq_ok⟩,
    Hash.parse_toString h, Hash.digits_toString h, (Hash.toNat_low64 h).symm⟩

/-- Of two marks the second is left, and its letter is no digit. -/
example : Hash.parse (String.ofList ("\u3000 0x0X".toList ++ List.replicate 62 '7')) =
    .error (.invalidDigit 88 1) := by rfl

end StakeChain
