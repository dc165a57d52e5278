import Mathlib.Data.Nat.Digits.Lemmas
import StakeChain.Text.Numeral
/-!
Which number a text spells. The digits of a base below seventeen, letters in either case, have the values of
the standard digits, and a text of digits is the number whose digits they are, the first one highest. Reading
succeeds on those texts alone, also behind one plus sign, and gives that number.
-/

namespace StakeChain.Text

variable {base n m d : Nat} {c : Char} {cs : List Char} {x : UInt32}

/-- A character is the digit of a value, letters in either case. -/
def IsDigit (c : Char) (d : Nat) : Prop := c = Nat.digitChar d ∨ c = (Nat.digitChar d).toUpper

/-- Digits of a base, at least one, that make up a number. -/
def Digits (base : Nat) (cs : List Char) (n : Nat) : Prop :=
  ∃ ds : List Nat, ds ≠ [] ∧ (∀ d ∈ ds, d < base) ∧ List.Forall₂ IsDigit cs ds ∧
    n = Nat.ofDigits base ds.reverse

/-- Digits that make up a number, after at most one plus sign. -/
def Spells (base : Nat) (cs : List Char) (n : Nat) : Prop :=
  Digits base cs n ∨ ∃ rest, cs = '+' :: rest ∧ Digits base rest n

theorem digitValue?_digit : ∀ d < 16, digitValue? 16 (Nat.digitChar d) = some d ∧
    digitValue? 16 (Nat.digitChar d).toUpper = some d := by decide

theorem digitValue?_eq_filter (hbase : base ≤ 16) :
    digitValue? base c = (digitValue? 16 c).filter (· < base) := by
  unfold digitValue?
  dsimp only
  rw [Option.filter_filter]
  congr 1
  funext d
  by_cases hlt : d < base
  · simp [hlt, Nat.lt_of_lt_of_le hlt hbase]
  · simp [hlt]

theorem digitValue?_sixteen : digitValue? 16 c = some d ↔ d < 16 ∧ IsDigit c d := by
  constructor
  · intro h
    simp only [digitValue?, Option.filter_eq_some_iff, decide_eq_true_eq] at h
    obtain ⟨hvalue, hlt⟩ := h
    have hchar {k : Nat} (hk : c.toNat = k) : c = Char.ofNat k := hk ▸ (Char.ofNat_toNat c).symm
    refine ⟨hlt, ?_⟩
    split at hvalue
    · rename_i hrange
      have hlow : 48 ≤ c.toNat := hrange.1
      have hhigh : c.toNat ≤ 57 := hrange.2
      have hdigits : ∀ d < 10, Char.ofNat (d + 48) = Nat.digitChar d := by decide
      have hd := Option.some.inj hvalue
      exact .inl ((hchar (by omega)).trans (hdigits d (by omega)))
    · split at hvalue
      · rename_i hrange
        have hlow : 97 ≤ c.toNat := hrange.1
        have hletters : ∀ d < 16, 10 ≤ d → Char.ofNat (d + 87) = Nat.digitChar d := by decide
        have hd := Option.some.inj hvalue
        exact .inl ((hchar (by omega)).trans (hletters d hlt (by omega)))
      · rw [Option.ite_none_right_eq_some] at hvalue
        obtain ⟨hrange, hvalue⟩ := hvalue
        have hlow : 65 ≤ c.toNat := hrange.1
        have hletters : ∀ d < 16, 10 ≤ d → Char.ofNat (d + 55) = (Nat.digitChar d).toUpper := by decide
        have hd := Option.some.inj hvalue
        exact .inr ((hchar (by omega)).trans (hletters d hlt (by omega)))
  · rintro ⟨hlt, rfl | rfl⟩
    · exact (digitValue?_digit d hlt).1
    · exact (digitValue?_digit d hlt).2

theorem digitValue?_eq_some (hbase : base ≤ 16) :
    digitValue? base c = some d ↔ d < base ∧ IsDigit c d := by
  rw [digitValue?_eq_filter hbase, Option.filter_eq_some_iff, digitValue?_sixteen, decide_eq_true_eq]
  constructor
  · rintro ⟨⟨-, hdigit⟩, hlt⟩
    exact ⟨hlt, hdigit⟩
  · rintro ⟨hlt, hdigit⟩
    exact ⟨⟨Nat.lt_of_lt_of_le hlt hbase, hdigit⟩, hlt⟩

/-- Digits read after `n` append theirs to its digits. -/
theorem digitsFrom?_eq_some (hbase : base ≤ 16) : digitsFrom? base n cs = some m ↔
    ∃ ds : List Nat, (∀ d ∈ ds, d < base) ∧ List.Forall₂ IsDigit cs ds ∧
      m = Nat.ofDigits base ds.reverse + base ^ ds.length * n := by
  induction cs generalizing n with
  | nil =>
    simp only [digitsFrom?, Option.some.injEq, List.forall₂_nil_left_iff]
    constructor
    · rintro rfl
      exact ⟨[], by simp, rfl, by simp⟩
    · rintro ⟨_, -, rfl, rfl⟩
      simp
  | cons c rest ih =>
    rw [digitsFrom?, Option.bind_eq_some_iff]
    have hvalue (d : Nat) (ds : List Nat) : Nat.ofDigits base ds.reverse + base ^ ds.length * (base * n + d) =
        Nat.ofDigits base (d :: ds).reverse + base ^ (d :: ds).length * n := by
      rw [Nat.ofDigits_reverse_cons, List.length_cons, Nat.pow_succ]
      ring
    constructor
    · rintro ⟨d, hd, hrest⟩
      obtain ⟨hlt, hdigit⟩ := (digitValue?_eq_some hbase).1 hd
      obtain ⟨ds, hds, hdigits, rfl⟩ := ih.1 hrest
      exact ⟨d :: ds, List.forall_mem_cons.2 ⟨hlt, hds⟩, .cons hdigit hdigits, hvalue d ds⟩
    · rintro ⟨_, hds, hdigits, rfl⟩
      cases hdigits with
      | @cons _ d _ ds hdigit hdigits =>
        obtain ⟨hlt, hds⟩ := List.forall_mem_cons.1 hds
        exact ⟨d, (digitValue?_eq_some hbase).2 ⟨hlt, hdigit⟩,
          ih.2 ⟨ds, hds, hdigits, (hvalue d ds).symm⟩⟩

theorem digits?_eq_some (hbase : base ≤ 16) : digits? base cs = some n ↔ Digits base cs n := by
  unfold Digits
  cases cs with
  | nil =>
    refine iff_of_false (by simp [digits?]) ?_
    rintro ⟨ds, hne, -, hdigits, -⟩
    exact hne (List.forall₂_nil_left_iff.1 hdigits)
  | cons c rest =>
    rw [show digits? base (c :: rest) = digitsFrom? base 0 (c :: rest) from rfl, digitsFrom?_eq_some hbase]
    constructor
    · rintro ⟨ds, hds, hdigits, rfl⟩
      exact ⟨ds, List.ne_nil_of_length_pos (hdigits.length_eq ▸ Nat.succ_pos _), hds, hdigits, rfl⟩
    · rintro ⟨ds, -, hds, hdigits, rfl⟩
      exact ⟨ds, hds, hdigits, rfl⟩

/-- A plus sign is no digit. -/
theorem not_digits_plus (hbase : base ≤ 16) {rest : List Char} : ¬ Digits base ('+' :: rest) n := by
  have hplus : ∀ d < 16, Nat.digitChar d ≠ '+' ∧ (Nat.digitChar d).toUpper ≠ '+' := by decide
  rintro ⟨_, -, hds, hdigits, -⟩
  cases hdigits with
  | @cons _ d _ ds hdigit _ =>
    obtain ⟨hlower, hupper⟩ := hplus d (Nat.lt_of_lt_of_le (hds d List.mem_cons_self) hbase)
    exact hdigit.elim (fun h => hlower h.symm) fun h => hupper h.symm

theorem natural?_eq_some (hbase : base ≤ 16) : natural? base cs = some n ↔ Spells base cs n := by
  unfold natural? Spells
  split
  · rename_i rest
    rw [digits?_eq_some hbase]
    constructor
    · exact fun h => .inr ⟨rest, rfl, h⟩
    · rintro (h | ⟨_, ⟨⟩, h⟩)
      · exact absurd h (not_digits_plus hbase)
      · exact h
  · rename_i hplus
    rw [digits?_eq_some hbase]
    constructor
    · exact .inl
    · rintro (h | ⟨rest, rfl, -⟩)
      · exact h
      · exact absurd rfl (hplus rest)

theorem word32?_eq_some (hbase : base ≤ 16) : word32? base cs = some x ↔ Spells base cs x.toNat := by
  rw [word32?, Option.bind_eq_some_iff]
  constructor
  · rintro ⟨n, hn, hx⟩
    rw [Option.ite_none_right_eq_some] at hx
    obtain ⟨hlt, hx⟩ := hx
    rw [← Option.some.inj hx, UInt32.toNat_ofNat_of_lt' hlt]
    exact (natural?_eq_some hbase).1 hn
  · intro h
    refine ⟨x.toNat, (natural?_eq_some hbase).2 h, ?_⟩
    rw [if_pos x.toNat_lt, UInt32.ofNat_toNat]

end StakeChain.Text
