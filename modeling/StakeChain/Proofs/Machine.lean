import Mathlib.Algebra.Group.Int.Defs
import StakeChain.Modifier.Draw
import StakeChain.Proofs.Compact
import StakeChain.Proofs.Success
import StakeChain.Stake.Weight
/-!
Arithmetic in words. A step of it faults where the result leaves the range of its word, where it divides by
zero, or where it shifts a word by its width or more. Each formula of the stake rules is written out here once
more with every step checked, and comes to the same number without a fault: times and intervals have thirty-two
bits, so that sixty-four of them add up to far less than sixty-three bits hold, and of the divisors only the
coin could be zero.
-/

namespace StakeChain

/-- What a step of arithmetic fails on. -/
inductive Fault where
  | belowZero
  | outOfRange
  | divisionByZero
  | shiftTooFar
deriving DecidableEq

namespace Machine

/-- A signed number of sixty-four bits. -/
def signed (n : Int) : Except Fault Int :=
  if -2 ^ 63 ≤ n ∧ n < 2 ^ 63 then .ok n else .error .outOfRange

/-- An unsigned number of sixty-four bits. -/
def unsigned (n : Nat) : Except Fault Nat := if n < 2 ^ 64 then .ok n else .error .outOfRange

def sub (a b : Nat) : Except Fault Nat := if b ≤ a then .ok (a - b) else .error .belowZero

def div (a b : Nat) : Except Fault Nat := if b = 0 then .error .divisionByZero else .ok (a / b)

/-- Signed division, towards zero. -/
def divSigned (a b : Int) : Except Fault Int :=
  if b = 0 then .error .divisionByZero else signed (a.tdiv b)

def shiftLeft (width n k : Nat) : Except Fault Nat :=
  if k < width then .ok ((n <<< k) % 2 ^ width) else .error .shiftTooFar

def shiftRight (width n k : Nat) : Except Fault Nat :=
  if k < width then .ok (n >>> k) else .error .shiftTooFar

variable {a b k n width : Nat} {i : Int}

theorem signed_eq (hlow : -2 ^ 63 ≤ i) (hhigh : i < 2 ^ 63) : signed i = .ok i := if_pos ⟨hlow, hhigh⟩

theorem unsigned_eq (h : n < 2 ^ 64) : unsigned n = .ok n := if_pos h

/-- A sum of two words of thirty-two bits fits in sixty-four. -/
theorem unsigned_add (x y : UInt32) : unsigned (x.toNat + y.toNat) = .ok (x.toNat + y.toNat) := by
  have hx := x.toNat_lt
  have hy := y.toNat_lt
  exact unsigned_eq (by omega)

theorem sub_eq (h : b ≤ a) : sub a b = .ok (a - b) := if_pos h

theorem div_eq (h : b ≠ 0) : div a b = .ok (a / b) := if_neg h

/-- Without signs the quotient is that of natural numbers, and no larger than what is divided. -/
theorem divSigned_natCast (ha : a < 2 ^ 63) (hb : b ≠ 0) : divSigned a b = .ok ((a / b : Nat) : Int) := by
  have hquotient : a / b < 2 ^ 63 := Nat.lt_of_le_of_lt (Nat.div_le_self a b) ha
  rw [divSigned, if_neg (by omega), ← Int.ofNat_tdiv]
  generalize a / b = quotient at hquotient
  exact signed_eq (by omega) (by omega)

theorem shiftLeft_eq (hk : k < width) (h : n <<< k < 2 ^ width) : shiftLeft width n k = .ok (n <<< k) := by
  rw [shiftLeft, if_pos hk, Nat.mod_eq_of_lt h]

theorem shiftRight_eq (hk : k < width) : shiftRight width n k = .ok (n >>> k) := if_pos hk

end Machine

/-- A computation that may fault at a step, and otherwise fails or has a result. -/
abbrev Stepwise (ε : Type) := ExceptT ε (Except Fault)

namespace Stepwise

variable {ε ε' α β : Type}

/-- A computation that has no arithmetic in it. -/
def of (x : Except ε α) : Stepwise ε α := ExceptT.mk (.ok x)

theorem of_eq (x : Except ε α) : (of x : Except Fault (Except ε α)) = .ok x := rfl

def mapError (f : ε → ε') (x : Stepwise ε α) : Stepwise ε' α :=
  ExceptT.mk (x.run.map fun result => result.mapError f)

theorem lift_bind {x : Except Fault α} {a : α} (hx : x = .ok a) (f : α → Stepwise ε β) :
    ((liftM x : Stepwise ε α) >>= f) = f a := by
  rw [hx]
  rfl

/-- Where neither of two parts faults, both together do not. -/
theorem bind_of {x : Stepwise ε α} {r : Except ε α} {f : α → Stepwise ε β} {g : α → Except ε β}
    (hx : x = of r) (hf : ∀ a, r = .ok a → f a = of (g a)) : (x >>= f) = of (r >>= g) := by
  rw [hx]
  cases r with
  | error e => rfl
  | ok a => exact hf a rfl

theorem ite_of {c : Prop} [Decidable c] {x y : Stepwise ε α} {r r' : Except ε α} (hx : c → x = of r)
    (hy : ¬ c → y = of r') : (if c then x else y) = of (if c then r else r') := by
  by_cases hc : c
  · rw [if_pos hc, if_pos hc, hx hc]
  · rw [if_neg hc, if_neg hc, hy hc]

end Stepwise

/-- No section is longer than the interval. -/
theorem sectionLength_le (interval n : Nat) : sectionLength interval n ≤ interval := by
  rw [sectionLength]
  refine Nat.div_le_of_le_mul ?_
  rw [Nat.mul_comm]
  exact Nat.mul_le_mul_right _ (Nat.le_add_right _ _)

theorem sectionsLength_le (interval n : Nat) : sectionsLength interval n ≤ n * interval := by
  induction n with
  | zero => simp [sectionsLength]
  | succ n ih =>
    rw [sectionsLength, Nat.succ_mul]
    exact Nat.add_le_add ih (sectionLength_le interval n)

theorem Parameters.selectionInterval_lt (p : Parameters) : p.selectionInterval < 2 ^ 38 := by
  have hinterval := p.modifierInterval.toNat_lt
  have hle : p.selectionInterval ≤ 64 * p.modifierInterval.toNat := sectionsLength_le _ modifierRounds
  omega

open Machine

namespace Checked

variable {p : Parameters} {interval n left round word : Nat} {stop : Int} {prevTime time nBits : UInt32}

/-! ### Sections -/

/-- The length of section `n`. -/
def sectionLength (interval n : Int) : Except Fault Int := do
  let scaled ← signed (interval * 63)
  let left ← signed (63 - n)
  let ratio ← signed (sectionRatio - 1)
  let extra ← signed (left * ratio)
  let divisor ← signed (63 + extra)
  divSigned scaled divisor

/-- The length of the first `n` sections together. -/
def sectionsLength (interval : Int) : Nat → Except Fault Int
  | 0 => .ok 0
  | n + 1 => do
    let before ← sectionsLength interval n
    let length ← sectionLength interval n
    signed (before + length)

theorem sectionLength_eq (hinterval : interval < 2 ^ 32) (hn : n < 64) :
    sectionLength interval n = .ok (StakeChain.sectionLength interval n : Int) := by
  have hratio : (sectionRatio : Int) - 1 = 2 := rfl
  have hdivisor : 63 + (63 - (n : Int)) * 2 = (63 + (63 - n) * 2 : Nat) := by omega
  have hscaled : (interval : Int) * 63 = (interval * 63 : Nat) := by omega
  simp (disch := omega) only [sectionLength, hratio, signed_eq, ok_bind]
  rw [hscaled, hdivisor, divSigned_natCast (by omega) (by omega), StakeChain.sectionLength,
    show sectionRatio - 1 = 2 from rfl]

theorem sectionsLength_eq (hinterval : interval < 2 ^ 32) (hn : n ≤ modifierRounds) :
    sectionsLength interval n = .ok (StakeChain.sectionsLength interval n : Int) := by
  induction n with
  | zero => rfl
  | succ n ih =>
    have hn : n < 64 := hn
    have hbefore := sectionsLength_le interval n
    have hlength := sectionLength_le interval n
    have hsum : n * interval ≤ 64 * interval := Nat.mul_le_mul_right _ (Nat.le_of_lt hn)
    rw [sectionsLength, ih (Nat.le_of_lt hn), ok_bind, sectionLength_eq hinterval hn, ok_bind,
      signed_eq (by omega) (by omega), StakeChain.sectionsLength, Int.natCast_add]

/-- The length of the selection interval. -/
def selectionInterval (p : Parameters) : Except Fault Int :=
  sectionsLength p.modifierInterval.toNat modifierRounds

theorem selectionInterval_eq : selectionInterval p = .ok (p.selectionInterval : Int) :=
  sectionsLength_eq p.modifierInterval.toNat_lt (Nat.le_refl _)

/-! ### The draw -/

/-- The bits of the rounds that are left, put above those of the rounds before. -/
def draw (p : Parameters) : Nat → Nat → Int → Nat → List Candidate → Except Fault Nat
  | 0, _, _, word, _ => .ok word
  | left + 1, round, stop, word, candidates => do
    let length ← sectionLength p.modifierInterval.toNat round
    let stop ← signed (stop + length)
    match Candidate.winner? stop candidates with
    | none => .ok word
    | some w =>
      let bit ← shiftLeft 64 w.block.flags.entropy.toNat round
      draw p left (round + 1) stop (word ||| bit)
        (candidates.filter fun c => c.block.hash != w.block.hash)

/-- A bit is put above those below it by adding its power of two. -/
theorem or_bit (hword : word < 2 ^ round) (b : Bool) :
    word ||| b.toNat <<< round = word + b.toNat * 2 ^ round := by
  rw [Nat.or_comm, ← Nat.shiftLeft_add_eq_or_of_lt hword, Nat.shiftLeft_eq, Nat.add_comm]

theorem bit_le (b : Bool) (round : Nat) : b.toNat * 2 ^ round ≤ 2 ^ round := by
  cases b <;> simp

/-- A bit fits in the word of which it is one. -/
theorem shiftLeft_bit (hround : round < 64) (b : Bool) :
    shiftLeft 64 b.toNat round = .ok (b.toNat <<< round) := by
  refine shiftLeft_eq hround ?_
  calc b.toNat <<< round = b.toNat * 2 ^ round := Nat.shiftLeft_eq _ _
    _ ≤ 2 ^ round := bit_le b round
    _ < 2 ^ 64 := Nat.pow_lt_pow_right (by decide) hround

/-- Bits that are put into a word one by one are those of the number that the draw spells. -/
theorem draw_eq {candidates : List Candidate} (hrounds : round + left ≤ modifierRounds)
    (hlow : -2 ^ 62 ≤ stop) (hhigh : stop + left * 2 ^ 32 ≤ 2 ^ 62) (hword : word < 2 ^ round) :
    draw p left round stop word candidates =
      .ok (word + entropyWord (Candidate.winners p left round stop candidates) * 2 ^ round) := by
  induction left generalizing round stop word candidates with
  | zero => simp [draw, Candidate.winners, entropyWord]
  | succ left ih =>
    have hround : round < 64 := Nat.lt_of_lt_of_le (by omega) hrounds
    have hinterval := p.modifierInterval.toNat_lt
    have hlength := sectionLength_le p.modifierInterval.toNat round
    rw [draw, sectionLength_eq hinterval hround, ok_bind, signed_eq (by omega) (by omega), ok_bind,
      Candidate.winners, Parameters.selectionSection]
    generalize hnext : stop + (StakeChain.sectionLength p.modifierInterval.toNat round : Int) = next
    cases Candidate.winner? next candidates with
    | none => simp [entropyWord]
    | some w =>
      have hbit := bit_le w.block.flags.entropy round
      have hpow : 2 ^ (round + 1) = 2 * 2 ^ round := Nat.pow_succ'
      simp only [shiftLeft_bit hround, ok_bind, or_bit hword, entropyWord]
      rw [ih (by omega) (by omega) (by omega) (by omega), hpow, Nat.add_mul, Nat.add_assoc,
        Nat.mul_left_comm _ 2, Nat.mul_assoc 2]

/-! ### Weights and targets -/

/-- Seconds of age that count. -/
def timeWeight (p : Parameters) (prevTime time : UInt32) : Except Fault Nat := do
  let past ← signed ((time.toNat : Int) - prevTime.toNat)
  let age := min past p.stakeMaxAge.toNat
  if p.inForce .v03 time then
    let beyond ← signed (age - p.stakeMinAge.toNat)
    return beyond.toNat
  else return age.toNat

theorem timeWeight_eq : timeWeight p prevTime time = .ok (p.timeWeight prevTime time) := by
  have htime := time.toNat_lt
  have hprev := prevTime.toNat_lt
  have hmax := p.stakeMaxAge.toNat_lt
  have hmin := p.stakeMinAge.toNat_lt
  rw [timeWeight, signed_eq (by omega) (by omega), ok_bind]
  simp only [Parameters.timeWeight]
  split
  · rw [signed_eq (by omega) (by omega), ok_bind]
    rfl
  · rfl

/-- Coin-days of a value over a time. -/
def coinDayWeight (p : Parameters) (value timeWeight : Int) : Except Fault Nat :=
  if value ≤ 0 ∨ timeWeight ≤ 0 then return 0
  else do
    let coins ← div (value.toNat * timeWeight.toNat) p.coinUnits
    div coins secondsPerDay

theorem coinDayWeight_eq (hcoin : p.coinUnits ≠ 0) (value timeWeight : Int) :
    coinDayWeight p value timeWeight = .ok (p.coinDayWeight value timeWeight) := by
  rw [coinDayWeight, Parameters.coinDayWeight]
  split
  · rename_i hnone
    have hzero : value.toNat * timeWeight.toNat = 0 := by
      rw [Nat.mul_eq_zero, Int.toNat_eq_zero, Int.toNat_eq_zero]
      exact hnone
    rw [hzero, Nat.zero_div, Nat.zero_div]
    rfl
  · rw [div_eq hcoin, ok_bind, div_eq (by decide)]

/-- A coin of nothing is divided by. -/
example : coinDayWeight { Parameters.regtest with coin := 0 } 1 1 = .error .divisionByZero := rfl

/-- Reduces to two hundred and fifty-six bits. -/
def truncate (n : Nat) : Except Fault Nat :=
  if Target.bitLength n ≤ 256 then return n
  else do
    let mask ← sub (1 <<< 256) 1
    return n &&& mask

theorem truncate_eq (n : Nat) : truncate n = .ok (Target.truncate n) := by
  rw [truncate, Target.truncate, Target.bound_eq, Nat.one_shiftLeft]
  split
  · rename_i hfits
    rw [Nat.mod_eq_of_lt (Target.bitLength_le_iff.1 hfits)]
    rfl
  · rw [sub_eq Nat.one_le_two_pow, ok_bind, ← Nat.and_two_pow_sub_one_eq_mod]
    rfl

/-- The target that a compact word stands for. -/
def ofCompact (compact : UInt32) : Except Fault Nat := do
  let size ← shiftRight 32 compact.toNat 24
  let word := compact.toNat % 0x800000
  if size ≤ 3 then
    let bytes ← sub 3 size
    let bits ← unsigned (8 * bytes)
    shiftRight 32 word bits
  else
    let bytes ← sub size 3
    let bits ← unsigned (8 * bytes)
    truncate (word <<< bits)

theorem ofCompact_eq (compact : UInt32) : ofCompact compact = .ok (Target.ofCompact compact) := by
  have hsize : compact.toNat >>> 24 < 2 ^ 8 := by
    rw [Nat.shiftRight_eq_div_pow]
    have := compact.toNat_lt
    omega
  rw [ofCompact, shiftRight_eq (by decide), ok_bind]
  simp only [Target.ofCompact]
  generalize compact.toNat >>> 24 = size at hsize
  split
  · rename_i hsmall
    rw [sub_eq hsmall, ok_bind, unsigned_eq (by omega), ok_bind, shiftRight_eq (by omega)]
  · rename_i hlarge
    rw [sub_eq (by omega), ok_bind, unsigned_eq (by omega), ok_bind, truncate_eq]

/-- The target of a value with a time weight. -/
def targetForWeight (p : Parameters) (perCoinDay : Nat) (value : Int64) (timeWeight : Nat) :
    Except Fault Nat := do
  let weight ← coinDayWeight p value.toInt timeWeight
  truncate (weight * perCoinDay)

theorem targetForWeight_eq (hcoin : p.coinUnits ≠ 0) (perCoinDay : Nat) (value : Int64) (weight : Nat) :
    targetForWeight p perCoinDay value weight = .ok (p.targetForWeight perCoinDay value weight) := by
  rw [targetForWeight, coinDayWeight_eq hcoin, ok_bind, truncate_eq, Parameters.targetForWeight]

/-- The target for staking a value. -/
def weightedTarget (p : Parameters) (nBits : UInt32) (value : Int64) (prevTime time : UInt32) :
    Except Fault Nat := do
  let weight ← timeWeight p prevTime time
  let perCoinDay ← ofCompact nBits
  targetForWeight p perCoinDay value weight

theorem weightedTarget_eq (hcoin : p.coinUnits ≠ 0) (value : Int64) :
    weightedTarget p nBits value prevTime time = .ok (p.weightedTarget nBits value prevTime time) := by
  rw [weightedTarget, timeWeight_eq, ok_bind, ofCompact_eq, ok_bind, targetForWeight_eq hcoin,
    Parameters.weightedTarget]

end Checked

end StakeChain
