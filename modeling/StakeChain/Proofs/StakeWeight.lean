import Mathlib.Data.Nat.ModEq
import StakeChain.Proofs.Compact
import StakeChain.Proofs.Gates
/-!
The weight of a stake in proportion to its value. Coin-days are rounded down once, whatever the order of the
two divisions, so two stakes weigh no more apart than together, and at most one coin-day less. Weight grows
with age within one version of the protocol; where version 0.3 switches on, it loses the minimum age. As long
as nothing is cut off at 256 bits, the target follows the weight, and a kernel that passes for some value
passes for a larger one.
-/

namespace StakeChain

/-- Where a sum fits, values are added as numbers. -/
theorem toInt_add_of_lt {a b : Int64} (ha : 0 ≤ a) (hb : 0 ≤ b) (h : a.toInt + b.toInt < 2 ^ 63) :
    (a + b).toInt = a.toInt + b.toInt := by
  have ha : 0 ≤ a.toInt := Int64.le_iff_toInt_le.1 ha
  have hb : 0 ≤ b.toInt := Int64.le_iff_toInt_le.1 hb
  rw [Int64.toInt_add]
  exact Int.bmod_eq_of_le (by omega) (by omega)

/-- A positive number is the same when it is read without a sign. -/
theorem toNat_toUInt64_of_pos {a : Int64} (ha : 0 < a) : (a.toUInt64.toNat : Int) = a.toInt := by
  have hpos : 0 ≤ a.toInt := Int.le_of_lt (Int64.lt_iff_toInt_lt.1 ha)
  rw [Int64.toNat_toUInt64_of_le (Int64.le_iff_toInt_le.2 hpos), ← Int64.toNat_toInt,
    Int.toNat_of_nonneg hpos]

theorem toUInt64_pos {a : Int64} (ha : 0 < a) : 0 < a.toUInt64.toNat := by
  have hsame := toNat_toUInt64_of_pos ha
  have hpos : 0 < a.toInt := Int64.lt_iff_toInt_lt.1 ha
  omega

namespace Parameters

variable {p : Parameters} {value value' weight : Int} {a b : Int64} {nBits prevTime prevTime' t u : UInt32}
  {perCoinDay : Nat}

/-! ### Coin-days -/

theorem coinUnits_eq (hcoin : 0 < p.coin) : (p.coinUnits : Int) = p.coin.toInt :=
  toNat_toUInt64_of_pos hcoin

/-- The base units times seconds that make a coin-day. -/
def coinDayUnits (p : Parameters) : Nat := p.coinUnits * secondsPerDay

theorem coinDayUnits_eq (hcoin : 0 < p.coin) : (p.coinDayUnits : Int) = p.coin.toInt * 86400 := by
  rw [coinDayUnits, Int.natCast_mul, coinUnits_eq hcoin]
  rfl

theorem coinDayUnits_pos (hcoin : 0 < p.coin) : 0 < p.coinDayUnits :=
  Nat.mul_pos (toUInt64_pos hcoin) (by decide)

/-- The two divisions round down as one. -/
theorem coinDayWeight_eq : p.coinDayWeight value weight = value.toNat * weight.toNat / p.coinDayUnits :=
  Nat.div_div_eq_div_mul _ _ _

/-- In numbers, what a value no less than zero weighs over some time. -/
theorem coinDayWeight_exact (hcoin : 0 < p.coin) (hvalue : 0 ≤ value) (hweight : 0 ≤ weight) :
    (p.coinDayWeight value weight : Int) = value * weight / (p.coin.toInt * 86400) := by
  rw [coinDayWeight_eq, Int.natCast_ediv, Int.natCast_mul, Int.toNat_of_nonneg hvalue,
    Int.toNat_of_nonneg hweight, coinDayUnits_eq hcoin]

/-- Two stakes weigh no more apart than together. -/
theorem coinDayWeight_add_le (hvalue : 0 ≤ value) (hvalue' : 0 ≤ value') :
    p.coinDayWeight value weight + p.coinDayWeight value' weight ≤
      p.coinDayWeight (value + value') weight := by
  rw [coinDayWeight_eq, coinDayWeight_eq, coinDayWeight_eq, Int.toNat_add hvalue hvalue', Nat.add_mul]
  exact Nat.div_add_div_le_add_div

/-- What two stakes lose apart, by rounding twice, is less than two coin-days. -/
theorem coinDayWeight_le_add (hcoin : 0 < p.coin) (hvalue : 0 ≤ value) (hvalue' : 0 ≤ value') :
    p.coinDayWeight (value + value') weight ≤
      p.coinDayWeight value weight + p.coinDayWeight value' weight + 1 := by
  rw [coinDayWeight_eq, coinDayWeight_eq, coinDayWeight_eq, Int.toNat_add hvalue hvalue', Nat.add_mul,
    Nat.add_div (coinDayUnits_pos hcoin)]
  split <;> omega

/-! ### Age -/

/-- Within one version of the protocol weight grows with age. -/
theorem timeWeight_mono (htime : t ≤ u) (h03 : p.inForce .v03 t = p.inForce .v03 u) :
    p.timeWeight prevTime t ≤ p.timeWeight prevTime u := by
  have htime : t.toNat ≤ u.toNat := htime
  simp only [timeWeight, h03]
  split <;> omega

/-- The earlier an output was first seen, the more it weighs. -/
theorem timeWeight_anti (h : prevTime ≤ prevTime') :
    p.timeWeight prevTime' t ≤ p.timeWeight prevTime t := by
  have h : prevTime.toNat ≤ prevTime'.toNat := h
  simp only [timeWeight]
  split <;> omega

/-! ### Targets -/

/-- Nothing of a target is cut off that stays in 256 bits. -/
theorem targetForWeight_eq {w : Nat} (h : p.coinDayWeight a.toInt w * perCoinDay < 2 ^ 256) :
    p.targetForWeight perCoinDay a w = p.coinDayWeight a.toInt w * perCoinDay :=
  Nat.mod_eq_of_lt (Target.bound_eq ▸ h)

/-- Where the target of a sum is not cut off, the targets of its parts are not either, and they add up to it
but for the coin-day that rounding may lose. -/
theorem targetForWeight_add {w : Nat} (hcoin : 0 < p.coin) (ha : 0 ≤ a) (hb : 0 ≤ b)
    (hsum : a.toInt + b.toInt < 2 ^ 63) (h : p.coinDayWeight (a + b).toInt w * perCoinDay < 2 ^ 256) :
    p.targetForWeight perCoinDay a w + p.targetForWeight perCoinDay b w ≤
      p.targetForWeight perCoinDay (a + b) w ∧
    p.targetForWeight perCoinDay (a + b) w ≤
      p.targetForWeight perCoinDay a w + p.targetForWeight perCoinDay b w + perCoinDay := by
  have hadd := toInt_add_of_lt ha hb hsum
  have ha : 0 ≤ a.toInt := Int64.le_iff_toInt_le.1 ha
  have hb : 0 ≤ b.toInt := Int64.le_iff_toInt_le.1 hb
  have hlower : p.coinDayWeight a.toInt w + p.coinDayWeight b.toInt w ≤ p.coinDayWeight (a + b).toInt w :=
    hadd ▸ coinDayWeight_add_le ha hb
  have hupper : p.coinDayWeight (a + b).toInt w ≤
      p.coinDayWeight a.toInt w + p.coinDayWeight b.toInt w + 1 := hadd ▸ coinDayWeight_le_add hcoin ha hb
  have fits : ∀ {n}, n ≤ p.coinDayWeight (a + b).toInt w → n * perCoinDay < 2 ^ 256 := fun hn =>
    Nat.lt_of_le_of_lt (Nat.mul_le_mul_right _ hn) h
  rw [targetForWeight_eq h, targetForWeight_eq (fits (by omega)), targetForWeight_eq (fits (by omega)),
    ← Nat.add_mul, ← Nat.succ_mul]
  exact ⟨Nat.mul_le_mul_right _ hlower, Nat.mul_le_mul_right _ hupper⟩

end Parameters

/-- The source with another value in its output. -/
def StakeSource.withValue (s : StakeSource) (value : Int64) : StakeSource :=
  { s with output := { s.output with value := value } }

/-- A kernel that passes does so at any value that gives no lower target: the value is not in the hash. -/
theorem StakeSource.checkKernel_withValue {p : Parameters} {s : StakeSource} {m : KernelModifier}
    {a b : Int64} {nBits time : UInt32} {proof : Hash}
    (htarget : p.weightedTarget nBits a s.effectiveTime time ≤ p.weightedTarget nBits b s.effectiveTime time)
    (h : (s.withValue a).checkKernel p m nBits time = .ok proof) :
    (s.withValue b).checkKernel p m nBits time = .ok proof := by
  obtain ⟨⟨hnotBefore, hage⟩, hproof, hmet⟩ := checkKernel_eq_ok.1 h
  exact checkKernel_eq_ok.2 ⟨⟨hnotBefore, hage⟩, hproof, Nat.le_trans hmet htarget⟩

/-- Values of no less than zero weigh their share of a coin-day, rounded down: two weigh together what they
weigh apart or one coin-day more. The weight of a time never falls with age on either side of version 0.3,
and never rises with the time an output was first seen. Where the target of the sum is not cut off at 256
bits, it is the sum of the targets or one coin-day's target more, at most, and a kernel that passes for one
of the values passes for the sum, with the same proof. -/
theorem stake_weight_proportional (p : Parameters) (nBits : UInt32) (a b : Int64) (hcoin : 0 < p.coin)
    (ha : 0 ≤ a) (hb : 0 ≤ b) (hsum : a.toInt + b.toInt < 2 ^ 63) :
    (∀ weight : Int, 0 ≤ weight →
      (p.coinDayWeight a.toInt weight : Int) = a.toInt * weight / (p.coin.toInt * 86400)) ∧
    (∀ weight : Int,
      p.coinDayWeight a.toInt weight + p.coinDayWeight b.toInt weight ≤
        p.coinDayWeight (a + b).toInt weight ∧
      p.coinDayWeight (a + b).toInt weight ≤
        p.coinDayWeight a.toInt weight + p.coinDayWeight b.toInt weight + 1) ∧
    (∀ prevTime t u, t ≤ u → p.inForce .v03 t = p.inForce .v03 u →
      p.timeWeight prevTime t ≤ p.timeWeight prevTime u) ∧
    (∀ prevTime prevTime' t, prevTime ≤ prevTime' →
      p.timeWeight prevTime' t ≤ p.timeWeight prevTime t) ∧
    ∀ prevTime t,
      p.coinDayWeight (a + b).toInt (p.timeWeight prevTime t) * Target.ofCompact nBits < 2 ^ 256 →
      p.weightedTarget nBits a prevTime t + p.weightedTarget nBits b prevTime t ≤
        p.weightedTarget nBits (a + b) prevTime t ∧
      p.weightedTarget nBits (a + b) prevTime t ≤
        p.weightedTarget nBits a prevTime t + p.weightedTarget nBits b prevTime t + Target.ofCompact nBits ∧
      ∀ (s : StakeSource) (m : KernelModifier) (proof : Hash), s.effectiveTime = prevTime →
        (s.withValue a).checkKernel p m nBits t = .ok proof →
        (s.withValue (a + b)).checkKernel p m nBits t = .ok proof := by
  have hadd := toInt_add_of_lt ha hb hsum
  have hpos : 0 ≤ a.toInt := Int64.le_iff_toInt_le.1 ha
  have hpos' : 0 ≤ b.toInt := Int64.le_iff_toInt_le.1 hb
  refine ⟨fun weight hweight => Parameters.coinDayWeight_exact hcoin hpos hweight, fun weight => ?_,
    fun prevTime t u => Parameters.timeWeight_mono, fun prevTime prevTime' t => Parameters.timeWeight_anti,
    fun prevTime t hfits => ?_⟩
  · rw [hadd]
    exact ⟨Parameters.coinDayWeight_add_le hpos hpos', Parameters.coinDayWeight_le_add hcoin hpos hpos'⟩
  · obtain ⟨hlower, hupper⟩ := Parameters.targetForWeight_add hcoin ha hb hsum hfits
    refine ⟨hlower, hupper, ?_⟩
    rintro s m proof rfl hkernel
    exact StakeSource.checkKernel_withValue (Nat.le_trans (Nat.le_add_right _ _) hlower) hkernel

open SmallChain in
/-- A day and a half of one coin, and half a day: apart they weigh one coin-day, together two. The target is
nearly the largest there is, and a kernel that passes for the first passes for both. -/
theorem stake_weight_proportional_halves :
    Parameters.regtest.coinDayWeight 18000000 7200 + Parameters.regtest.coinDayWeight 6000000 7200 + 1 =
      Parameters.regtest.coinDayWeight 24000000 7200 ∧
    ∃ proof, (fresh.withValue 18000000).checkKernel .regtest (.modifier 0) 0x207fffff 1600010800 =
        .ok proof ∧
      (fresh.withValue 24000000).checkKernel .regtest (.modifier 0) 0x207fffff 1600010800 = .ok proof := by
  have hpasses : ((fresh.withValue 18000000).checkKernel .regtest (.modifier 0) 0x207fffff 1600010800).isOk =
    true := by decide +kernel
  obtain ⟨proof, hproof⟩ := exists_of_isOk hpasses
  obtain ⟨-, -, -, -, htargets⟩ := stake_weight_proportional .regtest 0x207fffff 18000000 6000000
    (by decide) (by decide) (by decide) (by decide)
  obtain ⟨-, -, hkernel⟩ := htargets 1600000000 1600010800 (by decide +kernel)
  exact ⟨by decide, proof, hproof, hkernel fresh (.modifier 0) proof rfl hproof⟩

end StakeChain
