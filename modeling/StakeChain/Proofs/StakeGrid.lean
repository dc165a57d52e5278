import StakeChain.Proofs.Configuration
import StakeChain.Proofs.Search
/-!
The grid of times at which coins may stake, from version 0.9 on. A configured mask has the low bits set, so
the times whose masked bits are clear are the multiples of a power of two. The check of a coinstake in a block
of its own time and the search for a kernel look at the same times. What is reported as the distance between
them is that power of two, except for the mask that has all bits set: its power of two does not fit a word, and
the distance is given as zero.
-/

namespace StakeChain

namespace Parameters

variable {p : Parameters} {t : UInt32} {n : Nat}

/-- The masked bits of a time are clear when it is a multiple of the power of two above the mask. -/
theorem and_mask_eq_zero (hmask : p.stakeTimeMask.toNat = 2 ^ n - 1) :
    t &&& p.stakeTimeMask = 0 ↔ t.toNat % 2 ^ n = 0 := by
  rw [← UInt32.toNat_inj, UInt32.toNat_and, hmask, Nat.and_two_pow_sub_one_eq_mod, UInt32.toNat_zero]

theorem isStakeTime_iff (hmask : p.stakeTimeMask.toNat = 2 ^ n - 1) :
    p.isStakeTime t = true ↔ p.inForce .v09 t = false ∨ t.toNat % 2 ^ n = 0 := by
  rw [isStakeTime, Bool.or_eq_true, Bool.not_eq_true', beq_iff_eq, and_mask_eq_zero hmask]

/-- One more than the mask, in a word. -/
theorem toNat_stakeTimeGranularity (hn : n ≤ 32) (hmask : p.stakeTimeMask.toNat = 2 ^ n - 1) :
    p.stakeTimeGranularity.toNat = if n = 32 then 0 else 2 ^ n := by
  have hpos := Nat.two_pow_pos n
  rw [stakeTimeGranularity, UInt32.toNat_add, hmask, UInt32.toNat_one, Nat.sub_add_cancel hpos]
  split
  · rename_i hall
    rw [hall, Nat.mod_self]
  · rename_i hless
    exact Nat.mod_eq_of_lt (Nat.pow_lt_pow_right (by decide) (by omega))

/-- A coinstake in a block of its own time passes at the times at which coins may stake. -/
theorem checkCoinstakeTime_self : p.checkCoinstakeTime t t = .ok () ↔ p.isStakeTime t = true :=
  checkCoinstakeTime_eq_ok.trans fits_self

end Parameters

/-- Where the source stakes at a time of the range, a search finds that time or an earlier one. -/
theorem StakeSource.exists_search {s : StakeSource} {p : Parameters} {m : KernelModifier}
    {nBits first last t : UInt32} {proof : Hash} (hfirst : first ≤ t) (hlast : t ≤ last)
    (htime : p.isStakeTime t = true) (hkernel : s.checkKernel p m nBits t = .ok proof) :
    ∃ found, s.search p m nBits first last = some found ∧ found.1 ≤ t := by
  have hstakes : s.stakesAt p m nBits t = some (t, proof) := stakesAt_eq_some.2 ⟨htime, rfl, hkernel⟩
  cases hsearch : s.search p m nBits first last with
  | none => simp [search_eq_none.1 hsearch t hfirst hlast] at hstakes
  | some found =>
    obtain ⟨-, -, -, hnone⟩ := search_eq_some.1 hsearch
    refine ⟨found, rfl, UInt32.not_lt.1 fun hlt => ?_⟩
    simp [hnone t hfirst hlt] at hstakes

/-- Of configured parameters the mask is below a power of two. From version 0.9 on coins may stake at the
multiples of that power, and it is the granularity, unless it is too large for a word. Those are the times
that the check of a coinstake takes in a block of its own time: a search for a kernel finds no other, and
where one of them stakes, it finds one that is not later. -/
theorem stake_grid_agrees (c : Config) (p : Parameters) (h : c.parameters = .ok p) :
    (∃ n ≤ 32, p.stakeTimeMask.toNat = 2 ^ n - 1 ∧
      p.stakeTimeGranularity.toNat = (if n = 32 then 0 else 2 ^ n) ∧
      ∀ t, p.isStakeTime t = true ↔ p.inForce .v09 t = false ∨ t.toNat % 2 ^ n = 0) ∧
    ∀ t, (p.checkCoinstakeTime t t = .ok () ↔ p.isStakeTime t = true) ∧
      ∀ (s : StakeSource) (m : KernelModifier) (nBits first last : UInt32) (proof : Hash),
        (s.search p m nBits first last = some (t, proof) → p.checkCoinstakeTime t t = .ok ()) ∧
        (first ≤ t → t ≤ last → p.checkCoinstakeTime t t = .ok () →
          s.checkKernel p m nBits t = .ok proof →
          ∃ found, s.search p m nBits first last = some found ∧ found.1 ≤ t) := by
  obtain ⟨network, table, -, hadmitted, -, rfl⟩ := Config.parameters_eq_ok.1 h
  obtain ⟨n, hn, hmask⟩ := (hadmitted.consistent (Parameters.consistent_ofNetwork network)).mask
  refine ⟨⟨n, hn, hmask, Parameters.toNat_stakeTimeGranularity hn hmask, fun t =>
    Parameters.isStakeTime_iff hmask⟩, fun t => ⟨Parameters.checkCoinstakeTime_self,
    fun s m nBits first last proof => ⟨fun hfound => ?_, fun hfirst hlast htime hkernel => ?_⟩⟩⟩
  · obtain ⟨-, -, htime, -⟩ := StakeSource.search_finds hfound
    exact Parameters.checkCoinstakeTime_self.2 htime
  · exact StakeSource.exists_search hfirst hlast (Parameters.checkCoinstakeTime_self.1 htime) hkernel

/-- With the largest mask that leaves a bit free, coins may stake at every multiple of `2 ^ 31`, and sixteen
seconds later no more. -/
theorem stake_grid_agrees_coarse : ∃ p : Parameters,
    ({ stakeTimeMask := some 0x7fffffff } : Config).parameters = .ok p ∧
      p.stakeTimeGranularity = 0x80000000 ∧ p.checkCoinstakeTime 0x80000000 0x80000000 = .ok () ∧
      p.checkCoinstakeTime 0x80000010 0x80000010 ≠ .ok () := by
  have hparameters : ({ stakeTimeMask := some 0x7fffffff } : Config).parameters =
    .ok { Parameters.regtest with stakeTimeMask := 0x7fffffff } := rfl
  obtain ⟨⟨n, hn, hmask, hgranularity, hgrid⟩, hcheck⟩ := stake_grid_agrees _ _ hparameters
  have hpower : 2 ^ 31 = 2 ^ n := by
    have hpos := Nat.two_pow_pos n
    have hmask : 2 ^ 31 - 1 = 2 ^ n - 1 := hmask
    omega
  obtain rfl : 31 = n := Nat.pow_right_injective (Nat.le_refl 2) hpower
  refine ⟨_, hparameters, UInt32.toNat_inj.1 hgranularity, (hcheck _).1.2 ((hgrid _).2 (.inr rfl)),
    fun h => ?_⟩
  rcases (hgrid _).1 ((hcheck _).1.1 h) with h09 | hmultiple
  · exact absurd h09 (by decide)
  · exact absurd hmultiple (by decide)

/-- With all bits in the mask, the granularity is no power of two: it is zero. -/
theorem stake_grid_without_granularity :
    ¬ ∀ (c : Config) (p : Parameters), c.parameters = .ok p →
      ∃ n, p.stakeTimeGranularity.toNat = 2 ^ n := by
  intro hpower
  obtain ⟨n, hn⟩ := hpower { stakeTimeMask := some 0xffffffff }
    { Parameters.regtest with stakeTimeMask := 0xffffffff } rfl
  have hpos := Nat.two_pow_pos n
  rw [← hn] at hpos
  exact absurd hpos (by decide)

end StakeChain
