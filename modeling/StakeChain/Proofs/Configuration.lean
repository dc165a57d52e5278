import Mathlib.Algebra.Group.Nat.Defs
import StakeChain.Parameters.Config
import StakeChain.Proofs.Success
/-!
What a configuration makes of a built-in network. Its values replace the network's own, and the parameters
are given out when those put together are consistent. One rule is not looked at again after the values have
been put together: cents have to divide a coin when the configuration sets the cent, but a configuration that
sets the coin alone keeps a cent that need not divide it.
-/

namespace StakeChain

/-! ### Masks -/

/-- A mask of the lowest bits, as many as there are. -/
theorem isLowOnes_iff {mask : UInt32} : isLowOnes mask = true ↔ ∃ n ≤ 32, mask.toNat = 2 ^ n - 1 := by
  have hlt : mask.toNat < 2 ^ 32 := mask.toNat_lt
  rw [isLowOnes, beq_iff_eq, ← UInt32.toNat_inj, UInt32.toNat_and, UInt32.toNat_add, UInt32.toNat_one,
    UInt32.toNat_zero]
  generalize mask.toNat = m at hlt ⊢
  by_cases hall : m = 2 ^ 32 - 1
  · -- With all bits set, one more is none at all.
    subst hall
    exact iff_of_true (by decide) ⟨32, Nat.le_refl _, rfl⟩
  · have hpower := Nat.and_sub_one_eq_zero_iff_isPowerOfTwo (Nat.succ_ne_zero m)
    rw [Nat.mod_eq_of_lt (by omega), show m + 1 &&& m = 0 ↔ _ from hpower]
    constructor
    · rintro ⟨n, hn⟩
      have hn : 2 ^ n < 2 ^ 32 := by omega
      exact ⟨n, Nat.le_of_lt ((Nat.pow_lt_pow_iff_right (by decide)).1 hn), by omega⟩
    · rintro ⟨n, -, hn⟩
      have hpos := Nat.two_pow_pos n
      exact ⟨n, by omega⟩

/-! ### Consistency -/

namespace Parameters

/-- Parameters that do not contradict one another. -/
structure Consistent (p : Parameters) : Prop where
  majority : p.v06Majority.required ≤ p.v06Majority.window
  interval : 0 < p.modifierInterval
  ages : p.stakeMinAge ≤ p.stakeMaxAge
  mask : ∃ n ≤ 32, p.stakeTimeMask.toNat = 2 ^ n - 1
  coin : 0 < p.coin
  cent : 0 < p.cent

/-- A coin is a whole number of cents. -/
def WholeCents (p : Parameters) : Prop := p.cent.toInt ∣ p.coin.toInt

theorem consistent_ofNetwork (n : Network) : (ofNetwork n).Consistent := by
  cases n <;> exact ⟨by decide, by decide, by decide, ⟨4, by decide, by decide⟩, by decide, by decide⟩

theorem wholeCents_ofNetwork (n : Network) : (ofNetwork n).WholeCents := by
  cases n <;> exact ⟨100, by decide⟩

end Parameters

namespace Config

variable {c : Config} {base p : Parameters} {table : Checkpoints}

/-- The values of a configuration in place of the base network's, with a table of checkpoints. -/
def merged (c : Config) (base : Parameters) (table : Checkpoints) : Parameters where
  network := base.network
  switches := c.switches.getD base.switches
  v06Majority := c.v06Majority.getD base.v06Majority
  modifierInterval := c.modifierInterval.getD base.modifierInterval
  stakeMinAge := c.stakeMinAge.getD base.stakeMinAge
  stakeMaxAge := c.stakeMaxAge.getD base.stakeMaxAge
  stakeMinDepth := c.stakeMinDepth.getD base.stakeMinDepth
  maxClockDrift := c.maxClockDrift.getD base.maxClockDrift
  stakeTimeMask := c.stakeTimeMask.getD base.stakeTimeMask
  coin := c.coin.getD base.coin
  cent := c.cent.getD base.cent
  checkpoints := table

/-- The table of checkpoints that a configuration gives, or else the base network's. -/
def mergedTable (c : Config) (base : Parameters) : Except ConfigError Checkpoints :=
  (c.checkpoints.map Checkpoints.parse).getD (.ok base.checkpoints)

/-- What is checked of a configuration over its base network: every value that it gives, and the two ages
together. -/
structure Admitted (c : Config) (base : Parameters) : Prop where
  majority : ∀ r ∈ c.v06Majority, r.required ≤ r.window
  interval : ∀ i ∈ c.modifierInterval, i ≠ 0
  ages : c.stakeMinAge.getD base.stakeMinAge ≤ c.stakeMaxAge.getD base.stakeMaxAge
  mask : ∀ m ∈ c.stakeTimeMask, isLowOnes m = true
  coin : ∀ x ∈ c.coin, 0 < x
  cent : ∀ x ∈ c.cent, 0 < x ∧ c.coin.getD base.coin % x = 0

theorem check_eq_ok {α : Type} {given : Option α} {rule : α → Bool} {error : α → ConfigError}
    {u : Unit} : check given rule error = .ok u ↔ ∀ x ∈ given, rule x = true := by
  cases given with
  | none => simp [check]
  | some x => cases hx : rule x <;> simp [check, hx]

theorem parameters_eq_ok : c.parameters = .ok p ↔ ∃ network table, c.baseNetwork = .ok network ∧
    c.Admitted (.ofNetwork network) ∧ c.mergedTable (.ofNetwork network) = .ok table ∧
      p = c.merged (.ofNetwork network) table := by
  simp only [parameters, bind_eq_ok, guard_eq_ok, pure_eq_ok, check_eq_ok, decide_eq_true_eq, bne_iff_ne,
    Bool.and_eq_true, beq_iff_eq, UInt32.not_lt]
  constructor
  · rintro ⟨network, hbase, -, hmajority, -, hinterval, hages, -, hmask, -, hcoin, -, hcent, table, htable,
      rfl⟩
    exact ⟨network, table, hbase, ⟨hmajority, hinterval, hages, hmask, hcoin, hcent⟩, htable, rfl⟩
  · rintro ⟨network, table, hbase, ⟨hmajority, hinterval, hages, hmask, hcoin, hcent⟩, htable, rfl⟩
    exact ⟨network, hbase, (), hmajority, (), hinterval, hages, (), hmask, (), hcoin, (), hcent, table, htable,
      rfl⟩

theorem mod_eq_zero_iff {coin cent : Int64} : coin % cent = 0 ↔ cent.toInt ∣ coin.toInt := by
  rw [← Int64.toInt_inj, Int64.toInt_mod, Int64.toInt_zero, Int.dvd_iff_tmod_eq_zero]

/-- What holds of the value given and of the base network's holds of the one that is taken. -/
theorem getD_of_forall {α : Type} {rule : α → Prop} {given : Option α} {default : α}
    (h : ∀ x ∈ given, rule x) (hdefault : rule default) : rule (given.getD default) := by
  cases given with
  | none => exact hdefault
  | some x => exact h x rfl

theorem forall_of_getD {α : Type} {rule : α → Prop} {given : Option α} {default : α}
    (h : rule (given.getD default)) : ∀ x ∈ given, rule x := by
  rintro x ⟨⟩
  exact h

theorem Admitted.consistent (h : c.Admitted base) (hbase : base.Consistent) :
    (c.merged base table).Consistent where
  majority := getD_of_forall h.majority hbase.majority
  interval := getD_of_forall (fun i hi => UInt32.pos_iff_ne_zero.2 (h.interval i hi)) hbase.interval
  ages := h.ages
  mask := getD_of_forall (fun m hm => isLowOnes_iff.1 (h.mask m hm)) hbase.mask
  coin := getD_of_forall h.coin hbase.coin
  cent := getD_of_forall (fun x hx => (h.cent x hx).1) hbase.cent

theorem consistent_of_parameters (h : c.parameters = .ok p) : p.Consistent := by
  obtain ⟨network, table, -, hadmitted, -, rfl⟩ := parameters_eq_ok.1 h
  exact hadmitted.consistent (Parameters.consistent_ofNetwork network)

/-- The cents that a configuration gives divide the coin, and so do the base network's when it leaves the
coin as it is. -/
theorem Admitted.wholeCents (h : c.Admitted base) (hbase : base.WholeCents) :
    (c.merged base table).WholeCents ∨ c.cent = none ∧ c.coin.isSome := by
  unfold Parameters.WholeCents merged
  cases hcent : c.cent with
  | some x => exact .inl (mod_eq_zero_iff.1 (h.cent x hcent).2)
  | none =>
    cases c.coin with
    | none => exact .inl hbase
    | some coin => exact .inr ⟨rfl, rfl⟩

theorem admitted_of_consistent (h : (c.merged base table).Consistent)
    (hcents : (c.merged base table).WholeCents ∨ c.cent = none) : c.Admitted base where
  majority := forall_of_getD h.majority
  interval := forall_of_getD (UInt32.pos_iff_ne_zero.1 h.interval)
  ages := h.ages
  mask := forall_of_getD (isLowOnes_iff.2 h.mask)
  coin := forall_of_getD h.coin
  cent := by
    intro x hx
    rcases hcents with hcents | hnone
    · have hdvd : (c.cent.getD base.cent).toInt ∣ (c.coin.getD base.coin).toInt := hcents
      have hpos : 0 < c.cent.getD base.cent := h.cent
      rw [Option.mem_def.1 hx, Option.getD_some] at hdvd hpos
      exact ⟨hpos, mod_eq_zero_iff.2 hdvd⟩
    · simp [hnone] at hx

/-- A configuration gives parameters exactly when its base network is known, its checkpoints can be read, and
its values over those of the base network make consistent parameters; of the cents, they divide the coin,
unless the configuration sets the coin and leaves the cent as it was. -/
theorem configured_parameters_consistent (c : Config) (p : Parameters) :
    c.parameters = .ok p ↔ ∃ network table, c.baseNetwork = .ok network ∧
      c.mergedTable (.ofNetwork network) = .ok table ∧ p = c.merged (.ofNetwork network) table ∧
      p.Consistent ∧ (p.WholeCents ∨ c.cent = none ∧ c.coin.isSome) := by
  rw [parameters_eq_ok]
  constructor
  · rintro ⟨network, table, hbase, hadmitted, htable, rfl⟩
    exact ⟨network, table, hbase, htable, rfl, hadmitted.consistent (Parameters.consistent_ofNetwork network),
      hadmitted.wholeCents (Parameters.wholeCents_ofNetwork network)⟩
  · rintro ⟨network, table, hbase, htable, rfl, hconsistent, hcents⟩
    have hadmitted := admitted_of_consistent hconsistent (hcents.imp_right And.left)
    exact ⟨network, table, hbase, hadmitted, htable, rfl⟩

/-- A coin of fifteen base units keeps the cent of ten thousand. -/
theorem coin_without_whole_cents :
    ¬ ∀ (c : Config) (p : Parameters), c.parameters = .ok p → p.Consistent ∧ p.WholeCents := by
  intro hwhole
  have hcents : (10000 : Int) ∣ 15 :=
    (hwhole { coin := some 15 } { Parameters.regtest with coin := 15 } rfl).2
  exact absurd hcents (by decide)

end Config

end StakeChain
