import Mathlib.Algebra.BigOperators.Ring.Finset
import Mathlib.Algebra.Order.BigOperators.Group.List
import Mathlib.Algebra.Order.Group.Nat
import StakeChain.Proofs.StakeWeight
/-!
How exact a coin age is. Each input is rounded down to whole cents times seconds, and their sum once more to
whole days of one coin, so an age misses less than a cent times a second for each input that counts. What is
lost never reverses an order: of one list of sources each counts no less at a later time or with a larger
value, and one source more takes nothing from the others.
-/

namespace StakeChain

namespace StakeSource

variable {p : Parameters} {s s' : StakeSource} {t u : UInt32} {n : Nat}

/-- The output has the minimum age, counted from its block. -/
def aged (p : Parameters) (time : UInt32) (s : StakeSource) : Bool :=
  s.block.time.toNat + p.stakeMinAge.toNat ≤ time.toNat

/-- Value times holding time; a negative value counts as zero. -/
def unitSeconds (time : UInt32) (s : StakeSource) : Int :=
  max s.output.value.toInt 0 * ((time.toNat : Int) - s.effectiveTime.toNat)

/-- The same as a natural number, zero for a time before the source's. -/
def heldUnits (time : UInt32) (s : StakeSource) : Nat :=
  s.output.amount * (time.toNat - s.effectiveTime.toNat)

theorem unitSeconds_eq (h : s.effectiveTime ≤ t) : s.unitSeconds t = s.heldUnits t := by
  have h : s.effectiveTime.toNat ≤ t.toNat := h
  rw [unitSeconds, heldUnits, Int.natCast_mul, Output.amount, Int.ofNat_toNat, Int.ofNat_sub h]

/-- What a source adds to a sum of cent-seconds. -/
def share (p : Parameters) (time : UInt32) (s : StakeSource) : Nat :=
  if s.aged p time then s.heldUnits time / p.centUnits else 0

theorem centSeconds_eq_ok : s.centSeconds p t = .ok n ↔ s.effectiveTime ≤ t ∧ s.share p t = n := by
  rw [centSeconds]
  split
  · rename_i hearly
    simp [UInt32.not_le.2 hearly]
  · rename_i htime
    by_cases haged : s.block.time.toNat + p.stakeMinAge.toNat ≤ t.toNat
    · simp [share, aged, Nat.not_lt.2 haged, haged, UInt32.not_lt.1 htime, heldUnits]
    · simp [share, aged, haged, UInt32.not_lt.1 htime, Nat.not_le.1 haged]

/-- A source that has held no less, and counts where the other does, adds no less. -/
theorem share_le (haged : s.aged p t = true → s'.aged p u = true) (hheld : s.heldUnits t ≤ s'.heldUnits u) :
    s.share p t ≤ s'.share p u := by
  by_cases h : s.aged p t = true
  · rw [share, share, if_pos h, if_pos (haged h)]
    exact Nat.div_le_div_right hheld
  · rw [share, if_neg h]
    exact Nat.zero_le _

theorem share_mono_time (htime : t ≤ u) : s.share p t ≤ s.share p u := by
  have htime : t.toNat ≤ u.toNat := htime
  exact share_le (fun haged => decide_eq_true (Nat.le_trans (of_decide_eq_true haged) htime))
    (Nat.mul_le_mul_left _ (Nat.sub_le_sub_right htime _))

/-- The same output but for its value, which is no smaller. -/
def Richer (s s' : StakeSource) : Prop := ∃ value, s.output.value ≤ value ∧ s' = s.withValue value

theorem Richer.share_le (h : s.Richer s') : s.share p t ≤ s'.share p t := by
  obtain ⟨value, hvalue, rfl⟩ := h
  have hamount : s.output.amount ≤ (s.withValue value).output.amount :=
    Int.toNat_le_toNat (Int64.le_iff_toInt_le.1 hvalue)
  exact StakeSource.share_le id (Nat.mul_le_mul_right _ hamount)

end StakeSource

namespace Parameters

variable {p : Parameters} {m n : Nat}

theorem centUnits_eq (hcent : 0 < p.cent) : (p.centUnits : Int) = p.cent.toInt :=
  toNat_toUInt64_of_pos hcent

theorem centUnits_pos (hcent : 0 < p.cent) : 0 < p.centUnits := toUInt64_pos hcent

/-- The two divisions round down as one. -/
theorem coinDays_eq : p.coinDays n = n * p.centUnits / p.coinDayUnits := Nat.div_div_eq_div_mul _ _ _

theorem coinDays_mono (h : m ≤ n) : p.coinDays m ≤ p.coinDays n := by
  rw [coinDays_eq, coinDays_eq]
  exact Nat.div_le_div_right (Nat.mul_le_mul_right _ h)

/-- Nothing is cut off an age that fits, nor off any below it. -/
theorem ofNat_coinDays_le (h : m ≤ n) (hfits : p.coinDays n < 2 ^ 64) :
    UInt64.ofNat (p.coinDays m) ≤ UInt64.ofNat (p.coinDays n) := by
  have hmono := p.coinDays_mono h
  rw [UInt64.le_iff_toNat_le, UInt64.toNat_ofNat_of_lt' (Nat.lt_of_le_of_lt hmono hfits),
    UInt64.toNat_ofNat_of_lt' hfits]
  exact hmono

/-- Shares in cents miss less than a cent times a second for each source that counts. -/
theorem sum_share_bounds (hcent : 0 < p.cent) (t : UInt32) (sources : List StakeSource) :
    (sources.map (·.share p t)).sum * p.centUnits ≤
      ((sources.filter (·.aged p t)).map (·.heldUnits t)).sum ∧
    ((sources.filter (·.aged p t)).map (·.heldUnits t)).sum ≤
      (sources.map (·.share p t)).sum * p.centUnits +
        (sources.filter (·.aged p t)).length * (p.centUnits - 1) := by
  induction sources with
  | nil => simp
  | cons s sources ih =>
    obtain ⟨hlower, hupper⟩ := ih
    cases haged : s.aged p t with
    | false => simpa [StakeSource.share, haged] using ⟨hlower, hupper⟩
    | true =>
      have hshare : s.share p t = s.heldUnits t / p.centUnits := if_pos haged
      have hwhole := Nat.div_add_mod' (s.heldUnits t) p.centUnits
      have hrest := Nat.mod_lt (s.heldUnits t) (centUnits_pos hcent)
      simp only [List.map_cons, List.filter_cons, haged, if_true, List.sum_cons, hshare, List.length_cons,
        Nat.add_mul, Nat.one_mul]
      omega

end Parameters

namespace OutputView

variable {outputs outputs' : OutputView} {p : Parameters} {t u : UInt32} {inputs inputs' : List OutPoint}
  {sources : List StakeSource} {n : Nat}

/-- The sources of those inputs that have the minimum age. -/
def agedSources (outputs : OutputView) (p : Parameters) (time : UInt32) (inputs : List OutPoint) :
    List StakeSource :=
  inputs.filterMap fun input => (outputs.source input).toOption.filter (·.aged p time)

/-- Value times holding time, over the inputs that have the minimum age. -/
def unitSeconds (outputs : OutputView) (p : Parameters) (time : UInt32) (inputs : List OutPoint) : Int :=
  ((outputs.agedSources p time inputs).map (·.unitSeconds time)).sum

/-- The sources of the inputs, one for each, none of them later than the time. -/
def Resolves (outputs : OutputView) (time : UInt32) : List OutPoint → List StakeSource → Prop :=
  List.Forall₂ fun input s => outputs.source input = .ok s ∧ s.effectiveTime ≤ time

/-- Each output has the value it had or a larger one. -/
def Richer (outputs outputs' : OutputView) : Prop :=
  ∀ input s, outputs.source input = .ok s → ∃ s', outputs'.source input = .ok s' ∧ s.Richer s'

theorem Resolves.agedSources_eq (h : outputs.Resolves t inputs sources) :
    outputs.agedSources p t inputs = sources.filter (·.aged p t) := by
  induction h with
  | nil => rfl
  | @cons input s inputs sources hs _ ih =>
    rw [agedSources] at ih
    rw [agedSources, List.filterMap_cons, hs.1, ih, List.filter_cons]
    cases haged : s.aged p t with
    | true => simp only [Except.toOption, Option.filter_some, haged, if_true]
    | false => simp only [Except.toOption, Option.filter_some, haged, Bool.false_eq_true, if_false]

/-- The sum succeeds where every input resolves, and adds up the shares. -/
theorem sumCentSeconds_eq_ok : sumCentSeconds p outputs t inputs = .ok n ↔
    ∃ sources, outputs.Resolves t inputs sources ∧ (sources.map (·.share p t)).sum = n := by
  induction inputs generalizing n with
  | nil => simp [sumCentSeconds, Resolves]
  | cons input inputs ih =>
    simp only [sumCentSeconds, bind_eq_ok, mapError_eq_ok, StakeSource.centSeconds_eq_ok, pure_eq_ok, ih]
    constructor
    · rintro ⟨s, hs, _, ⟨htime, rfl⟩, _, ⟨sources, hsources, rfl⟩, rfl⟩
      exact ⟨s :: sources, .cons ⟨hs, htime⟩ hsources, List.sum_cons⟩
    · rintro ⟨_, _ | ⟨⟨hs, htime⟩, hsources⟩, rfl⟩
      exact ⟨_, hs, _, ⟨htime, rfl⟩, _, ⟨_, hsources, rfl⟩, List.sum_cons.symm⟩

/-- Over inputs that resolve, base units times seconds add up as natural numbers. -/
theorem Resolves.unitSeconds_eq (h : outputs.Resolves t inputs sources) :
    outputs.unitSeconds p t inputs = ((sources.filter (·.aged p t)).map (·.heldUnits t)).sum := by
  have htime : ∀ s ∈ sources, s.effectiveTime ≤ t := by
    induction h with
    | nil => simp
    | cons hs _ ih => exact List.forall_mem_cons.2 ⟨hs.2, ih⟩
  have heach : ∀ s ∈ sources.filter (·.aged p t), s.unitSeconds t = (s.heldUnits t : Int) := fun s hs =>
    StakeSource.unitSeconds_eq (htime s (List.mem_of_mem_filter hs))
  rw [unitSeconds, h.agedSources_eq, List.map_congr_left heach, Nat.cast_list_sum, List.map_map]
  rfl

/-- Nothing of the age of the inputs is cut off at 64 bits. -/
def AgeFits (outputs : OutputView) (p : Parameters) (time : UInt32) (inputs : List OutPoint) : Prop :=
  outputs.unitSeconds p time inputs < 2 ^ 64 * (p.coin.toInt * 86400)

theorem Resolves.coinDays_lt (h : outputs.Resolves t inputs sources) (hcoin : 0 < p.coin)
    (hcent : 0 < p.cent) (hfits : outputs.AgeFits p t inputs) :
    p.coinDays (sources.map (·.share p t)).sum < 2 ^ 64 := by
  obtain ⟨hlower, -⟩ := Parameters.sum_share_bounds hcent t sources
  rw [AgeFits, h.unitSeconds_eq, ← Parameters.coinDayUnits_eq hcoin] at hfits
  rw [Parameters.coinDays_eq]
  refine Nat.div_lt_of_lt_mul (Nat.lt_of_le_of_lt hlower ?_)
  rw [Nat.mul_comm]
  exact_mod_cast hfits

/-! ### Other inputs, views and times -/

theorem Resolves.later (h : outputs.Resolves t inputs sources) (htime : t ≤ u) :
    outputs.Resolves u inputs sources :=
  h.imp fun _ _ hs => ⟨hs.1, UInt32.le_trans hs.2 htime⟩

theorem Resolves.richer (h : outputs.Resolves t inputs sources) (hricher : outputs.Richer outputs') :
    ∃ sources', outputs'.Resolves t inputs sources' ∧
      List.Forall₂ StakeSource.Richer sources sources' := by
  induction h with
  | nil => exact ⟨[], .nil, .nil⟩
  | @cons input s _ _ hs _ ih =>
    obtain ⟨sources', hresolves, hsources⟩ := ih
    obtain ⟨_, hs', value, hvalue, rfl⟩ := hricher input s hs.1
    exact ⟨_, .cons ⟨hs', hs.2⟩ hresolves, .cons ⟨value, hvalue, rfl⟩ hsources⟩

theorem Resolves.perm (h : outputs.Resolves t inputs sources) (hperm : inputs'.Perm inputs) :
    ∃ sources', outputs.Resolves t inputs' sources' ∧ sources'.Perm sources :=
  List.perm_comp_forall₂ hperm h

/-- An input more, at any place, brings its source. -/
theorem Resolves.added {l r : List OutPoint} {input : OutPoint} {s : StakeSource}
    (h : outputs.Resolves t (l ++ r) sources) (hs : outputs.source input = .ok s)
    (htime : s.effectiveTime ≤ t) :
    ∃ sources', outputs.Resolves t (l ++ input :: r) sources' ∧ sources'.Perm (s :: sources) :=
  Resolves.perm (.cons ⟨hs, htime⟩ h) List.perm_middle

end OutputView

namespace Transaction

variable {p : Parameters} {outputs outputs' : OutputView} {tx tx' : Transaction} {t u : UInt32}
  {sources sources' : List StakeSource} {a : UInt64}

theorem isCoinbase_iff : tx.isCoinbase = true ↔ tx.inputs = [.null] := by
  rw [isCoinbase]
  split
  · rename_i hinputs
    simp [hinputs, OutPoint.isNull]
  · rename_i hinputs
    simpa using hinputs .null

/-- What spends is known by what it spends, in whatever order. -/
theorem isCoinbase_of_perm (hperm : tx'.inputs.Perm tx.inputs) (htx : tx.isCoinbase = false) :
    tx'.isCoinbase = false := by
  rw [Bool.eq_false_iff, Ne, isCoinbase_iff] at htx ⊢
  intro htx'
  rw [htx'] at hperm
  exact htx (List.singleton_perm.1 hperm).symm

theorem coinAge_eq_ok (htx : tx.isCoinbase = false) : tx.coinAge p outputs t = .ok a ↔
    ∃ sources, outputs.Resolves t tx.inputs sources ∧
      UInt64.ofNat (p.coinDays (sources.map (·.share p t)).sum) = a := by
  rw [coinAge, if_neg (Bool.eq_false_iff.1 htx), map_eq_ok]
  simp only [OutputView.sumCentSeconds_eq_ok]
  constructor
  · rintro ⟨_, ⟨sources, hsources, rfl⟩, ha⟩
    exact ⟨sources, hsources, ha⟩
  · rintro ⟨sources, hsources, ha⟩
    exact ⟨_, ⟨sources, hsources, rfl⟩, ha⟩

/-- The order of the inputs is nothing to their age. -/
theorem coinAge_of_perm (htx : tx.isCoinbase = false) (hperm : tx'.inputs.Perm tx.inputs)
    (h : tx.coinAge p outputs t = .ok a) : tx'.coinAge p outputs t = .ok a := by
  obtain ⟨sources, hsources, rfl⟩ := (coinAge_eq_ok htx).1 h
  obtain ⟨sources', hsources', hsame⟩ := hsources.perm hperm
  rw [← (hsame.map _).sum_eq]
  exact (coinAge_eq_ok (isCoinbase_of_perm hperm htx)).2 ⟨sources', hsources', rfl⟩

/-- Where the shares add up to no less, so does the age. -/
theorem coinAge_le (htx' : tx'.isCoinbase = false) (hcoin : 0 < p.coin) (hcent : 0 < p.cent)
    (h : outputs'.Resolves u tx'.inputs sources')
    (hsum : (sources.map (·.share p t)).sum ≤ (sources'.map (·.share p u)).sum) :
    ∃ b, tx'.coinAge p outputs' u = .ok b ∧
      (outputs'.AgeFits p u tx'.inputs →
        UInt64.ofNat (p.coinDays (sources.map (·.share p t)).sum) ≤ b) :=
  ⟨_, (coinAge_eq_ok htx').2 ⟨sources', h, rfl⟩, fun hfits =>
    Parameters.ofNat_coinDays_le hsum (h.coinDays_lt hcoin hcent hfits)⟩

theorem coinAge_bounds (htx : tx.isCoinbase = false) (hcoin : 0 < p.coin) (hcent : 0 < p.cent)
    (h : tx.coinAge p outputs t = .ok a) (hfits : outputs.AgeFits p t tx.inputs) :
    (outputs.unitSeconds p t tx.inputs - (outputs.agedSources p t tx.inputs).length * (p.cent.toInt - 1)) /
        (p.coin.toInt * 86400) ≤ a.toNat ∧
      (a.toNat : Int) ≤ outputs.unitSeconds p t tx.inputs / (p.coin.toInt * 86400) := by
  obtain ⟨sources, hsources, rfl⟩ := (coinAge_eq_ok htx).1 h
  obtain ⟨hlower, hupper⟩ := Parameters.sum_share_bounds hcent t sources
  have hcents : ((p.centUnits - 1 : Nat) : Int) = p.cent.toInt - 1 := by
    rw [Int.ofNat_sub (Parameters.centUnits_pos hcent), Parameters.centUnits_eq hcent, Nat.cast_one]
  have hdays : (0 : Int) < p.coinDayUnits := Int.natCast_pos.2 (Parameters.coinDayUnits_pos hcoin)
  rw [UInt64.toNat_ofNat_of_lt' (hsources.coinDays_lt hcoin hcent hfits), Parameters.coinDays_eq,
    hsources.unitSeconds_eq, hsources.agedSources_eq, ← Parameters.coinDayUnits_eq hcoin, ← hcents,
    Int.natCast_ediv]
  refine ⟨Int.ediv_le_ediv hdays ?_, Int.ediv_le_ediv hdays ?_⟩
  · exact Int.sub_right_le_of_le_add (by exact_mod_cast hupper)
  · exact_mod_cast hlower

end Transaction

/-- For a transaction that is no coinbase, where the age fits in 64 bits: it is no more than value times holding
time in whole coin-days, over the inputs that have the minimum age, and no less than what is left of that when
a cent less one base unit, times a second, is taken off for each of these inputs. Where there is an age at one
time, there is one at every later time. It does not fall with time, with a larger value or with an input more,
and the order of the inputs is nothing to it. -/
theorem coin_age_accurate (p : Parameters) (outputs : OutputView) (tx : Transaction) (hcoin : 0 < p.coin)
    (hcent : 0 < p.cent) (htx : tx.isCoinbase = false) :
    (∀ t a, tx.coinAge p outputs t = .ok a → outputs.AgeFits p t tx.inputs →
      (outputs.unitSeconds p t tx.inputs -
          (outputs.agedSources p t tx.inputs).length * (p.cent.toInt - 1)) / (p.coin.toInt * 86400) ≤
        a.toNat ∧
      (a.toNat : Int) ≤ outputs.unitSeconds p t tx.inputs / (p.coin.toInt * 86400)) ∧
    (∀ t u a, t ≤ u → tx.coinAge p outputs t = .ok a →
      ∃ b, tx.coinAge p outputs u = .ok b ∧ (outputs.AgeFits p u tx.inputs → a ≤ b)) ∧
    (∀ outputs' t a, outputs.Richer outputs' → tx.coinAge p outputs t = .ok a →
      ∃ b, tx.coinAge p outputs' t = .ok b ∧ (outputs'.AgeFits p t tx.inputs → a ≤ b)) ∧
    (∀ (tx' : Transaction) l r input s t a, tx.inputs = l ++ r → tx'.inputs = l ++ input :: r →
      outputs.source input = .ok s → s.effectiveTime ≤ t → tx.coinAge p outputs t = .ok a →
      ∃ b, tx'.coinAge p outputs t = .ok b ∧ (outputs.AgeFits p t tx'.inputs → a ≤ b)) ∧
    ∀ (tx' : Transaction) t a, tx'.inputs.Perm tx.inputs →
      (tx'.coinAge p outputs t = .ok a ↔ tx.coinAge p outputs t = .ok a) := by
  refine ⟨fun t a => Transaction.coinAge_bounds htx hcoin hcent, ?later, ?richer, ?added, ?order⟩
  case later =>
    intro t u a htime h
    obtain ⟨sources, hsources, rfl⟩ := (Transaction.coinAge_eq_ok htx).1 h
    exact Transaction.coinAge_le htx hcoin hcent (hsources.later htime)
      (List.sum_le_sum fun s _ => s.share_mono_time htime)
  case richer =>
    intro outputs' t a hricher h
    obtain ⟨sources, hsources, rfl⟩ := (Transaction.coinAge_eq_ok htx).1 h
    obtain ⟨sources', hsources', hvalues⟩ := hsources.richer hricher
    refine Transaction.coinAge_le htx hcoin hcent hsources' (List.Forall₂.sum_le_sum ?_)
    rw [List.forall₂_map_left_iff, List.forall₂_map_right_iff]
    exact hvalues.imp fun _ _ hvalue => hvalue.share_le
  case added =>
    intro tx' l r input s t a hinputs hinputs' hs htime h
    obtain ⟨sources, hsources, rfl⟩ := (Transaction.coinAge_eq_ok htx).1 h
    rw [hinputs] at hsources
    cases htx' : tx'.isCoinbase with
    | true =>
      -- One input alone can be that of a coinbase, which has no age. Without it there was none either.
      obtain ⟨rfl, rfl⟩ : l = [] ∧ r = [] := by
        have halone := Transaction.isCoinbase_iff.1 htx'
        rw [hinputs', List.append_eq_singleton_iff] at halone
        simp only [reduceCtorEq, and_false, or_false, List.cons.injEq] at halone
        exact ⟨halone.1, halone.2.2⟩
      obtain rfl := List.forall₂_nil_left_iff.1 hsources
      exact ⟨0, if_pos htx', fun _ => by simp [Parameters.coinDays]⟩
    | false =>
      obtain ⟨sources', hsources', hperm⟩ := hsources.added hs htime
      refine Transaction.coinAge_le htx' hcoin hcent (hinputs' ▸ hsources') ?_
      rw [(hperm.map _).sum_eq, List.map_cons, List.sum_cons]
      exact Nat.le_add_left _ _
  case order =>
    exact fun tx' t a hperm =>
      ⟨Transaction.coinAge_of_perm (Transaction.isCoinbase_of_perm hperm htx) hperm.symm,
        Transaction.coinAge_of_perm htx hperm⟩

namespace SmallChain

/-- Two outputs of one transaction, which together are one coin. -/
def halves : OutputView := fun o =>
  .ok (some { fresh with outpoint := o, output := ⟨if o.vout = 0 then 500001 else 499999, [1]⟩ })

def spendHalves : Transaction := ⟨digest 3, none, [⟨digest 1, 0⟩, ⟨digest 1, 1⟩], [⟨1000000, [1]⟩], 100⟩

end SmallChain

open SmallChain in
/-- Two parts of a coin, held for a day, lose less than a cent-second each, and with it the whole day. -/
theorem coin_age_accurate_halves :
    halves.unitSeconds .regtest 1600086400 spendHalves.inputs = 1000000 * 86400 ∧
    spendHalves.coinAge .regtest halves 1600086400 = .ok 0 ∧
    (1000000 * 86400 - 2 * (10000 - 1)) / (1000000 * 86400) ≤ (0 : Int) ∧
    (0 : Int) ≤ 1000000 * 86400 / (1000000 * 86400) ∧
    ∃ b, spendHalves.coinAge .regtest halves 1600172800 = .ok b ∧ 0 ≤ b := by
  have hunits : halves.unitSeconds .regtest 1600086400 spendHalves.inputs = 1000000 * 86400 := by
    decide +kernel
  have hcount : (halves.agedSources .regtest 1600086400 spendHalves.inputs).length = 2 := by decide +kernel
  have hage : spendHalves.coinAge .regtest halves 1600086400 = .ok 0 := by decide +kernel
  obtain ⟨hbounds, hlater, -⟩ :=
    coin_age_accurate .regtest halves spendHalves (by decide) (by decide) (by decide)
  have haccurate := hbounds _ 0 hage (by rw [OutputView.AgeFits, hunits]; decide)
  rw [hunits, hcount] at haccurate
  obtain ⟨b, hb, hle⟩ := hlater 1600086400 1600172800 0 (by decide) hage
  exact ⟨hunits, hage, haccurate.1, haccurate.2, b, hb, hle (by unfold OutputView.AgeFits; decide +kernel)⟩

end StakeChain
