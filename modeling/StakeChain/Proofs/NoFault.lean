import StakeChain.Modifier.Schedule
import StakeChain.Proofs.CoinAge
import StakeChain.Proofs.Configuration
import StakeChain.Proofs.Machine
import StakeChain.Stake.Coinstake
import StakeChain.Stake.Search
/-!
The stake rules with every step of their arithmetic checked. On no view, however damaged, does a step fault, and
so the checked rules say what the rules say: a depth is taken only below a block that was found on the branch,
a holding time only up to a time that is not before the source's, and what a configuration gives out divides
by no zero.
-/

namespace StakeChain

open Machine

namespace Checked

variable {p : Parameters}

/-! ### Modifiers -/

/-- The modifier of the block after `prev`. -/
def nextModifier (v : View) (p : Parameters) : Option Nat → Stepwise ConsensusError NextModifier
  | none => return ⟨0, true⟩
  | some prev => do
    let tip ← .of (v.resolve prev)
    let last ← .of (v.lastGenerated prev)
    if p.modifierInterval = 0 then throw .zeroModifierInterval
    let lastInterval ← divSigned last.time.toNat p.modifierInterval.toNat
    let tipInterval ← divSigned tip.time.toNat p.modifierInterval.toNat
    if tipInterval ≤ lastInterval then
      return ⟨last.stakeModifier, false⟩
    let stop ← signed (tipInterval * p.modifierInterval.toNat)
    let length ← selectionInterval p
    let start ← signed (stop - length)
    let window ← .of ((v.trail prev).takeWhile fun b => start ≤ (b.time.toNat : Int))
    let word ← draw p modifierRounds 0 start 0 (Candidate.ofWindow window.reverse last.stakeModifier)
    return ⟨UInt64.ofNat word, true⟩

theorem nextModifier_eq (v : View) (p : Parameters) (prev : Option Nat) :
    nextModifier v p prev = .of (v.nextModifier p prev) := by
  cases prev with
  | none => rfl
  | some prev =>
    rw [nextModifier, View.nextModifier]
    refine Stepwise.bind_of rfl fun tip _ => Stepwise.bind_of rfl fun last _ => ?_
    split
    · rfl
    · rename_i hinterval
      have hdivisor : p.modifierInterval.toNat ≠ 0 := fun h => hinterval (UInt32.toNat_inj.1 h)
      have hdiv : ∀ t : UInt32, divSigned t.toNat p.modifierInterval.toNat = .ok (p.intervalOf t : Int) :=
        fun t => divSigned_natCast (Nat.lt_trans t.toNat_lt (by decide)) hdivisor
      simp only [Stepwise.lift_bind (hdiv _), Int.ofNat_le]
      split
      · rfl
      · have hbegin : p.intervalOf tip.time * p.modifierInterval.toNat ≤ tip.time.toNat :=
          Nat.div_mul_le_self _ _
        have htip := tip.time.toNat_lt
        have hlength := p.selectionInterval_lt
        rw [Stepwise.lift_bind (signed_eq (by omega) (by omega)), Stepwise.lift_bind selectionInterval_eq,
          Stepwise.lift_bind (signed_eq (by omega) (by omega))]
        refine Stepwise.bind_of rfl fun window _ => ?_
        rw [Stepwise.lift_bind (draw_eq (Nat.le_refl _) (by omega) (by rw [modifierRounds]; omega) (by decide))]
        simp only [drawModifier, Nat.zero_add, Nat.pow_zero, Nat.mul_one]
        rfl

/-- The modifier in the kernel of a coinstake. -/
def kernelModifier (v : View) (p : Parameters) (prev : Nat) (source : SourceBlock) (time : UInt32) :
    Stepwise ConsensusError KernelModifier := do
  if !p.inForce .v03 time then return .legacyBits
  let tip ← .of (v.resolve prev)
  if p.inForce .v05 time then return .modifier tip.stakeModifier
  if tip.height < source.height then throw (.missingAncestor prev source.height)
  let segment ← .of ((v.trail prev).takeWhile fun b => source.height < b.height)
  let length ← selectionInterval p
  let target ← signed (source.time.toNat + length)
  match blockReaching target.toNat source.time.toNat none segment.reverse with
  | none => throw (.rejected (.modifierNotYetAvailable source.hash))
  | some (some b) => return .modifier b.stakeModifier
  | some none =>
    match v.lookup source.hash with
    | none => throw (.missingAncestor prev source.height)
    | some id => return .modifier (← .of (v.resolve id)).stakeModifier

theorem kernelModifier_eq (v : View) (p : Parameters) (prev : Nat) (source : SourceBlock) (time : UInt32) :
    kernelModifier v p prev source time = .of (v.kernelModifier p prev source time) := by
  have hsource := source.time.toNat_lt
  have hlength := p.selectionInterval_lt
  rw [kernelModifier, View.kernelModifier]
  refine Stepwise.ite_of (fun _ => rfl) fun _ => Stepwise.bind_of rfl fun tip _ => ?_
  refine Stepwise.ite_of (fun _ => rfl) fun _ => Stepwise.ite_of (fun _ => rfl) fun _ => ?_
  refine Stepwise.bind_of rfl fun segment _ => ?_
  rw [Stepwise.lift_bind selectionInterval_eq, Stepwise.lift_bind (signed_eq (by omega) (by omega)),
    ← Int.natCast_add, Int.toNat_natCast]
  dsimp only
  cases blockReaching (source.time.toNat + p.selectionInterval) source.time.toNat none segment.reverse with
  | none => rfl
  | some reached =>
    cases reached with
    | some b => rfl
    | none =>
      cases v.lookup source.hash with
      | none => rfl
      | some id => exact Stepwise.bind_of rfl fun b _ => rfl

/-! ### Kernels -/

/-- The rules on the times of a source. -/
def checkTimes (p : Parameters) (s : StakeSource) (time : UInt32) : Stepwise Rejection Unit := do
  if time < s.effectiveTime then throw (.timeBeforePrevious time s.effectiveTime)
  let due ← unsigned (s.block.time.toNat + p.stakeMinAge.toNat)
  if time.toNat < due then throw (.belowMinAge s.block.time p.stakeMinAge time)

theorem checkTimes_eq (p : Parameters) (s : StakeSource) (time : UInt32) :
    checkTimes p s time = .of (s.checkTimes p time) := by
  rw [checkTimes, StakeSource.checkTimes]
  refine Stepwise.ite_of (fun _ => rfl) fun _ => ?_
  rw [Stepwise.lift_bind (unsigned_add _ _)]
  exact Stepwise.ite_of (fun _ => rfl) fun _ => rfl

/-- The proof of staking the source at `time`. -/
def checkKernel (p : Parameters) (s : StakeSource) (m : KernelModifier) (nBits time : UInt32) :
    Stepwise Rejection Hash := do
  checkTimes p s time
  let target ← weightedTarget p nBits s.output.value s.effectiveTime time
  let proof := s.kernelHash m nBits time
  if target < proof.toNat then throw (.targetMissed proof)
  return proof

theorem checkKernel_eq (hcoin : p.coinUnits ≠ 0) (s : StakeSource) (m : KernelModifier)
    (nBits time : UInt32) : checkKernel p s m nBits time = .of (s.checkKernel p m nBits time) := by
  rw [checkKernel, StakeSource.checkKernel]
  refine Stepwise.bind_of (checkTimes_eq p s time) fun _ _ => ?_
  rw [Stepwise.lift_bind (weightedTarget_eq hcoin _)]
  exact Stepwise.ite_of (fun _ => rfl) fun _ => rfl

/-- The target for a time weight, from the last one computed or computed again. -/
def targetFrom (p : Parameters) (s : StakeSource) (perCoinDay : Nat) (last : Option CachedTarget)
    (weight : Nat) : Except Fault CachedTarget :=
  match last with
  | some c =>
    if c.weight = weight then return c
    else return ⟨weight, ← targetForWeight p perCoinDay s.output.value weight⟩
  | none => return ⟨weight, ← targetForWeight p perCoinDay s.output.value weight⟩

theorem targetFrom_eq (hcoin : p.coinUnits ≠ 0) (s : StakeSource) (perCoinDay : Nat)
    (last : Option CachedTarget) (weight : Nat) :
    targetFrom p s perCoinDay last weight = .ok (s.targetFrom p perCoinDay last weight) := by
  cases last with
  | none => simp only [targetFrom, targetForWeight_eq hcoin, ok_bind]; rfl
  | some c =>
    simp only [targetFrom, targetForWeight_eq hcoin, ok_bind, StakeSource.targetFrom]
    split <;> rfl

/-- Tries `count` times from `time` on. -/
def searchWithin (p : Parameters) (s : StakeSource) (m : KernelModifier) (nBits : UInt32)
    (perCoinDay : Nat) : Nat → Nat → Option CachedTarget → Except Fault (Option (UInt32 × Hash))
  | 0, _, _ => return none
  | count + 1, time, last => do
    let t := UInt32.ofNat time
    if p.isStakeTime t then
      let timely ← checkTimes p s t
      if timely.isOk then
        let weight ← timeWeight p s.effectiveTime t
        let c ← targetFrom p s perCoinDay last weight
        let proof := s.kernelHash m nBits t
        if proof.toNat ≤ c.target then return some (t, proof)
        else searchWithin p s m nBits perCoinDay count (time + 1) (some c)
      else searchWithin p s m nBits perCoinDay count (time + 1) last
    else searchWithin p s m nBits perCoinDay count (time + 1) last

theorem searchWithin_eq (hcoin : p.coinUnits ≠ 0) (s : StakeSource) (m : KernelModifier) (nBits : UInt32)
    (perCoinDay count time : Nat) (last : Option CachedTarget) :
    searchWithin p s m nBits perCoinDay count time last =
      .ok (s.searchWithin p m nBits perCoinDay count time last) := by
  induction count generalizing time last with
  | zero => rfl
  | succ count ih =>
    rw [searchWithin, StakeSource.searchWithin]
    dsimp only
    rw [checkTimes_eq]
    cases p.isStakeTime (UInt32.ofNat time) with
    | false => exact ih (time + 1) last
    | true =>
      cases s.checkTimes p (UInt32.ofNat time) with
      | error e => exact ih (time + 1) last
      | ok u =>
        have hpassed : (Except.ok u : Except Rejection Unit).isOk = true := rfl
        rw [if_pos rfl, Stepwise.of_eq, ok_bind, hpassed, Bool.true_and, if_pos rfl, if_pos rfl,
          timeWeight_eq, ok_bind, targetFrom_eq hcoin, ok_bind, ih]
        split <;> rfl

/-- The first time from `first` to `last` at which the source stakes. -/
def search (p : Parameters) (s : StakeSource) (m : KernelModifier) (nBits first last : UInt32) :
    Except Fault (Option (UInt32 × Hash)) := do
  let perCoinDay ← ofCompact nBits
  searchWithin p s m nBits perCoinDay (last.toNat + 1 - first.toNat) first.toNat none

theorem search_eq (hcoin : p.coinUnits ≠ 0) (s : StakeSource) (m : KernelModifier)
    (nBits first last : UInt32) :
    search p s m nBits first last = .ok (s.search p m nBits first last) := by
  rw [search, ofCompact_eq, ok_bind, searchWithin_eq hcoin, StakeSource.search]

/-! ### Coinstakes -/

/-- Whether the times of a block and of its coinstake go together. -/
def timesAgree (p : Parameters) (blockTime txTime : UInt32) : Except Fault Bool := do
  if p.inForce .v03 txTime then return blockTime == txTime
  else if txTime ≤ blockTime then
    let latest ← unsigned (txTime.toNat + p.maxClockDrift.toNat)
    return decide (blockTime.toNat ≤ latest)
  else return false

theorem timesAgree_eq (p : Parameters) (blockTime txTime : UInt32) : timesAgree p blockTime txTime =
    .ok (if p.inForce .v03 txTime then blockTime == txTime
      else txTime ≤ blockTime && blockTime.toNat ≤ txTime.toNat + p.maxClockDrift.toNat) := by
  rw [timesAgree]
  split
  · rfl
  · split
    · rename_i hlate
      rw [unsigned_add, ok_bind]
      simp [hlate, pure, Except.pure]
    · rename_i hearly
      simp [hearly, pure, Except.pure]

/-- The rules for a coinstake's time in a block. -/
def checkCoinstakeTime (p : Parameters) (blockTime txTime : UInt32) : Stepwise Rejection Unit := do
  if p.inForce .v09 txTime && txTime &&& p.stakeTimeMask != 0 then
    throw (.timeGranularity txTime p.stakeTimeGranularity)
  let ok ← timesAgree p blockTime txTime
  if !ok then throw (.coinstakeTime blockTime txTime)

theorem checkCoinstakeTime_eq (p : Parameters) (blockTime txTime : UInt32) :
    checkCoinstakeTime p blockTime txTime = .of (p.checkCoinstakeTime blockTime txTime) := by
  rw [checkCoinstakeTime, Parameters.checkCoinstakeTime]
  refine Stepwise.ite_of (fun _ => rfl) fun _ => ?_
  rw [Stepwise.lift_bind (timesAgree_eq p blockTime txTime)]
  cases (if p.inForce .v03 txTime then blockTime == txTime
    else decide (txTime ≤ blockTime) && decide (blockTime.toNat ≤ txTime.toNat + p.maxClockDrift.toNat)) with
  | true => rfl
  | false => rfl

/-- The proof of a coinstake in a block at `blockTime` after `prev`. -/
def checkCoinstake (v : View) (outputs : OutputView) (p : Parameters) (prev : Nat) (tx : Transaction)
    (nBits blockTime : UInt32) : Stepwise ConsensusError Hash := do
  let source ← .of (v.kernelSource outputs prev tx)
  let time := tx.time.getD blockTime
  (checkCoinstakeTime p blockTime time).mapError .rejected
  let tip ← .of (v.resolve prev)
  let depth ← sub tip.height source.block.height
  let required := p.stakeMinDepth.toNat - 1
  if depth < required then throw (.rejected (.tooShallow depth required))
  let m ← kernelModifier v p prev source.block time
  (checkKernel p source m nBits time).mapError .rejected

theorem checkCoinstake_eq (hcoin : p.coinUnits ≠ 0) (v : View) (outputs : OutputView) (prev : Nat)
    (tx : Transaction) (nBits blockTime : UInt32) :
    checkCoinstake v outputs p prev tx nBits blockTime =
      .of (v.checkCoinstake outputs p prev tx nBits blockTime) := by
  rw [checkCoinstake, View.checkCoinstake]
  refine Stepwise.bind_of rfl fun source hsource => ?_
  refine Stepwise.bind_of (checkCoinstakeTime_eq p blockTime _ ▸ rfl) fun _ _ => ?_
  refine Stepwise.bind_of rfl fun tip htip => ?_
  have hheight : source.block.height ≤ tip.height := by
    obtain ⟨-, id, b, hfound, -⟩ := View.kernelSource_ancestor hsource
    obtain ⟨tip', htip', hheight⟩ := View.height_le_of_ancestor hfound
    obtain rfl : tip' = tip := by simpa [htip'] using View.resolve_eq_ok.1 htip
    exact hheight
  rw [Stepwise.lift_bind (sub_eq hheight)]
  refine Stepwise.ite_of (fun _ => rfl) fun _ => ?_
  refine Stepwise.bind_of (kernelModifier_eq v p prev source.block _) fun m _ => ?_
  rw [checkKernel_eq hcoin]
  rfl

/-! ### Coin age -/

/-- The cent-seconds of one input spent at `time`. -/
def centSeconds (p : Parameters) (time : UInt32) (s : StakeSource) : Stepwise Rejection Nat := do
  if time < s.effectiveTime then throw (.timeBeforePrevious time s.effectiveTime)
  let due ← unsigned (s.block.time.toNat + p.stakeMinAge.toNat)
  if time.toNat < due then return 0
  let held ← sub time.toNat s.effectiveTime.toNat
  div (s.output.amount * held) p.centUnits

theorem centSeconds_eq (hcent : p.centUnits ≠ 0) (time : UInt32) (s : StakeSource) :
    centSeconds p time s = .of (s.centSeconds p time) := by
  rw [centSeconds, StakeSource.centSeconds]
  refine Stepwise.ite_of (fun _ => rfl) fun htime => ?_
  rw [Stepwise.lift_bind (unsigned_add _ _)]
  refine Stepwise.ite_of (fun _ => rfl) fun _ => ?_
  have htime : s.effectiveTime.toNat ≤ time.toNat := UInt32.not_lt.1 htime
  rw [Stepwise.lift_bind (sub_eq htime), div_eq hcent]
  rfl

/-- The cent-seconds of all inputs. -/
def sumCentSeconds (p : Parameters) (outputs : OutputView) (time : UInt32) :
    List OutPoint → Stepwise ConsensusError Nat
  | [] => return 0
  | input :: rest => do
    let source ← .of (outputs.source input)
    let n ← (centSeconds p time source).mapError .rejected
    return n + (← sumCentSeconds p outputs time rest)

theorem sumCentSeconds_eq (hcent : p.centUnits ≠ 0) (outputs : OutputView) (time : UInt32)
    (inputs : List OutPoint) :
    sumCentSeconds p outputs time inputs = .of (StakeChain.sumCentSeconds p outputs time inputs) := by
  induction inputs with
  | nil => rfl
  | cons input rest ih =>
    rw [sumCentSeconds, StakeChain.sumCentSeconds]
    refine Stepwise.bind_of rfl fun source _ => ?_
    refine Stepwise.bind_of (centSeconds_eq hcent time source ▸ rfl) fun n _ => ?_
    exact Stepwise.bind_of ih fun _ _ => rfl

/-- Whole days of one coin from cent-seconds. -/
def coinDays (p : Parameters) (centSeconds : Nat) : Except Fault Nat := do
  let coins ← div (centSeconds * p.centUnits) p.coinUnits
  div coins secondsPerDay

/-- The coin-days that a transaction at `time` consumes. -/
def coinAge (p : Parameters) (outputs : OutputView) (tx : Transaction) (time : UInt32) :
    Stepwise ConsensusError UInt64 := do
  if tx.isCoinbase then return 0
  let n ← sumCentSeconds p outputs time tx.inputs
  let days ← coinDays p n
  return UInt64.ofNat days

theorem coinAge_eq (hcoin : p.coinUnits ≠ 0) (hcent : p.centUnits ≠ 0) (outputs : OutputView)
    (tx : Transaction) (time : UInt32) :
    coinAge p outputs tx time = .of (tx.coinAge p outputs time) := by
  rw [coinAge, Transaction.coinAge]
  refine Stepwise.ite_of (fun _ => rfl) fun _ => ?_
  rw [sumCentSeconds_eq hcent]
  cases StakeChain.sumCentSeconds p outputs time tx.inputs with
  | error e => rfl
  | ok n =>
    have hdays : coinDays p n = .ok (p.coinDays n) := by
      rw [coinDays, div_eq hcoin, ok_bind, div_eq (by decide), Parameters.coinDays]
    exact Stepwise.lift_bind hdays _

end Checked

/-- Under every configuration, on every view of the chain and of the outputs, however damaged: with each step of
their arithmetic checked, the checks of a coinstake and of a kernel, the search, both computations of
modifiers and that of a coin age never fault, and give what they give unchecked. -/
theorem arithmetic_never_faults {c : Config} {p : Parameters} (h : c.parameters = .ok p) (v : View)
    (outputs : OutputView) :
    (∀ prev tx nBits blockTime, (Checked.checkCoinstake v outputs p prev tx nBits blockTime).run =
      .ok (v.checkCoinstake outputs p prev tx nBits blockTime)) ∧
    (∀ s m nBits time, (Checked.checkKernel p s m nBits time).run = .ok (s.checkKernel p m nBits time)) ∧
    (∀ s m nBits first last, Checked.search p s m nBits first last = .ok (s.search p m nBits first last)) ∧
    (∀ prev source time, (Checked.kernelModifier v p prev source time).run =
      .ok (v.kernelModifier p prev source time)) ∧
    (∀ prev, (Checked.nextModifier v p prev).run = .ok (v.nextModifier p prev)) ∧
    ∀ tx time, (Checked.coinAge p outputs tx time).run = .ok (tx.coinAge p outputs time) := by
  have hconsistent := Config.consistent_of_parameters h
  have hcoin := Nat.ne_of_gt (toUInt64_pos hconsistent.coin)
  have hcent := Nat.ne_of_gt (toUInt64_pos hconsistent.cent)
  exact ⟨Checked.checkCoinstake_eq hcoin v outputs, Checked.checkKernel_eq hcoin, Checked.search_eq hcoin,
    Checked.kernelModifier_eq v _, Checked.nextModifier_eq v _, Checked.coinAge_eq hcoin hcent outputs⟩

namespace SmallChain

/-- A block at height nine, and one at height three that is linked to it. -/
def disordered : View := .ofPositions #[
  ⟨none, 9, 1600000000, 1, first.hash, ⟨4⟩, 0, 0, .zero⟩,
  ⟨some 0, 3, 1600000060, 1, digest 10, ⟨0⟩, 0, 0, .zero⟩]

/-- An output of the block at height nine. -/
def high : StakeSource := { fresh with block := ⟨first.hash, 9, 1600000000⟩ }

end SmallChain

open SmallChain in
/-- From the tip at height three the depth of the output would go below zero. The block at height nine is not
found there, and no depth is taken. -/
theorem arithmetic_never_faults_disordered :
    Machine.sub 3 9 = .error .belowZero ∧
    (Checked.checkCoinstake disordered (fun _ => .ok (some high)) .regtest 1 (stake 3) 0x207fffff
      1600010800).run = .ok (.error (.rejected (.prevoutNotInChain ⟨digest 1, 0⟩ first.hash))) := by
  obtain ⟨hcheck, -⟩ := arithmetic_never_faults (c := {}) rfl disordered fun _ => .ok (some high)
  refine ⟨rfl, (hcheck 1 (stake 3) _ _).trans (congrArg _ ?_)⟩
  decide +kernel

end StakeChain
