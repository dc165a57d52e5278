import StakeChain.Proofs.Run
/-!
The gates of the stake check, and what a verdict tells of them. A verdict on times comes only after the
source was found on the branch, and a verdict on the kernel only after the coinstake's time was found to
fit its block and the source to be deep enough. The age of the source is looked at last: between version
0.3 and version 0.5 the walk for the modifier comes before it, so a source that is too young may get a
verdict on the kernel.
-/

namespace StakeChain

/-! ### The rules of the gates -/

/-- A coinstake's kernel is an output of the view, and the block that holds it is on the branch that ends
at `prev`. -/
structure View.Stakes (v : View) (outputs : OutputView) (prev : Nat) (tx : Transaction)
    (source : StakeSource) : Prop where
  kernel : ∃ o, tx.kernelInput? = some o ∧ outputs o = .ok (some source)
  block : ∃ id b, Relation.ReflTransGen v.Parent id prev ∧ v.position id = some b ∧
    b.height = source.block.height ∧ b.hash = source.block.hash

/-- The time of a coinstake fits that of its block, each rule in its versions of the protocol. -/
structure Parameters.Fits (p : Parameters) (blockTime time : UInt32) : Prop where
  grid : p.inForce .v09 time = true → time &&& p.stakeTimeMask = 0
  equal : p.inForce .v03 time = true → blockTime = time
  drift : p.inForce .v03 time = false → time ≤ blockTime ∧
    blockTime.toNat ≤ time.toNat + p.maxClockDrift.toNat

/-- The time of a coinstake fits that of its block, and its source is deep enough below `prev`. -/
structure View.Timely (v : View) (p : Parameters) (prev : Nat) (source : StakeSource)
    (blockTime time : UInt32) : Prop where
  time : p.Fits blockTime time
  depth : ∃ tip, v.position prev = some tip ∧
    p.stakeMinDepth.toNat - 1 ≤ tip.height - source.block.height

/-- A source may stake at a time that is not before its transaction and that gives it the minimum age. -/
structure StakeSource.Mature (source : StakeSource) (p : Parameters) (time : UInt32) : Prop where
  notBefore : source.effectiveTime ≤ time
  age : source.block.time.toNat + p.stakeMinAge.toNat ≤ time.toNat

variable {v : View} {outputs : OutputView} {p : Parameters} {prev id height steps : Nat}
  {tx : Transaction} {nBits blockTime time : UInt32} {source : StakeSource} {block : SourceBlock}
  {r : Rejection} {o : OutPoint} {m : KernelModifier}

/-! ### Structure -/

theorem OutputView.source_eq_ok : outputs.source o = .ok source ↔ outputs o = .ok (some source) := by
  cases hout : outputs o with
  | error e => simp [OutputView.source, hout, bind, Except.bind]
  | ok found =>
    cases found <;> simp [OutputView.source, hout, bind, Except.bind, pure_eq_ok, throw, throwThe,
      MonadExceptOf.throw]

theorem OutputView.source_eq_error {e : ConsensusError} : outputs.source o = .error e ↔
    outputs o = .error e ∨ outputs o = .ok none ∧ .rejected (.prevoutNotFound o) = e := by
  cases hout : outputs o with
  | error e => simp [OutputView.source, hout, bind, Except.bind]
  | ok found =>
    cases found <;> simp [OutputView.source, hout, bind, Except.bind, pure_ne_error, throw_eq_error]

namespace View

/-- The walk down to a height follows links, and ends at a position of that height. -/
theorem ancestorWithin_reaches (h : v.ancestorWithin height steps prev = some id) :
    Relation.ReflTransGen v.Parent id prev ∧ ∃ b, v.position id = some b ∧ b.height = height := by
  induction steps generalizing prev with
  | zero => simp [ancestorWithin] at h
  | succ steps ih =>
    rw [ancestorWithin, Option.bind_eq_some_iff] at h
    obtain ⟨b, hb, h⟩ := h
    split at h
    · rename_i hheight
      obtain rfl := Option.some.inj h
      exact ⟨.refl, b, hb, hheight⟩
    · split at h
      · simp at h
      · obtain ⟨x, hx, h⟩ := Option.bind_eq_some_iff.1 h
        obtain ⟨hreach, hat⟩ := ih h
        exact ⟨hreach.tail ⟨b, hb, hx⟩, hat⟩

/-- The position at a height on a branch is not above the tip, whatever the links and heights of the view. -/
theorem height_le_of_ancestor (h : v.ancestor prev height = some id) :
    ∃ tip, v.position prev = some tip ∧ height ≤ tip.height := by
  rw [ancestor, ancestorWithin, Option.bind_eq_some_iff] at h
  obtain ⟨tip, htip, h⟩ := h
  refine ⟨tip, htip, Nat.le_of_not_lt fun hlow => ?_⟩
  rw [if_neg (Nat.ne_of_lt hlow), if_pos hlow] at h
  simp at h

/-- A source is given out when its block is found at its height on the branch. -/
theorem kernelSource_ancestor (h : v.kernelSource outputs prev tx = .ok source) :
    (∃ o, tx.kernelInput? = some o ∧ outputs o = .ok (some source)) ∧
      ∃ id b, v.ancestor prev source.block.height = some id ∧ v.position id = some b ∧
        b.hash = source.block.hash := by
  unfold kernelSource at h
  split at h
  · simp [throw, throwThe, MonadExceptOf.throw] at h
  · rename_i o ho
    simp only [bind_eq_ok, guard_eq_ok, pure_eq_ok, OutputView.source_eq_ok] at h
    obtain ⟨_, hout, hfound, rfl⟩ := h
    rw [bne_iff_ne, not_not] at hfound
    obtain ⟨b, hb, hash⟩ := Option.map_eq_some_iff.1 hfound
    obtain ⟨id, hid, hb⟩ := Option.bind_eq_some_iff.1 hb
    exact ⟨⟨o, ho, hout⟩, id, b, hid, hb, hash⟩

theorem kernelSource_stakes (h : v.kernelSource outputs prev tx = .ok source) :
    v.Stakes outputs prev tx source := by
  obtain ⟨hspent, id, b, hid, hb, hash⟩ := kernelSource_ancestor h
  obtain ⟨hreach, b', hb', hheight⟩ := ancestorWithin_reaches hid
  obtain rfl : b = b' := by simpa [hb] using hb'
  exact ⟨hspent, id, b, hreach, hb, hheight, hash⟩

/-- A verdict on the source is structural, unless the output view itself gives it. -/
theorem kernelSource_rejected (h : v.kernelSource outputs prev tx = .error (.rejected r)) :
    r.kind = .structural ∨ ∃ o, tx.kernelInput? = some o ∧ outputs o = .error (.rejected r) := by
  unfold kernelSource at h
  split at h
  · rw [throw_eq_error, ConsensusError.rejected.injEq] at h
    exact Or.inl (h ▸ rfl)
  · rename_i o ho
    simp only [bind_eq_error, guard_eq_error, pure_ne_error, OutputView.source_eq_error,
      ConsensusError.rejected.injEq, and_false, or_false] at h
    rcases h with (herror | ⟨-, rfl⟩) | ⟨source, -, -, rfl⟩
    · exact Or.inr ⟨o, ho, herror⟩
    · exact Or.inl rfl
    · exact Or.inl rfl

end View

/-! ### Times -/

theorem Parameters.checkCoinstakeTime_eq_ok :
    p.checkCoinstakeTime blockTime time = .ok () ↔ p.Fits blockTime time := by
  unfold checkCoinstakeTime
  constructor
  · intro h
    split at h
    · simp at h
    · rename_i hgrid
      dsimp only at h
      refine ⟨fun h09 => ?_, fun h03 => ?_, fun h03 => ?_⟩
      · simpa [h09] using hgrid
      · simpa [h03] using h
      · simpa [h03] using h
  · rintro ⟨hgrid, hequal, hdrift⟩
    rw [if_neg (by simpa using hgrid)]
    cases h03 : p.inForce .v03 time with
    | true => simp [hequal h03]
    | false => simp [hdrift h03]

theorem Parameters.checkCoinstakeTime_rejected
    (h : p.checkCoinstakeTime blockTime time = .error r) :
    r.kind = .timestamp ∧ ¬ p.Fits blockTime time := by
  refine ⟨?_, fun hfits => ?_⟩
  · simp only [checkCoinstakeTime] at h
    split at h
    · exact Except.error.inj h ▸ rfl
    · generalize (if p.inForce .v03 time = true then _ else _ : Bool) = fits at h
      cases fits with
      | true => simp at h
      | false => exact Except.error.inj h ▸ rfl
  · rw [checkCoinstakeTime_eq_ok.2 hfits] at h
    simp at h

namespace StakeSource

theorem checkTimes_eq_ok : source.checkTimes p time = .ok () ↔ source.Mature p time := by
  constructor
  · intro h
    unfold checkTimes at h
    split at h
    · simp at h
    · rename_i hearly
      split at h
      · simp at h
      · rename_i hyoung
        exact ⟨UInt32.not_lt.1 hearly, Nat.not_lt.1 hyoung⟩
  · rintro ⟨hnotBefore, hage⟩
    rw [checkTimes, if_neg (UInt32.not_lt.2 hnotBefore), if_neg (Nat.not_lt.2 hage)]

theorem checkTimes_rejected (h : source.checkTimes p time = .error r) :
    r.kind = .timestamp ∧ ¬ source.Mature p time := by
  refine ⟨?_, fun hmature => ?_⟩
  · unfold checkTimes at h
    split at h
    · exact Except.error.inj h ▸ rfl
    · split at h
      · exact Except.error.inj h ▸ rfl
      · simp at h
  · rw [checkTimes_eq_ok.2 hmature] at h
    simp at h

/-! ### Kernel -/

/-- A kernel passes when its source is mature and its hash meets the target. -/
theorem checkKernel_eq_ok {proof : Hash} : source.checkKernel p m nBits time = .ok proof ↔
    source.Mature p time ∧ proof = source.kernelHash m nBits time ∧
      proof.toNat ≤ p.weightedTarget nBits source.output.value source.effectiveTime time := by
  simp only [checkKernel, bind_eq_ok, guard_eq_ok, pure_eq_ok, Nat.not_lt]
  constructor
  · rintro ⟨⟨⟩, htimes, htarget, rfl⟩
    exact ⟨checkTimes_eq_ok.1 htimes, rfl, htarget⟩
  · rintro ⟨hmature, rfl, htarget⟩
    exact ⟨(), checkTimes_eq_ok.2 hmature, htarget, rfl⟩

/-- A kernel's verdict is on its times as long as they break a rule, and on the kernel after that. -/
theorem checkKernel_rejected (h : source.checkKernel p m nBits time = .error r) :
    r.kind = .timestamp ∧ ¬ source.Mature p time ∨ r.kind = .kernel ∧ source.Mature p time := by
  simp only [checkKernel, bind_eq_error, guard_eq_error, pure_ne_error, and_false, or_false] at h
  rcases h with htimes | ⟨⟨⟩, htimes, -, rfl⟩
  · exact Or.inl (checkTimes_rejected htimes)
  · exact Or.inr ⟨rfl, checkTimes_eq_ok.1 htimes⟩

end StakeSource

theorem Trail.takeWhile_fails {t : Trail} {q : Position → Bool} :
    FailsOnly (·.isRejection = false) (t.takeWhile q) := by
  unfold takeWhile ended
  refine .ite (fun _ => ?_) fun _ => .ok
  cases t.lost with
  | some id => exact .error rfl
  | none => exact .ok

namespace View

theorem resolve_fails : FailsOnly (·.isRejection = false) (v.resolve id) := by
  unfold resolve
  cases v.position id with
  | some b => exact .ok
  | none => exact .error rfl

/-- The only verdict on a modifier is that it is not there yet, between version 0.3 and version 0.5. -/
theorem kernelModifier_rejected (h : v.kernelModifier p prev block time = .error (.rejected r)) :
    p.inForce .v03 time = true ∧ p.inForce .v05 time = false ∧
      r = .modifierNotYetAvailable block.hash := by
  let Early (e : ConsensusError) : Prop := ∀ r, e = .rejected r → p.inForce .v03 time = true ∧
    p.inForce .v05 time = false ∧ r = .modifierNotYetAvailable block.hash
  -- Whatever else goes wrong on the walk is damage to the view.
  have damage : ∀ e : ConsensusError, e.isRejection = false → Early e := by
    rintro _ hdamage r rfl
    simp [ConsensusError.isRejection] at hdamage
  suffices FailsOnly Early (v.kernelModifier p prev block time) from this _ h r rfl
  unfold kernelModifier
  refine .ite (fun _ => .ok) fun h03 => ?_
  refine (resolve_fails.mono damage).bind fun tip _ => ?_
  refine .ite (fun _ => .ok) fun h05 => ?_
  refine .guard (fun _ => damage _ rfl) fun _ => ?_
  refine (Trail.takeWhile_fails.mono damage).bind fun segment _ => ?_
  dsimp only
  split
  · refine .error ?_
    rintro _ ⟨⟩
    exact ⟨by simpa using h03, by simpa using h05, rfl⟩
  · exact .ok
  · split
    · exact .error (damage _ rfl)
    · exact (resolve_fails.mono damage).bind fun _ _ => .ok

/-- A coinstake passes when its source is found, its time fits its block, the source is deep enough and
its kernel passes. -/
theorem checkCoinstake_eq_ok {proof : Hash} :
    v.checkCoinstake outputs p prev tx nBits blockTime = .ok proof ↔
      ∃ source m, v.kernelSource outputs prev tx = .ok source ∧
        v.Timely p prev source blockTime (tx.time.getD blockTime) ∧
        v.kernelModifier p prev source.block (tx.time.getD blockTime) = .ok m ∧
        source.checkKernel p m nBits (tx.time.getD blockTime) = .ok proof := by
  simp only [checkCoinstake, bind_eq_ok, mapError_eq_ok, guard_eq_ok, resolve_eq_ok, Nat.not_lt]
  constructor
  · rintro ⟨source, hsource, ⟨⟩, htime, tip, htip, hdepth, m, hm, hkernel⟩
    have hfits := Parameters.checkCoinstakeTime_eq_ok.1 htime
    exact ⟨source, m, hsource, ⟨hfits, tip, htip, hdepth⟩, hm, hkernel⟩
  · rintro ⟨source, m, hsource, ⟨hfits, tip, htip, hdepth⟩, hm, hkernel⟩
    have htime := Parameters.checkCoinstakeTime_eq_ok.2 hfits
    exact ⟨source, hsource, (), htime, tip, htip, hdepth, m, hm, hkernel⟩

end View

/-- In every view, where a verdict of the stake check is not one that the output view gave, it tells which
gates were passed. When it is on times, the kernel is an output on the branch, and some rule on times is
broken. When it is on the kernel, the coinstake's time fits its block and the source is deep enough; the
source is also mature, unless the modifier was missing, which can be between version 0.3 and version 0.5. -/
theorem gates_passed (v : View) (outputs : OutputView) (p : Parameters) (prev : Nat) (tx : Transaction)
    (nBits blockTime : UInt32) (r : Rejection)
    (hrefused : v.checkCoinstake outputs p prev tx nBits blockTime = .error (.rejected r)) :
    let time := tx.time.getD blockTime
    (∃ o, tx.kernelInput? = some o ∧ outputs o = .error (.rejected r)) ∨
    (r.kind = .timestamp → ∃ source, v.Stakes outputs prev tx source ∧
      ¬ (v.Timely p prev source blockTime time ∧ source.Mature p time)) ∧
    (r.kind = .kernel → ∃ source, v.Stakes outputs prev tx source ∧
      v.Timely p prev source blockTime time ∧
      (source.Mature p time ∨ p.inForce .v03 time = true ∧ p.inForce .v05 time = false ∧
        r = .modifierNotYetAvailable source.block.hash)) := by
  intro time
  simp only [View.checkCoinstake, bind_eq_error, guard_eq_error, mapError_eq_error, mapError_eq_ok,
    ConsensusError.rejected.injEq, exists_eq_right] at hrefused
  rcases hrefused with hsource | ⟨source, hsource, hrefused⟩
  · rcases View.kernelSource_rejected hsource with hkind | hview
    · exact Or.inr ⟨by simp [hkind], by simp [hkind]⟩
    · exact Or.inl hview
  have hstakes := View.kernelSource_stakes hsource
  right
  rcases hrefused with htime | ⟨⟨⟩, htime, hrefused⟩
  · obtain ⟨hkind, hbroken⟩ := Parameters.checkCoinstakeTime_rejected htime
    exact ⟨fun _ => ⟨source, hstakes, fun h => hbroken h.1.time⟩, by simp [hkind]⟩
  rcases hrefused with hdamage | ⟨tip, htip, hrefused⟩
  · simpa [ConsensusError.isRejection] using View.resolve_fails _ hdamage
  have htip := View.resolve_eq_ok.1 htip
  rcases hrefused with ⟨hshallow, rfl⟩ | ⟨hdeep, hrefused⟩
  · refine ⟨fun _ => ⟨source, hstakes, fun h => ?_⟩, by simp [Rejection.kind]⟩
    obtain ⟨tip', htip', hdepth⟩ := h.1.depth
    obtain rfl : tip = tip' := by simpa [htip] using htip'
    omega
  have htimely : v.Timely p prev source blockTime time :=
    ⟨Parameters.checkCoinstakeTime_eq_ok.1 htime, tip, htip, Nat.not_lt.1 hdeep⟩
  rcases hrefused with hmodifier | ⟨m, hm, hkernel⟩
  · obtain ⟨h03, h05, rfl⟩ := View.kernelModifier_rejected hmodifier
    exact ⟨by simp [Rejection.kind], fun _ => ⟨source, hstakes, htimely, Or.inr ⟨h03, h05, rfl⟩⟩⟩
  · rcases StakeSource.checkKernel_rejected hkernel with ⟨hkind, hyoung⟩ | ⟨hkind, hmature⟩
    · exact ⟨fun _ => ⟨source, hstakes, fun h => hyoung h.2⟩, by simp [hkind]⟩
    · exact ⟨by simp [hkind], fun _ => ⟨source, hstakes, htimely, Or.inl hmature⟩⟩

namespace SmallChain

/-- Regression testing as it was between version 0.3 and version 0.5, without a rule on depth. -/
def between : Parameters := { Parameters.regtest with
  switches := ⟨0, 0, 4000000000, 4000000000, 4000000000, 4000000000, 4000000000, 4000000000, 4000000000⟩
  stakeMinDepth := 1 }

/-- A view of the first block alone. -/
def sole : View := .ofPositions #[⟨none, 0, 1600000000, 1, first.hash, ⟨4⟩, 0, 0, .zero⟩]

/-- The output of the first block. -/
def fresh : StakeSource where
  outpoint := ⟨digest 1, 0⟩
  output := ⟨1000000000000, [1]⟩
  txTime := none
  block := ⟨first.hash, 0, 1600000000⟩
  txOffset := 81

theorem young_refused : sole.checkCoinstake (fun _ => .ok (some fresh)) between 0 (stake 3) 0x207fffff
    1600000016 = .error (.rejected (.modifierNotYetAvailable first.hash)) := by decide +kernel

theorem fresh_young : ¬ fresh.Mature between 1600000016 := fun h => absurd h.age (by decide)

end SmallChain

open SmallChain in
/-- A source of sixteen seconds, staked between version 0.3 and version 0.5, gets a verdict on the
kernel. -/
theorem gates_passed_young :
    sole.checkCoinstake (fun _ => .ok (some fresh)) between 0 (stake 3) 0x207fffff 1600000016 =
      .error (.rejected (.modifierNotYetAvailable first.hash)) ∧
    ¬ fresh.Mature between 1600000016 ∧
    ∃ source, sole.Stakes (fun _ => .ok (some fresh)) 0 (stake 3) source ∧
      sole.Timely between 0 source 1600000016 1600000016 := by
  rcases gates_passed _ _ _ _ _ _ _ _ young_refused with ⟨o, -, hview⟩ | ⟨-, hkernel⟩
  · simp at hview
  · obtain ⟨source, hstakes, htimely, -⟩ := hkernel rfl
    exact ⟨young_refused, fresh_young, source, hstakes, htimely⟩

open SmallChain in
/-- A verdict on the kernel does not tell that every rule on times holds. -/
theorem kernel_verdict_before_age :
    ¬ (∀ (v : View) (outputs : OutputView) (p : Parameters) (prev : Nat) (tx : Transaction)
      (nBits blockTime : UInt32) (r : Rejection),
      v.checkCoinstake outputs p prev tx nBits blockTime = .error (.rejected r) →
      (r.kind = .timestamp ∨ r.kind = .kernel → ∃ source, v.Stakes outputs prev tx source) ∧
      (r.kind = .kernel → ∃ source, v.Stakes outputs prev tx source ∧
        v.Timely p prev source blockTime (tx.time.getD blockTime) ∧
        source.Mature p (tx.time.getD blockTime))) := by
  intro hpassed
  obtain ⟨source, hstakes, -, hmature⟩ := (hpassed _ _ _ _ _ _ _ _ young_refused).2 rfl
  obtain ⟨o, -, hsource⟩ := hstakes.kernel
  obtain rfl : fresh = source := by simpa using hsource
  exact fresh_young hmature

end StakeChain
