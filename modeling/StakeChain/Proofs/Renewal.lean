import StakeChain.Proofs.KernelModifier
import StakeChain.Proofs.Recompute
import StakeChain.Proofs.Staking
/-!
The modifier of a kernel from version 0.3 to version 0.5. It is settled by the first renewal above the block
of the staked output, and blocks further on only stand above that one: what one block of a branch finds,
every later block of the branch finds again, whatever the index has taken in since.
-/

namespace StakeChain

namespace View

/-- The lowest renewal on a branch. -/
structure FirstRenewal (v : View) (p : Parameters) (prev : Nat) (source : SourceBlock) (b : Position) :
    Prop where
  renewal : v.Renewal p prev source b
  lowest : ∀ c, v.Renewal p prev source c → b.height ≤ c.height

variable {v w : View} {p : Parameters} {prev tip id d : Nat} {source : SourceBlock} {time : UInt32}
  {a b : Position} {m : KernelModifier}

/-- A block behind an indexed one is indexed. -/
theorem exists_position_of_reaches (ha : v.position id = some a)
    (hreach : Relation.ReflTransGen v.Parent id prev) : ∃ b, v.position prev = some b := by
  rcases Relation.ReflTransGen.cases_tail hreach with rfl | ⟨k, -, b, hb, -⟩
  · exact ⟨a, ha⟩
  · exact ⟨b, hb⟩

theorem Linked.firstRenewal_iff (hl : v.Linked) (htip : v.position prev = some a) :
    ((v.branch (some prev)).takeWhile fun c => source.height < c.height).reverse.find?
        (fun c => c.flags.generated && source.time.toNat + p.selectionInterval ≤ c.time.toNat) =
      some b ↔ v.FirstRenewal p prev source b := by
  rw [hl.find?_renewal htip]
  exact ⟨fun ⟨hrenewal, hlowest⟩ => ⟨hrenewal, hlowest⟩, fun ⟨hrenewal, hlowest⟩ => ⟨hrenewal, hlowest⟩⟩

/-- Between the versions the first renewal gives the modifier, if there is one. -/
theorem Linked.kernelModifier_firstRenewal (hl : v.Linked) (htip : v.position prev = some a)
    (hp : 0 < p.modifierInterval) (hbelow : source.height ≤ a.height)
    (h03 : p.inForce .v03 time = true) (h05 : p.inForce .v05 time = false) :
    (∀ m, v.kernelModifier p prev source time = .ok m ↔
      ∃ b, v.FirstRenewal p prev source b ∧ m = .modifier b.stakeModifier) ∧
    (v.kernelModifier p prev source time = .error (.rejected (.modifierNotYetAvailable source.hash)) ↔
      ∀ b, ¬ v.Renewal p prev source b) := by
  rw [hl.kernelModifier_between htip hp hbelow h03 h05, ← hl.find?_renewal_eq_none htip]
  simp only [← hl.firstRenewal_iff htip]
  cases List.find? _ _ with
  | none => simp
  | some b => simp [eq_comm]

/-! ### Further on -/

/-- A block further on, in a view that grew, has on its branch up to `prev` what `prev` has. -/
theorem Extends.reaches_iff (he : v.Extends w) (hv : v.Linked) (hw : w.Linked)
    (htip : v.position prev = some a) :
    (∃ id, Relation.ReflTransGen w.Parent id prev ∧ w.position id = some b) ↔
      ∃ id, Relation.ReflTransGen v.Parent id prev ∧ v.position id = some b := by
  rw [← hw.mem_branch_iff (he.position htip), ← hv.mem_branch_iff htip,
    he.branch_eq hv hw _ (indexed_some.2 ⟨a, htip⟩)]

/-- The first renewal stays the first. -/
theorem FirstRenewal.further (h : v.FirstRenewal p prev source b) (he : v.Extends w) (hv : v.Linked)
    (hw : w.Linked) (htip : v.position prev = some a)
    (hd : Relation.ReflTransGen w.Parent prev d) : w.FirstRenewal p d source b := by
  obtain ⟨⟨hbranch, habove, hgenerated, hlate⟩, hlowest⟩ := h
  obtain ⟨id, hreach, hb⟩ := (he.reaches_iff hv hw htip).2 hbranch
  refine ⟨⟨⟨id, hreach.trans hd, hb⟩, habove, hgenerated, hlate⟩, ?_⟩
  rintro c ⟨⟨k, hk, hc⟩, hcabove, hcgenerated, hclate⟩
  have hupTo : Relation.ReflTransGen w.Parent k prev → b.height ≤ c.height := fun hk =>
    hlowest c ⟨(he.reaches_iff hv hw htip).1 ⟨k, hk, hc⟩, hcabove, hcgenerated, hclate⟩
  -- A renewal further on is either one for `prev` already, or above `prev` and so above all of those.
  rcases comparable hk hd with rfl | hbehind | hahead
  · exact hupTo .refl
  · exact hupTo hbehind.to_reflTransGen
  · calc b.height
        ≤ a.height := hw.height_le (he.position htip) hreach hb
      _ ≤ c.height := hw.height_le hc hahead.to_reflTransGen (he.position htip)

end View

/-- In every index made by insertions, from version 0.3 to version 0.5, the modifier for an output in an
ancestor of `prev` is that of the lowest block above it with a new modifier that is a selection interval or
more later, and is not available yet exactly where there is none. Once there is one it stays the same for
everything that is ever inserted behind `prev`. -/
theorem kernel_modifier_settled {ix later : ChainIndex} (hix : ChainIndex.empty.Grows ix)
    (hlater : ix.Grows later) {p : Parameters} (hp : 0 < p.modifierInterval) {id prev : Nat}
    {a : Position} (ha : ix.view.position id = some a)
    (hreach : Relation.ReflTransGen ix.view.Parent id prev) {time : UInt32}
    (h03 : p.inForce .v03 time = true) (h05 : p.inForce .v05 time = false) :
    let source : SourceBlock := ⟨a.hash, a.height, a.time⟩
    (∀ m, ix.view.kernelModifier p prev source time = .ok m ↔
      ∃ b, ix.view.FirstRenewal p prev source b ∧ m = .modifier b.stakeModifier) ∧
    (ix.view.kernelModifier p prev source time =
        .error (.rejected (.modifierNotYetAvailable a.hash)) ↔
      ∀ b, ¬ ix.view.Renewal p prev source b) ∧
    ∀ m d, ix.view.kernelModifier p prev source time = .ok m →
      Relation.ReflTransGen later.view.Parent prev d →
      later.view.kernelModifier p d source time = .ok m := by
  intro source
  have hsound := hix.sound ChainIndex.sound_empty
  have hv := hsound.linked
  have hw := (hlater.sound hsound).linked
  obtain ⟨tip, htip⟩ := View.exists_position_of_reaches ha hreach
  have hbelow : source.height ≤ tip.height := hv.height_le htip hreach ha
  obtain ⟨hfirst, hnone⟩ := hv.kernelModifier_firstRenewal htip hp hbelow h03 h05
  refine ⟨hfirst, hnone, fun m d hm hd => ?_⟩
  obtain ⟨b, hb, hmodifier⟩ := (hfirst m).1 hm
  have htip' := hlater.extends.position htip
  obtain ⟨tip', hd'⟩ := View.exists_position_of_reaches htip' hd
  have hbelow' : source.height ≤ tip'.height := Nat.le_trans hbelow (hw.height_le hd' hd htip')
  refine ((hw.kernelModifier_firstRenewal hd' hp hbelow' h03 h05).1 m).2 ⟨b, ?_, hmodifier⟩
  exact hb.further hlater.extends hv hw htip hd

namespace SmallChain

/-- A block behind the renewed one. -/
def further : CandidateBlock := { after 16 1600003620 [] with prevHash := some renewed.hash }

end SmallChain

open SmallChain in
/-- The third block renews the modifier for the outputs of the first, and a fourth block finds the same. -/
theorem kernel_modifier_settled_further : ∃ a b,
    (Run.of parameters [first, second, renewed]).state.index.view.FirstRenewal between 2
        ⟨first.hash, 0, first.time⟩ b ∧
      (Run.of parameters [first, second, renewed, further]).state.index.view.position 3 = some a ∧
      (Run.of parameters [first, second, renewed, further]).state.index.view.kernelModifier between 3
        ⟨first.hash, 0, first.time⟩ 1600003680 = .ok (.modifier b.stakeModifier) := by
  have hplaces : (Run.of parameters [first, second, renewed]).state.index.positions.map
      (fun b => (b.prev, b.hash, b.height, b.time)) =
        #[(none, first.hash, 0, first.time), (some 0, second.hash, 1, second.time),
          (some 1, renewed.hash, 2, renewed.time)] := by decide +kernel
  have hlast : ((Run.of parameters [first, second, renewed, further]).state.index.positions[3]?.map
      Position.prev) = some (some 2) := by decide +kernel
  have hready : ((Run.of parameters [first, second, renewed]).state.index.view.kernelModifier between 2
      ⟨first.hash, 0, first.time⟩ 1600003680).isOk = true := by decide +kernel
  obtain ⟨a, ha, hfields⟩ := ChainIndex.exists_of_map hplaces 0 rfl
  obtain ⟨b, hb, hbfields⟩ := ChainIndex.exists_of_map hplaces 1 rfl
  obtain ⟨c, hc, hcfields⟩ := ChainIndex.exists_of_map hplaces 2 rfl
  obtain ⟨d, hd, hdprev⟩ := Option.map_eq_some_iff.1 hlast
  obtain ⟨-, hhash, hheight, htime⟩ : a.prev = none ∧ a.hash = first.hash ∧ a.height = 0 ∧
      a.time = first.time := by simpa using hfields
  have hreach : Relation.ReflTransGen
      (Run.of parameters [first, second, renewed]).state.index.view.Parent 0 2 :=
    .tail (.single ⟨b, hb, congrArg Prod.fst hbfields⟩) ⟨c, hc, congrArg Prod.fst hcfields⟩
  obtain ⟨hfirst, -, hsettled⟩ := kernel_modifier_settled (p := between)
    ((Run.Reached.start (p := parameters)).grows_offers [first, second, renewed])
    ((Run.reached_of parameters [first, second, renewed]).grows_offers [further]) (by decide) ha hreach
    (show between.inForce .v03 1600003680 = true by decide) (by decide)
  rw [hhash, hheight, htime] at hfirst hsettled
  obtain ⟨m, hm⟩ := exists_of_isOk hready
  obtain ⟨e, he, rfl⟩ := (hfirst m).1 hm
  exact ⟨d, e, he, hd, hsettled _ 3 hm (.single ⟨d, hd, hdprev⟩)⟩

end StakeChain
