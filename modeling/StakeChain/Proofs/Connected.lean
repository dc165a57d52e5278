import StakeChain.Proofs.Accept
/-!
One acceptance seen from every tip. The new block is a tip of its own: it sees what its predecessor
saw, moved on by its transactions. Every older tip sees what it saw before, whatever was connected on
its own or on another branch, so every older check gives its old result again.
-/

namespace StakeChain

namespace Flags

@[simp] theorem proofOfStake_ofFacts (a b c : Bool) : (ofFacts a b c).proofOfStake = a := by
  cases a <;> cases b <;> cases c <;> decide

@[simp] theorem entropy_ofFacts (a b c : Bool) : (ofFacts a b c).entropy = b := by
  cases a <;> cases b <;> cases c <;> decide

@[simp] theorem generated_ofFacts (a b c : Bool) : (ofFacts a b c).generated = c := by
  cases a <;> cases b <;> cases c <;> decide

end Flags

/-- The position of a block: it has the block's own fields, and what checking the block derived. -/
structure Position.Shows (a : Position) (c : CandidateBlock) (d : ValidatedBlock) : Prop where
  hash : a.hash = c.hash
  time : a.time = c.time
  version : a.version = c.version
  height : a.height = d.height
  stakeModifier : a.stakeModifier = d.stakeModifier
  checksum : a.checksum = d.checksum
  generated : a.flags.generated = d.generated
  entropy : a.flags.entropy = d.entropy
  proofOfStake : a.flags.proofOfStake = d.proof.isSome
  proofHash : a.proofHash = d.proof.getD .zero

namespace ChainState

variable {s s' : ChainState} {b : CandidateBlock} {tip prev : Option Nat} {position : Position}
  {derived : ValidatedBlock}

/-- What every state keeps: a sound index, ids of the store and of the coinstakes that name blocks of
the index, and a modifier generated by the first block. -/
structure Sound (s : ChainState) : Prop where
  index : s.index.Sound
  below : s.outputs.Below s.index.size
  generated : ∀ {id b}, s.index.view.position id = some b → b.prev = none →
    b.flags.generated = true
  stored : ∀ c ∈ s.coinstakes, c.id < s.index.size

theorem sound_empty (p : Parameters) : (empty p).Sound where
  index := ChainIndex.sound_empty
  below e he := by simp [empty, OutputStore.empty] at he
  generated hb := by simp [empty, ChainIndex.empty, ChainIndex.view, View.ofPositions] at hb
  stored c hc := by simp [empty] at hc

theorem Sound.linked (hs : s.Sound) : s.index.view.Linked := hs.index.linked

/-- On every branch some block has generated a modifier: the first one. -/
theorem Sound.exists_generated (hs : s.Sound) {id : Nat} (hid : ∃ b, s.index.view.position id = some b) :
    ∃ b ∈ s.index.view.branch (some id), b.flags.generated = true := by
  have all : ∀ tip, s.index.view.Indexed tip → tip.isSome →
      ∃ b ∈ s.index.view.branch tip, b.flags.generated = true := by
    refine hs.linked.tip_induction (by simp) ?_
    intro id b hb ih _
    rw [hs.linked.branch_some hb]
    cases hprev : b.prev with
    | none => exact ⟨b, List.mem_cons_self, hs.generated hb hprev⟩
    | some prev =>
      obtain ⟨c, hc, hgen⟩ := ih (by simp [hprev])
      exact ⟨c, List.mem_cons_of_mem _ (hprev ▸ hc), hgen⟩
  exact all (some id) (View.indexed_some.2 hid) rfl

/-! ### States that grew -/

/-- A later state: it has the older positions and shows older tips the same outputs. -/
structure Extends (s s' : ChainState) : Prop where
  parameters : s.parameters = s'.parameters
  positions : s.index.view.Extends s'.index.view
  live : ∀ tip, s.index.view.Indexed tip → s'.live tip = s.live tip

theorem Extends.refl (s : ChainState) : s.Extends s := ⟨rfl, ⟨fun h => h⟩, fun _ _ => rfl⟩

theorem Extends.trans {s'' : ChainState} (h : s.Extends s') (h' : s'.Extends s'') :
    s.Extends s'' where
  parameters := h.parameters.trans h'.parameters
  positions := ⟨fun hb => h'.positions.position (h.positions.position hb)⟩
  live tip htip := (h'.live tip (h.positions.indexed htip)).trans (h.live tip htip)

theorem Extends.agree (he : s.Extends s') (hs : s.Sound) (hs' : s'.Sound)
    (htip : s.index.view.Indexed tip) : s.Agree s' tip tip := by
  cases tip with
  | none => exact .root he.parameters
  | some id =>
    obtain ⟨b, hb⟩ := View.indexed_some.1 htip
    refine .behind he.parameters ⟨hs.linked, hs'.linked, ⟨b, hb⟩, ⟨b, he.positions.position hb⟩, ?_⟩
      (hs.exists_generated ⟨b, hb⟩) (he.live _ htip).symm
    rw [he.positions.branch_eq hs.linked hs'.linked _ htip]

/-- A check behind an older tip gives the same position later. -/
theorem Extends.evaluateAfter (he : s.Extends s') (hs : s.Sound) (hs' : s'.Sound)
    (htip : s.index.view.Indexed tip) (h : s.evaluateAfter b tip = .ok (position, derived)) :
    s'.evaluateAfter b tip = .ok (position, derived) := by
  have hprev : position.prev = tip := by
    rw [(evaluateAfter_eq_ok h).position]
    rfl
  rw [(he.agree hs hs' htip).evaluateAfter, h]
  simp [Except.map, ← hprev]

/-! ### One acceptance -/

theorem grown_connected : Grown s.index.size ⟨position.hash, position.height, position.time⟩
    s.outputs.entries.toList (s.connected b position).outputs.entries.toList :=
  OutputStore.grown_connect

theorem Evaluated.sound (he : s.Evaluated b prev position derived) (hs : s.Sound)
    (hprev : s.predecessor b = .ok prev) : (s.connected b position).Sound where
  index := hs.index.push (he.checkInsert hs.linked hprev)
  below := by
    rw [connected, ChainIndex.size_push]
    exact hs.below.grown grown_connected
  generated := by
    intro id c hc
    refine ChainIndex.forall_push (P := fun _ c => c.prev = none → c.flags.generated = true)
      (fun hnone => ?_) (fun _ _ hc => hs.generated hc) id c hc
    have hnext := he.next
    rw [he.position] at hnone ⊢
    obtain rfl : prev = none := hnone
    simp only [View.nextModifier, Except.ok.injEq, NextModifier.mk.injEq] at hnext
    simp [CandidateBlock.unsummed, ← hnext.2]
  stored := by
    intro c hc
    rw [connected, ChainIndex.size_push]
    rcases List.mem_append.1 hc with hc | hc
    · have := hs.stored c hc
      omega
    · cases hstake : b.coinstake? with
      | none => simp [hstake] at hc
      | some tx =>
        obtain rfl : c = ⟨s.index.size, tx, b.nBits⟩ := by simpa [hstake] using hc
        exact Nat.lt_succ_self _

theorem Evaluated.shows (he : s.Evaluated b prev position derived) : position.Shows b derived := by
  rw [he.position]
  refine ⟨rfl, rfl, rfl, rfl, rfl, rfl, ?_, ?_, ?_, rfl⟩
  · exact Flags.generated_ofFacts _ _ _
  · exact Flags.entropy_ofFacts _ _ _
  · exact Flags.proofOfStake_ofFacts _ _ _

theorem Evaluated.position_prev (he : s.Evaluated b prev position derived) :
    position.prev = prev := by
  rw [he.position]
  rfl

section Step

variable (he : s.Evaluated b prev position derived) (hs : s.Sound)
  (hprev : s.predecessor b = .ok prev)

include he hs hprev

theorem Evaluated.linked_push : (s.index.push position).view.Linked :=
  (he.sound hs hprev).linked

/-- From an older tip the new block is not seen. -/
theorem Evaluated.onBranch_old {x : Nat} (htip : s.index.view.Indexed tip) :
    (s.index.push position).view.onBranch x tip = s.index.view.onBranch x tip :=
  ChainIndex.extends_push.onBranch_eq hs.linked (he.linked_push hs hprev) tip htip

/-- The new id has no position in the old view, so it is on no old branch. -/
theorem Evaluated.onBranch_size (htip : s.index.view.Indexed tip) :
    (s.index.push position).view.onBranch s.index.size tip = false := by
  refine (he.onBranch_old hs hprev htip).trans (Bool.eq_false_iff.2 fun hon => ?_)
  obtain ⟨c, hc, -⟩ := (hs.linked.onBranch_iff_mem tip htip).1 hon
  simp [ChainIndex.position_size] at hc

/-- From its own tip the new block is seen, on top of what its predecessor sees. -/
theorem Evaluated.onBranch_new {x : Nat} :
    (s.index.push position).view.onBranch x (some s.index.size) =
      (x == s.index.size || s.index.view.onBranch x prev) := by
  have hix := predecessor_indexed hs.linked hprev
  rw [(he.linked_push hs hprev).onBranch_some ChainIndex.position_push_size, he.position_prev,
    he.onBranch_old hs hprev hix]

theorem Evaluated.extends_connected : s.Extends (s.connected b position) where
  parameters := rfl
  positions := ChainIndex.extends_push
  live tip htip := by
    exact OutputStore.live_grown hs.below (he.onBranch_size hs hprev htip)
      (fun x _ => he.onBranch_old hs hprev htip) grown_connected

/-- Before its transactions the new tip sees what its predecessor sees. -/
theorem Evaluated.liveAt_before {e : OutputEntry} (hmem : e ∈ s.outputs.entries.toList) :
    e.liveAt (s.index.push position).view (some s.index.size) = e.liveAt s.index.view prev := by
  obtain ⟨hcreator, hspenders⟩ := hs.below e hmem
  have old : ∀ x, x < s.index.size →
      (s.index.push position).view.onBranch x (some s.index.size) = s.index.view.onBranch x prev := by
    intro x hx
    have hne : (x == s.index.size) = false := by simpa using Nat.ne_of_lt hx
    rw [he.onBranch_new hs hprev, hne, Bool.false_or]
  rw [Bool.eq_iff_iff, OutputEntry.liveAt_iff, OutputEntry.liveAt_iff, old _ hcreator]
  refine and_congr_right fun _ => forall₂_congr fun x hx => ?_
  rw [old x (hspenders x hx)]

theorem Evaluated.onBranch_self :
    (s.index.push position).view.onBranch s.index.size (some s.index.size) = true := by
  rw [he.onBranch_new hs hprev]
  simp

theorem Evaluated.live_before :
    s.outputs.live (s.index.push position).view (some s.index.size) = s.live prev :=
  OutputStore.live_congr fun _ hmem => he.liveAt_before hs hprev hmem

/-- The new tip sees what its predecessor saw, moved on by the block's transactions. -/
theorem Evaluated.live_connected : (s.connected b position).live (some s.index.size) =
    (s.live prev).connect ⟨position.hash, position.height, position.time⟩ b.transactions := by
  rw [live, connected, OutputStore.live_connect (he.onBranch_self hs hprev), he.live_before hs hprev]

end Step

end ChainState

end StakeChain
