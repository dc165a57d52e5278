import StakeChain.Proofs.Run
/-!
Modifiers and checksums are settled for good. What a position records was derived behind its
predecessor when its block was accepted; the same rules, run on the index of today, derive it again,
however the index has grown and forked since. A checksum pinned to a height is that of every position
at the height.
-/

namespace StakeChain

/-- A checkpoint is kept when the checksum is the one pinned to the height, if there is one. -/
theorem Parameters.enforceCheckpoint_eq_ok {p : Parameters} {height : Nat} {checksum : UInt32} :
    p.enforceCheckpoint height checksum = .ok () ↔
      ∀ pinned, p.checkpoints.get? height = some pinned → checksum = pinned := by
  unfold enforceCheckpoint
  cases hget : p.checkpoints.get? height with
  | none => simp
  | some expected =>
    by_cases heq : expected = checksum
    · simp [heq]
    · simp [heq, Ne.symm heq]

/-- The checksum of a position does not depend on the one stored in it. -/
theorem View.checksumOf_set (v : View) (b : Position) (checksum : UInt32) :
    v.checksumOf { b with checksum := checksum } = v.checksumOf b := rfl

namespace Run

variable {p : Parameters} {r : Run} {id : Nat} {b : Position} {c : CandidateBlock}
  {d : ValidatedBlock}

namespace Records

variable (h : r.Records id b c d)

include h

/-- Behind its predecessor the position's modifier is due again. -/
theorem nextModifier : r.state.index.view.nextModifier r.state.parameters b.prev =
    .ok ⟨b.stakeModifier, b.flags.generated⟩ := by
  rw [h.shows.stakeModifier, h.shows.generated]
  exact h.derives.next

/-- The final fields of the position chain to the checksum that it stores. -/
theorem checksumOf : r.state.index.view.checksumOf b = .ok b.checksum := by
  rw [← View.checksumOf_set _ b 0, h.shows.checksum]
  exact h.derives.checksum

theorem checkpoint {pinned : UInt32}
    (hpinned : r.state.parameters.checkpoints.get? b.height = some pinned) : b.checksum = pinned := by
  have hkept := h.derives.checkpoint
  rw [← h.height, ← h.shows.checksum] at hkept
  exact Parameters.enforceCheckpoint_eq_ok.1 hkept pinned hpinned

end Records

end Run

/-- A position stays as it is through any later offers, and on the index that they leave its modifier
and its flag, its checksum and the checkpoint at its height are what the rules give behind its
predecessor. -/
theorem modifiers_recomputed (p : Parameters) (offers later : List CandidateBlock) {id : Nat}
    {b : Position} (hb : (Run.of p offers).state.index.position? id = some b) :
    let index := (Run.of p (offers ++ later)).state.index
    index.position? id = some b ∧
      index.view.nextModifier p b.prev = .ok ⟨b.stakeModifier, b.flags.generated⟩ ∧
      index.view.checksumOf b = .ok b.checksum ∧
      ∀ pinned, p.checkpoints.get? b.height = some pinned → b.checksum = pinned := by
  intro index
  have hr := Run.reached_of p (offers ++ later)
  have hkept : index.position? id = some b := by
    have hext := (Run.reached_of p offers).extends_offers later
    rw [← Run.of_append] at hext
    exact hext.positions.position hb
  obtain ⟨c, d, h⟩ := hr.faithful.records hkept
  have hmodifier := h.nextModifier
  rw [hr.parameters] at hmodifier
  refine ⟨hkept, hmodifier, h.checksumOf, fun pinned hpinned => ?_⟩
  exact h.checkpoint (by rw [hr.parameters]; exact hpinned)

namespace SmallChain

/-- A block many modifier intervals after the first. -/
def second : CandidateBlock := after 15 1600003500 []

/-- The block after it, at which a new modifier is drawn. -/
def renewed : CandidateBlock := { after 13 1600003560 [] with prevHash := some second.hash }

/-- The small chain's parameters with the checksum of the renewed block pinned. -/
def pinned : Parameters := { parameters with checkpoints := .ofList [(2, 0x63d50f15)] }

end SmallChain

open SmallChain in
/-- The modifier drawn for a block is drawn again after other branches have grown, and the block has
the checksum that is pinned to its height. -/
theorem modifiers_recomputed_renewed : ∃ b,
    (Run.of pinned [first, second, renewed]).state.index.position? 2 = some b ∧
      b.flags.generated = true ∧ b.checksum = 0x63d50f15 ∧
      (Run.of pinned [first, second, renewed, plain, staked]).state.index.view.nextModifier pinned
        b.prev = .ok ⟨b.stakeModifier, true⟩ := by
  have hrenewed : ((Run.of pinned [first, second, renewed]).state.index.position? 2).any
      (fun b => b.flags.generated && b.height == 2) = true := by decide +kernel
  obtain ⟨b, hb, hfacts⟩ := (Option.any_eq_true _ _).1 hrenewed
  obtain ⟨hgenerated, hheight⟩ := Bool.and_eq_true_iff.1 hfacts
  obtain ⟨-, hmodifier, -, hpinned⟩ :=
    modifiers_recomputed pinned [first, second, renewed] [plain, staked] hb
  rw [hgenerated] at hmodifier
  refine ⟨b, hb, hgenerated, hpinned _ ?_, hmodifier⟩
  rw [eq_of_beq hheight]
  decide

end StakeChain
