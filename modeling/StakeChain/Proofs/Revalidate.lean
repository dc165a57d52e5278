import StakeChain.Proofs.Run
/-!
Accepted proofs stay valid. The check of an accepted block's coinstake runs against the state of
today; whatever was accepted since, it finds what the block's acceptance found, and gives the proof
that was recorded then.
-/

namespace StakeChain

namespace Run

variable {p : Parameters} {r : Run} {id : Nat} {b : Position} {c : CandidateBlock}
  {d : ValidatedBlock}

/-- Checking an accepted block again gives the proof that it recorded, or none where it has none. -/
theorem Records.revalidate (h : r.Records id b c d) : r.state.revalidate id = .ok d.proof := by
  have hfound : r.state.index.position? id = some b := h.found
  cases htx : c.coinstake? with
  | none =>
    have hnone : r.state.coinstakes.find? (·.id == id) = none := by
      rw [h.coinstake, htx, Option.map_none]
    simp only [ChainState.revalidate, hfound, hnone, h.derives.proof_none htx]
    rfl
  | some tx =>
    obtain ⟨prev, proof, hprev, hsome, hcheck⟩ := h.derives.checkCoinstake htx
    have hstored : r.state.coinstakes.find? (·.id == id) = some ⟨id, tx, c.nBits⟩ := by
      rw [h.coinstake, htx, Option.map_some]
    have hsame : proof = b.proofHash := by rw [h.proofHash, hsome, Option.getD_some]
    rw [hprev] at hcheck
    rw [ChainState.revalidate]
    simp only [hfound, hstored, hprev, h.time, hcheck, hsome, ← hsame]
    simp [mapError_ok, bind, Except.bind, pure, Except.pure]

end Run

/-- A position stays where it is through any later offers, and checking it again always gives what it
records: its proof when it is flagged proof-of-stake, and none when it is not. -/
theorem revalidate_stable (p : Parameters) (offers later : List CandidateBlock) {id : Nat}
    {b : Position} (hb : (Run.of p offers).state.index.position? id = some b) :
    (Run.of p (offers ++ later)).state.index.position? id = some b ∧
      (Run.of p (offers ++ later)).state.revalidate id =
        .ok (if b.flags.proofOfStake then some b.proofHash else none) := by
  have hr := Run.reached_of p offers
  have hkept : (Run.of p (offers ++ later)).state.index.position? id = some b := by
    rw [Run.of_append]
    exact (hr.extends_offers later).positions.position hb
  obtain ⟨c, d, h⟩ := (Run.reached_of p (offers ++ later)).faithful.records hkept
  refine ⟨hkept, ?_⟩
  rw [h.revalidate, h.flagged, h.proofHash]
  cases d.proof <;> rfl

open SmallChain in
/-- A staked block is checked again after a competing block has staked the same output. -/
theorem revalidate_stable_rival : ∃ b,
    (Run.of parameters [first, staked]).state.index.position? 1 = some b ∧
      b.flags.proofOfStake = true ∧
      (Run.of parameters [first, staked, rival]).state.revalidate 1 = .ok (some b.proofHash) := by
  have hstaked : ((Run.of parameters [first, staked]).state.index.position? 1).any
      (·.flags.proofOfStake) = true := by decide +kernel
  obtain ⟨b, hb, hflag⟩ := (Option.any_eq_true _ _).1 hstaked
  refine ⟨b, hb, hflag, ?_⟩
  have := (revalidate_stable parameters [first, staked] [rival] hb).2
  rwa [hflag] at this

end StakeChain
