import StakeChain.Proofs.Run
import StakeChain.State.Update
/-!
Checking and accepting agree, and acceptance is atomic. What passes the check fits the index, so there is
no block that is checked well and then half connected; and since all checks come before the first write,
an acceptance in place that fails has written nothing.
-/

namespace StakeChain

namespace ChainState

variable {s : ChainState} {b : CandidateBlock} {prev : Option Nat} {position : Position}
  {derived : ValidatedBlock}

/-- A block that was evaluated was evaluated behind its predecessor. -/
theorem evaluate_eq_ok : s.evaluate b = .ok (position, derived) ↔
    ∃ prev, s.predecessor b = .ok prev ∧ s.evaluateAfter b prev = .ok (position, derived) := bind_eq_ok

/-- The index takes every position that was evaluated. -/
theorem insert_of_evaluate (hl : s.index.view.Linked)
    (heval : s.evaluate b = .ok (position, derived)) :
    s.index.insert position = .ok (s.index.push position, s.index.size) := by
  obtain ⟨prev, hprev, hafter⟩ := evaluate_eq_ok.1 heval
  have hfits := (evaluateAfter_eq_ok hafter).checkInsert hl hprev
  exact ChainIndex.insert_eq_ok.2 ⟨hfits, rfl, rfl⟩

/-- Accepting a block is evaluating it, and then connecting it at the position derived. -/
theorem accept_eq (hl : s.index.view.Linked) (b : CandidateBlock) :
    s.accept b = (s.evaluate b).map fun r => (s.connected b r.1, ⟨s.index.size, r.2⟩) := by
  cases heval : s.evaluate b with
  | error e =>
    rw [accept, heval]
    rfl
  | ok r =>
    obtain ⟨position, derived⟩ := r
    have hinsert := insert_of_evaluate hl heval
    rw [accept, heval]
    simp only [bind, Except.bind, hinsert]
    rfl

theorem accept_map_block (hl : s.index.view.Linked) (b : CandidateBlock) :
    (s.accept b).map (fun r => r.2.block) = s.check b := by
  rw [accept_eq hl, check]
  cases s.evaluate b <;> rfl

theorem accept_eq_error (hl : s.index.view.Linked) {e : StateError} :
    s.accept b = .error e ↔ s.check b = .error e := by
  rw [← accept_map_block hl]
  cases s.accept b <;> simp [Except.map]

theorem accept_of_check (hl : s.index.view.Linked) (hcheck : s.check b = .ok derived) :
    ∃ position, s.evaluate b = .ok (position, derived) ∧
      s.accept b = .ok (s.connected b position, ⟨s.index.size, derived⟩) := by
  obtain ⟨⟨position, derived'⟩, heval, rfl⟩ := map_eq_ok.1 hcheck
  refine ⟨position, heval, ?_⟩
  rw [accept_eq hl, heval]
  rfl

end ChainState

/-! ### Acceptance in place -/

namespace Update

variable {s : ChainState} {b : CandidateBlock}

/-- The outcome of a request that has written nothing. -/
def kept {α : Type} (s : ChainState) : Except StateError α → EStateM.Result StateError ChainState α
  | .ok a => .ok a s
  | .error e => .error e s

theorem read_eq {α : Type} (check : ChainState → Except StateError α) (s : ChainState) :
    read check s = kept s (check s) := by
  have hrun : read check s = (match check s with
    | .ok a => (pure a : Update α)
    | .error e => throw e) s := rfl
  rw [hrun]
  cases check s <;> rfl

/-- A check leaves the state as it is. -/
theorem check_eq (b : CandidateBlock) (s : ChainState) : check b s = kept s (s.check b) := by
  simp only [check, bind, EStateM.bind, read_eq, ChainState.check]
  cases s.evaluate b <;> rfl

/-- Written part by part, the index is the one with the position appended; a position that does not fit
leaves no trace. -/
theorem insert_eq (b : Position) (s : ChainState) : insert b s =
    match s.index.insert b with
    | .ok (index, id) => .ok id { s with index := index }
    | .error e => .error e s := by
  simp only [insert, bind, EStateM.bind, read_eq, ChainIndex.insert]
  cases s.index.checkInsert b <;> rfl

/-- In place, a block that is accepted leaves the accepted state, and one that is refused leaves the state
as it is. -/
theorem accept_eq (b : CandidateBlock) (s : ChainState) : accept b s =
    match s.accept b with
    | .ok (s', a) => .ok a s'
    | .error e => .error e s := by
  simp only [accept, bind, EStateM.bind, read_eq, ChainState.accept]
  cases s.evaluate b with
  | error e => rfl
  | ok r =>
    simp only [kept, insert_eq, Except.bind]
    cases s.index.insert r.1 with
    | error e => rfl
    | ok inserted =>
      cases hcoinstake : b.coinstake? with
      | none =>
        simp only [Option.map_none, Option.toList_none, List.append_nil]
        rfl
      | some tx => rfl

end Update

/-! ### Along a run -/

namespace Run

variable {p : Parameters} {r : Run} {b : CandidateBlock} {derived : ValidatedBlock} {e : StateError}

theorem offer_of_error (h : r.state.accept b = .error e) : r.offer b = r := by
  simp only [offer, h]

theorem state_offer_of_ok {s : ChainState} {a : AcceptedBlock} (h : r.state.accept b = .ok (s, a)) :
    (r.offer b).state = s := by simp only [offer, h]

/-- A block that does not pass its check is refused with the same error, and nothing is written. -/
theorem Reached.refused (h : Reached p r) (hcheck : r.state.check b = .error e) :
    Update.accept b r.state = .error e r.state ∧ r.offer b = r := by
  have haccept := (ChainState.accept_eq_error h.faithful.sound.linked).2 hcheck
  refine ⟨?_, offer_of_error haccept⟩
  rw [Update.accept_eq, haccept]

/-- A block that passes its check is connected at the position that the check derived. -/
theorem Reached.connects (h : Reached p r) (hcheck : r.state.check b = .ok derived) : ∃ position,
    r.state.evaluate b = .ok (position, derived) ∧
    Update.accept b r.state = .ok ⟨r.state.index.size, derived⟩ (r.offer b).state ∧
    (r.offer b).state = r.state.connected b position ∧
    position.Shows b derived ∧
    r.state.hashAt position.prev = b.prevHash := by
  have hf := h.faithful
  obtain ⟨position, heval, haccept⟩ := ChainState.accept_of_check hf.sound.linked hcheck
  obtain ⟨prev, hprev, hafter⟩ := ChainState.evaluate_eq_ok.1 heval
  have he := ChainState.evaluateAfter_eq_ok hafter
  have hstate := state_offer_of_ok haccept
  refine ⟨position, heval, ?_, hstate, he.shows, ?_⟩
  · rw [Update.accept_eq, haccept, hstate]
  · rw [he.position_prev, ChainState.prevHash_eq hf.sound.linked hprev]

end Run

/-- In every run, checking a block and accepting it give the same verdict, and checking writes nothing. A
block that does not pass leaves the state as it is. A block that passes is taken by the index: one
position is appended, with the next id, and it shows what the check derived. -/
theorem acceptance_atomic (p : Parameters) (offers : List CandidateBlock) (b : CandidateBlock) :
    let s := (Run.of p offers).state
    let s' := (Run.of p (offers ++ [b])).state
    (s.accept b).map (fun r => r.2.block) = s.check b ∧
    Update.check b s = Update.kept s (s.check b) ∧
    (∀ e, s.check b = .error e → Update.accept b s = .error e s ∧ s' = s) ∧
    (∀ derived, s.check b = .ok derived → ∃ position,
      s.evaluate b = .ok (position, derived) ∧
      s.index.insert position = .ok (s'.index, s.index.size) ∧
      Update.accept b s = .ok ⟨s.index.size, derived⟩ s' ∧
      s'.index.positions = s.index.positions.push position ∧
      position.Shows b derived ∧
      s.hashAt position.prev = b.prevHash) := by
  intro s s'
  have hr := Run.reached_of p offers
  have hl : s.index.view.Linked := hr.faithful.sound.linked
  have hnext : s' = ((Run.of p offers).offer b).state := by
    simp only [s', Run.of_append, List.foldl_cons, List.foldl_nil]
  refine ⟨ChainState.accept_map_block hl b, Update.check_eq b s, ?_, ?_⟩
  · intro e hcheck
    obtain ⟨haccept, hsame⟩ := hr.refused hcheck
    rw [hnext, hsame]
    exact ⟨haccept, rfl⟩
  · intro derived hcheck
    obtain ⟨position, heval, haccept, hconnected, hshows, hlink⟩ := hr.connects hcheck
    rw [hnext]
    refine ⟨position, heval, ?_, haccept, ?_, hshows, hlink⟩
    · rw [hconnected]
      exact ChainState.insert_of_evaluate hl heval
    · rw [hconnected]
      rfl

open SmallChain in
/-- After the first block its staked successor is connected, and the first block itself is refused. -/
theorem acceptance_atomic_staked :
    (∃ derived, Update.accept staked (Run.of parameters [first]).state =
      .ok ⟨1, derived⟩ (Run.of parameters [first, staked]).state) ∧
    Update.accept first (Run.of parameters [first]).state =
      .error (.duplicateBlock first.hash) (Run.of parameters [first]).state := by
  have hfacts : ((Run.of parameters [first]).state.check staked).isOk = true ∧
      (Run.of parameters [first]).state.index.size = 1 ∧
      (Run.of parameters [first]).state.check first = .error (.duplicateBlock first.hash) := by
    decide +kernel
  obtain ⟨hpasses, hsize, hknown⟩ := hfacts
  constructor
  · cases hcheck : (Run.of parameters [first]).state.check staked with
    | error e => simp [hcheck, Except.isOk, Except.toBool] at hpasses
    | ok derived =>
      obtain ⟨position, -, -, haccept, -⟩ :=
        (acceptance_atomic parameters [first] staked).2.2.2 derived hcheck
      exact ⟨derived, hsize ▸ haccept⟩
  · exact ((acceptance_atomic parameters [first] first).2.2.1 _ hknown).1

end StakeChain
