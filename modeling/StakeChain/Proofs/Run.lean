import StakeChain.Proofs.Connected
/-!
Runs: blocks are offered one after another to a state that begins empty, and each is accepted or
refused. A run keeps, beside the state, the blocks that were accepted with what they derived; the
state itself forgets their transactions. The main invariant says that every position is still what
its block's check gives behind its predecessor, in the state of today, and that every tip shows the
outputs of the branch of its predecessor moved on by its own block.
-/

namespace StakeChain

/-- The blocks of the branch that ends at a hash, first block first, among blocks accepted one after
another, of which the latest is given first. -/
def branchTo : List CandidateBlock → Option Hash → List CandidateBlock
  | b :: earlier, some h =>
    if b.hash = h then branchTo earlier b.prevHash ++ [b] else branchTo earlier (some h)
  | _, _ => []

/-- A state reached by offering blocks, with the blocks accepted on the way and what they derived,
the latest first. -/
structure Run where
  state : ChainState
  log : List (CandidateBlock × ValidatedBlock)

namespace Run

def start (p : Parameters) : Run := ⟨.empty p, []⟩

/-- Offers one block. A refused block changes nothing. -/
def offer (r : Run) (b : CandidateBlock) : Run :=
  match r.state.accept b with
  | .ok (s, a) => ⟨s, (b, a.block) :: r.log⟩
  | .error _ => r

/-- The run that offers the blocks in order to an empty state. -/
def of (p : Parameters) (offers : List CandidateBlock) : Run := offers.foldl offer (start p)

/-- The accepted blocks of the branch that ends at a hash, first block first. -/
def branch (r : Run) (h : Option Hash) : List CandidateBlock := branchTo (r.log.map Prod.fst) h

/-- The runs that accepted blocks make. -/
inductive Reached (p : Parameters) : Run → Prop where
  | start : Reached p (start p)
  | accept {r s b a} : Reached p r → r.state.accept b = .ok (s, a) →
      Reached p ⟨s, (b, a.block) :: r.log⟩

variable {p : Parameters} {r : Run} {s : ChainState} {c : CandidateBlock} {d : ValidatedBlock}
  {id : Nat} {b : Position} {prev : Option Nat}

theorem Reached.offer (h : Reached p r) (b : CandidateBlock) : Reached p (r.offer b) := by
  unfold Run.offer
  split
  · rename_i haccept
    exact h.accept haccept
  · exact h

theorem Reached.offers (h : Reached p r) (offers : List CandidateBlock) :
    Reached p (offers.foldl Run.offer r) := by
  induction offers generalizing r with
  | nil => exact h
  | cons b offers ih => exact ih (h.offer b)

theorem reached_of (p : Parameters) (offers : List CandidateBlock) : Reached p (of p offers) :=
  Reached.start.offers offers

/-- What the state knows of an accepted block: the position at `id` is the one its check derives
there, and the outputs, the branch and the stored coinstake are those of the block. -/
structure Records (r : Run) (id : Nat) (b : Position) (c : CandidateBlock) (d : ValidatedBlock) :
    Prop where
  found : r.state.index.view.position id = some b
  logged : (c, d) ∈ r.log
  evaluated : r.state.evaluateAfter c b.prev = .ok (b, d)
  link : c.prevHash = r.state.hashAt b.prev
  live : r.state.live (some id) =
    (r.state.live b.prev).connect ⟨b.hash, b.height, b.time⟩ c.transactions
  branch : r.branch (some b.hash) = r.branch c.prevHash ++ [c]
  coinstake : r.state.coinstakes.find? (·.id == id) =
    c.coinstake?.map fun tx => ⟨id, tx, c.nBits⟩

/-- The state is sound, every position records an accepted block, and every accepted block has its
position. -/
structure Faithful (r : Run) : Prop where
  sound : r.state.Sound
  records : ∀ {id b}, r.state.index.view.position id = some b → ∃ c d, r.Records id b c d
  placed : ∀ {c d}, (c, d) ∈ r.log → ∃ id b, r.Records id b c d

namespace Records

variable (h : r.Records id b c d)

include h

theorem derives : r.state.Evaluated c b.prev b d := ChainState.evaluateAfter_eq_ok h.evaluated

theorem shows : b.Shows c d := h.derives.shows

theorem hash : b.hash = c.hash := h.shows.hash

theorem height : b.height = d.height := h.shows.height

theorem time : b.time = c.time := h.shows.time

theorem proofHash : b.proofHash = d.proof.getD .zero := h.shows.proofHash

theorem flagged : b.flags.proofOfStake = d.proof.isSome := h.shows.proofOfStake

end Records

@[simp] theorem branch_none : r.branch none = [] := by simp [branch, branchTo]

theorem branchTo_ne {earlier : List CandidateBlock} {h : Option Hash} (hne : h ≠ some c.hash) :
    branchTo (c :: earlier) h = branchTo earlier h := by
  cases h with
  | none => cases earlier <;> rfl
  | some h =>
    have : ¬ c.hash = h := fun heq => hne (heq ▸ rfl)
    rw [branchTo, if_neg this]

/-- Old branches do not have the new block. -/
theorem Faithful.branch_old {position : Position} (hf : r.Faithful)
    (hprev : r.state.predecessor c = .ok prev) {tip : Option Nat} :
    (Run.mk (r.state.connected c position) ((c, d) :: r.log)).branch (r.state.hashAt tip) =
      r.branch (r.state.hashAt tip) := by
  refine branchTo_ne fun hhash => ?_
  obtain ⟨a, ha, hash⟩ := Option.map_eq_some_iff.1 hhash
  obtain ⟨id, -, hid⟩ := Option.bind_eq_some_iff.1 ha
  have hlook := hf.sound.linked.lookup_iff.2 ⟨a, hid, hash⟩
  rw [(ChainState.predecessor_eq_ok.1 hprev).1] at hlook
  simp at hlook

section Step

variable {position : Position} (hf : r.Faithful) (hprev : r.state.predecessor c = .ok prev)
  (heval : r.state.evaluateAfter c prev = .ok (position, d))

include hf hprev heval

theorem Faithful.records_old {c₀ : CandidateBlock} {d₀ : ValidatedBlock} (h : r.Records id b c₀ d₀) :
    (Run.mk (r.state.connected c position) ((c, d) :: r.log)).Records id b c₀ d₀ := by
  have he := ChainState.evaluateAfter_eq_ok heval
  have hext := he.extends_connected hf.sound hprev
  have hsound := he.sound hf.sound hprev
  have hix := hf.sound.linked.indexed_prev h.found
  refine ⟨hext.positions.position h.found, List.mem_cons_of_mem _ h.logged,
    hext.evaluateAfter hf.sound hsound hix h.evaluated, ?_, ?_, ?_, ?_⟩
  · exact h.link.trans (congrArg _ (hext.positions.bind_position hix).symm)
  · rw [hext.live _ (View.indexed_some.2 ⟨b, h.found⟩), hext.live _ hix]
    exact h.live
  · have hself : (Run.mk (r.state.connected c position) ((c, d) :: r.log)).branch (some b.hash) =
        r.branch (some b.hash) := by
      rw [← ChainState.hashAt_some h.found]
      exact hf.branch_old hprev
    rw [hself, h.branch, h.link, hf.branch_old hprev]
  · simp only [ChainState.connected, List.find?_append, h.coinstake]
    cases c₀.coinstake? with
    | some tx => rfl
    | none =>
      have hne : ¬ r.state.index.size = id := by
        have : id < r.state.index.size := View.position_lt_size h.found
        omega
      cases c.coinstake? <;> simp [hne]

theorem Faithful.records_new : (Run.mk (r.state.connected c position) ((c, d) :: r.log)).Records
    r.state.index.size position c d := by
  have he := ChainState.evaluateAfter_eq_ok heval
  have hext := he.extends_connected hf.sound hprev
  have hsound := he.sound hf.sound hprev
  have hix := ChainState.predecessor_indexed hf.sound.linked hprev
  have hhash : position.hash = c.hash := he.shows.hash
  have hlink := ChainState.prevHash_eq hf.sound.linked hprev
  refine ⟨ChainIndex.position_push_size, List.mem_cons_self, ?_, ?_, ?_, ?_, ?_⟩
  · rw [he.position_prev]
    exact hext.evaluateAfter hf.sound hsound hix heval
  · rw [he.position_prev]
    exact hlink.trans (congrArg _ (hext.positions.bind_position hix).symm)
  · rw [he.position_prev, hext.live _ hix]
    exact he.live_connected hf.sound hprev
  · rw [hhash, hlink, hf.branch_old hprev, ← hlink]
    simp [Run.branch, branchTo]
  · have hold : r.state.coinstakes.find? (·.id == r.state.index.size) = none := by
      refine List.find?_eq_none.2 fun k hk => ?_
      have := hf.sound.stored k hk
      simpa using Nat.ne_of_lt this
    simp only [ChainState.connected, List.find?_append, hold]
    cases c.coinstake? <;> simp

theorem Faithful.accept : (Run.mk (r.state.connected c position) ((c, d) :: r.log)).Faithful where
  sound := (ChainState.evaluateAfter_eq_ok heval).sound hf.sound hprev
  records := by
    intro id b hb
    refine ChainIndex.forall_push (P := fun id b => ∃ c₀ d₀,
      (Run.mk (r.state.connected c position) ((c, d) :: r.log)).Records id b c₀ d₀) ?_ ?_ id b hb
    · exact ⟨c, d, hf.records_new hprev heval⟩
    · intro id b hb
      obtain ⟨c₀, d₀, h⟩ := hf.records hb
      exact ⟨c₀, d₀, hf.records_old hprev heval h⟩
  placed := by
    intro c₀ d₀ hmem
    rcases List.mem_cons.1 hmem with heq | hmem
    · obtain ⟨rfl, rfl⟩ := Prod.mk.inj heq
      exact ⟨_, position, hf.records_new hprev heval⟩
    · obtain ⟨id, b, h⟩ := hf.placed hmem
      exact ⟨id, b, hf.records_old hprev heval h⟩

end Step

theorem faithful_start (p : Parameters) : (start p).Faithful where
  sound := ChainState.sound_empty p
  records hb := by
    simp [start, ChainState.empty, ChainIndex.empty, ChainIndex.view, View.ofPositions] at hb
  placed hmem := by simp [start] at hmem

/-- Every run is faithful. -/
theorem Reached.faithful (h : Reached p r) : r.Faithful := by
  induction h with
  | start => exact faithful_start p
  | accept _ haccept ih =>
    obtain ⟨prev, position, hprev, heval, -, rfl⟩ :=
      (ChainState.accept_eq_ok ih.sound.linked).1 haccept
    exact ih.accept hprev heval

/-- The accepted blocks of a branch are those at its positions. -/
theorem Faithful.branch_hashes (hf : r.Faithful) : ∀ tip, r.state.index.view.Indexed tip →
    (r.branch (r.state.hashAt tip)).map CandidateBlock.hash =
      ((r.state.index.view.branch tip).map Position.hash).reverse := by
  refine hf.sound.linked.tip_induction (by simp) ?_
  intro id b hb ih
  obtain ⟨c, d, h⟩ := hf.records hb
  rw [ChainState.hashAt_some hb, h.branch, h.link, List.map_append, ih,
    hf.sound.linked.branch_some hb, List.map_cons, List.map_cons, List.reverse_cons, h.hash]
  rfl

theorem Reached.parameters (h : Reached p r) : r.state.parameters = p := by
  induction h with
  | start => rfl
  | accept hr haccept ih =>
    obtain ⟨prev, position, -, -, -, rfl⟩ :=
      (ChainState.accept_eq_ok hr.faithful.sound.linked).1 haccept
    exact ih

/-! ### Runs that go on -/

theorem of_append (p : Parameters) (offers later : List CandidateBlock) :
    of p (offers ++ later) = later.foldl offer (of p offers) := List.foldl_append

theorem Reached.extends_offer (h : Reached p r) (c : CandidateBlock) :
    r.state.Extends (r.offer c).state := by
  unfold Run.offer
  split
  · rename_i haccept
    obtain ⟨prev, position, hprev, heval, -, rfl⟩ :=
      (ChainState.accept_eq_ok h.faithful.sound.linked).1 haccept
    exact (ChainState.evaluateAfter_eq_ok heval).extends_connected h.faithful.sound hprev
  · exact .refl _

/-- Offering more blocks, accepted or refused, only extends the state. -/
theorem Reached.extends_offers (h : Reached p r) (offers : List CandidateBlock) :
    r.state.Extends (offers.foldl Run.offer r).state := by
  induction offers generalizing r with
  | nil => exact .refl _
  | cons c offers ih => exact (h.extends_offer c).trans (ih (h.offer c))

/-- The index of a run is made by insertions. -/
theorem Reached.grows_offer (h : Reached p r) (c : CandidateBlock) :
    r.state.index.Grows (r.offer c).state.index := by
  unfold Run.offer
  split
  · rename_i haccept
    have hl := h.faithful.sound.linked
    obtain ⟨prev, position, hprev, heval, -, rfl⟩ := (ChainState.accept_eq_ok hl).1 haccept
    have hchecked := (ChainState.evaluateAfter_eq_ok heval).checkInsert hl hprev
    exact .push .refl hchecked
  · exact .refl

theorem Reached.grows_offers (h : Reached p r) (offers : List CandidateBlock) :
    r.state.index.Grows (offers.foldl Run.offer r).state.index := by
  induction offers generalizing r with
  | nil => exact .refl
  | cons c offers ih => exact (h.grows_offer c).trans (ih (h.offer c))

/-- What later offers add to the log: some of the blocks offered, the latest first. -/
theorem log_offers (r : Run) (offers : List CandidateBlock) :
    ∃ new, (offers.foldl Run.offer r).log = new ++ r.log ∧
      (new.map Prod.fst).Sublist offers.reverse := by
  induction offers generalizing r with
  | nil => exact ⟨[], rfl, List.Sublist.refl _⟩
  | cons c offers ih =>
    obtain ⟨new, hlog, hsub⟩ := ih (r.offer c)
    rw [List.foldl_cons, hlog, List.reverse_cons]
    unfold Run.offer
    split
    · rename_i a _
      exact ⟨new ++ [(c, a.block)], by simp, by simpa using hsub.append_right [c]⟩
    · exact ⟨new, rfl, hsub.trans (List.sublist_append_left _ _)⟩

end Run

/-!
### A small chain

Blocks for runs on fixed inputs: a first block, and after it a block without stake and two blocks
that stake its only output.
-/

namespace SmallChain

/-- Regression testing, where outputs stake without age or depth. -/
def parameters : Parameters := { Parameters.regtest with stakeMinAge := 0, stakeMinDepth := 1 }

def digest (n : UInt8) : Hash := ⟨Vector.replicate 32 n⟩

def first : CandidateBlock where
  hash := digest 9
  prevHash := none
  time := 1600000000
  version := 1
  nBits := 0x207fffff
  transactions := [⟨digest 1, none, [.null], [⟨1000000000000, [1]⟩], 100⟩]
  signatureDigest := none

/-- A block after the first, with a coinbase that creates nothing. -/
def after (hash : UInt8) (time : UInt32) (more : List Transaction) : CandidateBlock where
  hash := digest hash
  prevHash := some first.hash
  time := time
  version := 1
  nBits := 0x207fffff
  transactions := ⟨digest 2, none, [.null], [.marker], 100⟩ :: more
  signatureDigest := none

/-- A transaction that stakes the first block's output. -/
def stake (txid : UInt8) : Transaction :=
  ⟨digest txid, none, [⟨digest 1, 0⟩], [.marker, ⟨1000000000000, [1]⟩], 100⟩

def plain : CandidateBlock := after 10 1600003500 []

def staked : CandidateBlock := after 11 1600003600 [stake 3]

def rival : CandidateBlock := after 12 1600003648 [stake 4]

end SmallChain

end StakeChain
