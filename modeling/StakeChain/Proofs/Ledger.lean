import StakeChain.Proofs.Run
/-!
The shared output store refines a ledger of its own for each branch. The ledger is a plain list of
outputs, oldest first, in unbounded numbers: an input takes the oldest output that it names, and a
transaction's outputs that are not empty are added at the end. Replaying a branch on an empty ledger
gives what the tip of the branch sees in the store, whatever was connected on other branches.
-/

namespace StakeChain

/-- An output in a ledger: where it comes from, with the block and the byte offset in it. -/
structure LedgerOutput where
  txid : Hash
  index : Nat
  output : Output
  txTime : Option UInt32
  block : SourceBlock
  offset : Nat
deriving DecidableEq

/-- Whether an outpoint names the output. -/
def LedgerOutput.named (o : OutPoint) (e : LedgerOutput) : Bool :=
  e.txid == o.txid && e.index == o.vout.toNat

/-- The outputs that remain, oldest first. -/
abbrev Ledger := List LedgerOutput

namespace Ledger

def spend (l : Ledger) (o : OutPoint) : Ledger := l.eraseP (LedgerOutput.named o)

/-- The outputs of a transaction that are not empty. -/
def created (block : SourceBlock) (offset : Nat) (tx : Transaction) : Ledger :=
  (tx.outputs.zipIdx.filter fun o => !o.1.isEmpty).map fun o =>
    ⟨tx.txid, o.2, o.1, tx.time, block, offset⟩

/-- Replays transactions that follow one another from a byte offset on. -/
def replayTransactions (block : SourceBlock) : Ledger → Nat → List Transaction → Ledger
  | l, _, [] => l
  | l, offset, tx :: rest =>
    replayTransactions block (tx.inputs.foldl spend l ++ created block offset tx)
      (offset + tx.size.toNat) rest

/-- Replays a block at a height. -/
def replayBlock (l : Ledger) (height : Nat) (b : CandidateBlock) : Ledger :=
  replayTransactions ⟨b.hash, height, b.time⟩ l
    (headerSize + compactSizeLength b.transactions.length) b.transactions

/-- Replays blocks that follow one another from a height on. -/
def replayFrom : Ledger → Nat → List CandidateBlock → Ledger
  | l, _, [] => l
  | l, height, b :: rest => replayFrom (l.replayBlock height b) (height + 1) rest

/-- Replays a branch from its first block on. -/
def replay (blocks : List CandidateBlock) : Ledger := replayFrom [] 0 blocks

theorem replayFrom_append (l : Ledger) (height : Nat) (blocks : List CandidateBlock)
    (b : CandidateBlock) : replayFrom l height (blocks ++ [b]) =
      (replayFrom l height blocks).replayBlock (height + blocks.length) b := by
  induction blocks generalizing l height with
  | nil => rfl
  | cons c blocks ih =>
    rw [List.cons_append, replayFrom, ih, replayFrom, List.length_cons, Nat.add_assoc,
      Nat.add_comm 1]

theorem replay_append (blocks : List CandidateBlock) (b : CandidateBlock) :
    replay (blocks ++ [b]) = (replay blocks).replayBlock blocks.length b := by
  rw [replay, replayFrom_append, Nat.zero_add, replay]

end Ledger

/-- A source as a ledger has it. -/
def StakeSource.recorded (s : StakeSource) : LedgerOutput :=
  ⟨s.outpoint.txid, s.outpoint.vout.toNat, s.output, s.txTime, s.block, s.txOffset.toNat⟩

/-- The numbers of a block's outputs and the byte offsets of its transactions have thirty-two bits. -/
structure CandidateBlock.Fits (b : CandidateBlock) : Prop where
  outputs : ∀ tx ∈ b.transactions, tx.outputs.length < UInt32.size
  offsets : ∀ offset ∈ transactionOffsets b.transactions, offset < UInt32.size

namespace Unspent

variable {block : SourceBlock} {tx : Transaction} {offset start : Nat} {txs : List Transaction}

theorem named_recorded (o : OutPoint) :
    LedgerOutput.named o ∘ StakeSource.recorded = fun s => s.outpoint == o := by
  funext s
  rw [Bool.eq_iff_iff]
  obtain ⟨txid, vout⟩ := o
  obtain ⟨⟨txid', vout'⟩, _⟩ := s
  simp [LedgerOutput.named, StakeSource.recorded, UInt32.toNat_inj]

theorem recorded_spend (l : Unspent) (o : OutPoint) :
    (l.spend o).map StakeSource.recorded = Ledger.spend (l.map StakeSource.recorded) o := by
  rw [Ledger.spend, List.eraseP_map, named_recorded]
  rfl

theorem recorded_spends (os : List OutPoint) (l : Unspent) :
    (os.foldl spend l).map StakeSource.recorded =
      os.foldl Ledger.spend (l.map StakeSource.recorded) := by
  induction os generalizing l with
  | nil => rfl
  | cons o os ih => rw [List.foldl_cons, ih, recorded_spend, List.foldl_cons]

/-- Numbers of thirty-two bits are kept as they are. -/
theorem recorded_created (houtputs : tx.outputs.length < UInt32.size) (hoffset : offset < UInt32.size) :
    (created block tx offset).map StakeSource.recorded = Ledger.created block offset tx := by
  simp only [created, Transaction.created, Ledger.created, List.map_map]
  refine List.map_congr_left fun o ho => ?_
  obtain ⟨-, hlt, -⟩ := List.mem_zipIdx (List.mem_filter.1 ho).1
  have hindex : o.2 < UInt32.size := by omega
  simp [StakeSource.recorded, UInt32.toNat_ofNat_of_lt' hindex, UInt32.toNat_ofNat_of_lt' hoffset]

theorem recorded_apply (l : Unspent) (houtputs : tx.outputs.length < UInt32.size)
    (hoffset : offset < UInt32.size) : (l.apply block tx offset).map StakeSource.recorded =
      tx.inputs.foldl Ledger.spend (l.map StakeSource.recorded) ++ Ledger.created block offset tx := by
  rw [apply, List.map_append, recorded_spends, recorded_created houtputs hoffset]

theorem recorded_parts (l : Unspent) (houtputs : ∀ tx ∈ txs, tx.outputs.length < UInt32.size)
    (hoffsets : ∀ offset ∈ offsetsFrom start (txs.map fun tx => tx.size.toNat), offset < UInt32.size) :
    ((txs.zip (offsetsFrom start (txs.map fun tx => tx.size.toNat))).foldl
        (fun l t => l.apply block t.1 t.2) l).map StakeSource.recorded =
      Ledger.replayTransactions block (l.map StakeSource.recorded) start txs := by
  induction txs generalizing l start with
  | nil => rfl
  | cons tx txs ih =>
    simp only [List.map_cons, offsetsFrom, List.forall_mem_cons] at houtputs hoffsets ⊢
    rw [List.zip_cons_cons, List.foldl_cons, ih _ houtputs.2 hoffsets.2,
      recorded_apply l houtputs.1 hoffsets.1, Ledger.replayTransactions]

/-- Connecting a block to the outputs of its branch is replaying it on the ledger. -/
theorem recorded_connect (l : Unspent) (height : Nat) {b : CandidateBlock} (hb : b.Fits) :
    (l.connect ⟨b.hash, height, b.time⟩ b.transactions).map StakeSource.recorded =
      Ledger.replayBlock (l.map StakeSource.recorded) height b :=
  recorded_parts l hb.outputs hb.offsets

end Unspent

namespace Run

variable {r : Run}

/-- What a tip sees is its branch replayed. -/
theorem Faithful.recorded_live (hf : r.Faithful) : ∀ tip, r.state.index.view.Indexed tip →
    (∀ b ∈ r.branch (r.state.hashAt tip), b.Fits) →
    (r.state.live tip).map StakeSource.recorded = Ledger.replay (r.branch (r.state.hashAt tip)) := by
  refine hf.sound.linked.tip_induction ?_ ?_
  · intro _
    rw [ChainState.live, OutputStore.live_none, ChainState.hashAt_none, branch_none]
    rfl
  · intro id b hb ih hfits
    obtain ⟨c, d, h⟩ := hf.records hb
    rw [ChainState.hashAt_some hb, h.branch] at hfits
    -- The block's height counts the blocks before it.
    have hheight : (r.branch c.prevHash).length = b.height := by
      have hlength := congrArg List.length
        (hf.branch_hashes (some id) (View.indexed_some.2 ⟨b, hb⟩))
      rw [ChainState.hashAt_some hb, h.branch, List.length_map, List.length_reverse, List.length_map,
        hf.sound.linked.branch_length hb, List.length_append, List.length_singleton] at hlength
      omega
    have before : (r.state.live b.prev).map StakeSource.recorded =
        Ledger.replay (r.branch c.prevHash) := by
      rw [h.link]
      exact ih fun x hx => hfits x (List.mem_append_left _ (h.link ▸ hx))
    rw [ChainState.hashAt_some hb, h.branch, Ledger.replay_append, hheight, ← before, h.live, h.hash,
      h.time]
    exact Unspent.recorded_connect _ _ (hfits c (by simp))

end Run

namespace ChainState

variable {s : ChainState} {tip : Option Nat}

/-- What a state shows of an outpoint is the oldest live output that it names. -/
theorem recorded_get? (s : ChainState) (tip : Option Nat) (o : OutPoint) :
    (s.outputs.get? s.index.view tip o).map StakeSource.recorded =
      ((s.live tip).map StakeSource.recorded).find? (LedgerOutput.named o) := by
  rw [OutputStore.get?_eq_find?, List.find?_map, Unspent.named_recorded]
  rfl

end ChainState

/-- In every run and for every tip, what the shared store shows at the tip is not changed by offering
further blocks. It is what is left by replaying the tip's branch on an empty ledger, in order of
creation; the output shown for an outpoint is the oldest of its name, and the count is theirs. -/
theorem store_refines_ledger (p : Parameters) (offers later : List CandidateBlock)
    (tip : Option Nat) (htip : (Run.of p offers).state.index.view.Indexed tip) :
    let s := (Run.of p offers).state
    let s' := (Run.of p (offers ++ later)).state
    let branch := (Run.of p offers).branch (s.hashAt tip)
    (s'.live tip = s.live tip ∧
      ∀ o, s'.outputs.get? s'.index.view tip o = s.outputs.get? s.index.view tip o) ∧
    ((∀ b ∈ branch, b.Fits) →
      (s'.live tip).map StakeSource.recorded = Ledger.replay branch ∧
      (∀ o, (s'.outputs.get? s'.index.view tip o).map StakeSource.recorded =
        (Ledger.replay branch).find? (LedgerOutput.named o)) ∧
      s'.outputs.unspentCount s'.index.view tip = (Ledger.replay branch).length) := by
  intro s s' branch
  have hr := Run.reached_of p offers
  have hkept : s'.live tip = s.live tip := by
    have hext := hr.extends_offers later
    rw [← Run.of_append] at hext
    exact hext.live tip htip
  refine ⟨⟨hkept, fun o => ?_⟩, fun hfits => ?_⟩
  · rw [OutputStore.get?_eq_find?, OutputStore.get?_eq_find?]
    exact congrArg (List.find? _) hkept
  · have hlive : (s'.live tip).map StakeSource.recorded = Ledger.replay branch := by
      rw [hkept]
      exact hr.faithful.recorded_live tip htip hfits
    refine ⟨hlive, fun o => ?_, ?_⟩
    · rw [ChainState.recorded_get?, hlive]
    · rw [OutputStore.unspentCount_eq, ← hlive, List.length_map]
      rfl

open SmallChain in
/-- After a block has staked the first output, the tip of the other branch still sees it. -/
theorem store_refines_ledger_plain :
    (Run.of parameters [first, plain, staked]).state.outputs.unspentCount
      (Run.of parameters [first, plain, staked]).state.index.view (some 1) = 1 := by
  have htip : ((Run.of parameters [first, plain]).state.index.view.position 1).isSome := by
    decide +kernel
  have hbranch : (Run.of parameters [first, plain]).branch
      ((Run.of parameters [first, plain]).state.hashAt (some 1)) = [first, plain] := by
    decide +kernel
  have hfits : ∀ b ∈ [first, plain], b.Fits := by
    rintro b (_ | ⟨_, _ | ⟨_, ⟨⟩⟩⟩)
    · exact ⟨by decide, by decide⟩
    · exact ⟨by decide, by decide⟩
  have hledger := (store_refines_ledger parameters [first, plain] [staked] (some 1)
    (View.indexed_some.2 (Option.isSome_iff_exists.1 htip))).2
  rw [hbranch] at hledger
  exact (hledger hfits).2.2.trans (by decide)

end StakeChain
