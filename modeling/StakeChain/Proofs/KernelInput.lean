import StakeChain.Proofs.Connecting
import StakeChain.Proofs.HashedMessage
import StakeChain.Proofs.Run
/-!
What tells the outputs of a branch apart in a kernel message. Of its source a message has the time of the block,
the byte offset and the time of the transaction, and the number of the output. Within one block the offset names
the transaction, so its outputs are told apart. Two blocks are told apart by their times only: nothing keeps a
block from the time of one before it, and outputs in the same place of both then have the same message.
-/

namespace StakeChain

/-- A message has each of its fields in a place of its own. -/
theorem kernelMessage_inj {m : KernelModifier}
    {nBits time block offset prev vout block' offset' prev' vout' : UInt32} :
    kernelMessage m nBits block offset prev vout time =
        kernelMessage m nBits block' offset' prev' vout' time ↔
      block = block' ∧ offset = offset' ∧ prev = prev' ∧ vout = vout' := by
  rw [← HashCall.message_kernel, ← HashCall.message_kernel, HashCall.message_inj, HashCall.fields_inj]
  simp [HashCall.Alike]

namespace StakeSource

/-- What is hashed for staking the source at `time`. -/
def kernelMessage (s : StakeSource) (m : KernelModifier) (nBits time : UInt32) : List UInt8 :=
  StakeChain.kernelMessage m nBits s.block.time s.txOffset s.effectiveTime s.outpoint.vout time

theorem kernelHash_eq (s : StakeSource) (m : KernelModifier) (nBits time : UInt32) :
    s.kernelHash m nBits time = .doubleSha256 (s.kernelMessage m nBits time) := rfl

/-- Two sources are the same to a kernel message. -/
structure Twin (a a' : StakeSource) : Prop where
  blockTime : a.block.time = a'.block.time
  offset : a.txOffset = a'.txOffset
  effectiveTime : a.effectiveTime = a'.effectiveTime
  vout : a.outpoint.vout = a'.outpoint.vout

theorem kernelMessage_eq_iff {a a' : StakeSource} {m : KernelModifier} {nBits time : UInt32} :
    a.kernelMessage m nBits time = a'.kernelMessage m nBits time ↔ a.Twin a' := by
  rw [kernelMessage, kernelMessage, kernelMessage_inj]
  constructor
  · rintro ⟨hblock, hoffset, heffective, hvout⟩
    exact ⟨hblock, hoffset, heffective, hvout⟩
  · intro h
    exact ⟨h.blockTime, h.offset, h.effectiveTime, h.vout⟩

end StakeSource

/-! ### Places in a block -/

theorem le_of_mem_offsetsFrom {start n : Nat} {sizes : List Nat} (h : n ∈ offsetsFrom start sizes) :
    start ≤ n := by
  induction sizes generalizing start with
  | nil => simp [offsetsFrom] at h
  | cons size sizes ih =>
    rcases List.mem_cons.1 h with rfl | h
    · exact Nat.le_refl _
    · have := ih h
      omega

/-- Parts that are not empty begin in different places. -/
theorem nodup_offsetsFrom {start : Nat} {sizes : List Nat} (h : ∀ size ∈ sizes, 0 < size) :
    (offsetsFrom start sizes).Nodup := by
  induction sizes generalizing start with
  | nil => exact List.nodup_nil
  | cons size sizes ih =>
    obtain ⟨hsize, hsizes⟩ := List.forall_mem_cons.1 h
    refine List.nodup_cons.2 ⟨fun hmem => ?_, ih hsizes⟩
    have := le_of_mem_offsetsFrom hmem
    omega

/-- Every transaction of a block takes a byte, and the byte offsets have thirty-two bits. -/
structure CandidateBlock.Laid (c : CandidateBlock) : Prop where
  sizes : ∀ tx ∈ c.transactions, 0 < tx.size.toNat
  offsets : ∀ offset ∈ transactionOffsets c.transactions, offset < UInt32.size

/-- The transactions of a block with their places. -/
def CandidateBlock.placed (c : CandidateBlock) : List (Transaction × Nat) :=
  c.transactions.zip (transactionOffsets c.transactions)

theorem CandidateBlock.Laid.eq_of_offset {c : CandidateBlock} (hc : c.Laid) {t t' : Transaction × Nat}
    (ht : t ∈ c.placed) (ht' : t' ∈ c.placed) (h : UInt32.ofNat t.2 = UInt32.ofNat t'.2) : t = t' := by
  have hbound : ∀ t ∈ c.placed, t.2 < UInt32.size := by
    intro t ht
    exact hc.offsets t.2 (List.of_mem_zip ht).2
  have hsnd : c.placed.map Prod.snd = transactionOffsets c.transactions :=
    List.map_snd_zip (by simp [transactionOffsets, length_offsetsFrom])
  have hnodup : (c.placed.map Prod.snd).Nodup := by
    rw [hsnd]
    refine nodup_offsetsFrom fun size hsize => ?_
    obtain ⟨tx, htx, rfl⟩ := List.mem_map.1 hsize
    exact hc.sizes tx htx
  have hoffset : t.2 = t'.2 := by
    have hnat := congrArg UInt32.toNat h
    rwa [UInt32.toNat_ofNat_of_lt' (hbound t ht), UInt32.toNat_ofNat_of_lt' (hbound t' ht')] at hnat
  exact List.inj_on_of_nodup_map hnodup ht ht' hoffset

/-! ### Where the outputs of a branch come from -/

namespace Unspent

variable {l : Unspent} {block : SourceBlock} {a : StakeSource}

theorem mem_of_mem_spends {os : List OutPoint} (h : a ∈ os.foldl spend l) : a ∈ l := by
  induction os generalizing l with
  | nil => exact h
  | cons o os ih => exact List.mem_of_mem_eraseP (ih h)

/-- After a block an output is one from before it, or one that the block has created. -/
theorem mem_applies {ts : List (Transaction × Nat)}
    (h : a ∈ ts.foldl (fun l t => l.apply block t.1 t.2) l) :
    a ∈ l ∨ ∃ t ∈ ts, a ∈ created block t.1 t.2 := by
  induction ts generalizing l with
  | nil => exact .inl h
  | cons t ts ih =>
    rcases ih h with h | ⟨t', ht', h⟩
    · rcases List.mem_append.1 h with h | h
      · exact .inl (mem_of_mem_spends h)
      · exact .inr ⟨t, List.mem_cons_self, h⟩
    · exact .inr ⟨t', List.mem_cons_of_mem _ ht', h⟩

end Unspent

/-- A transaction of the block creates the output, where the block has some height. -/
def CandidateBlock.Creates (c : CandidateBlock) (a : StakeSource) : Prop :=
  ∃ height, ∃ t ∈ c.placed, a ∈ Unspent.created ⟨c.hash, height, c.time⟩ t.1 t.2

namespace CandidateBlock

variable {c : CandidateBlock} {a a' : StakeSource}

theorem Creates.time (h : c.Creates a) : a.block.time = c.time := by
  obtain ⟨height, t, -, ha⟩ := h
  obtain ⟨o, -, rfl⟩ := List.mem_map.1 ha
  rfl

/-- The offset names the transaction, and the number then the output. -/
theorem Creates.outpoint_eq (h : c.Creates a) (h' : c.Creates a') (hc : c.Laid)
    (hoffset : a.txOffset = a'.txOffset) (hvout : a.outpoint.vout = a'.outpoint.vout) :
    a.outpoint = a'.outpoint := by
  obtain ⟨height, t, ht, ha⟩ := h
  obtain ⟨height', t', ht', ha'⟩ := h'
  obtain ⟨o, ho, rfl⟩ := List.mem_map.1 ha
  obtain ⟨o', ho', rfl⟩ := List.mem_map.1 ha'
  obtain rfl := hc.eq_of_offset ht ht' hoffset
  obtain ⟨x, -, rfl⟩ := List.mem_map.1 ho
  obtain ⟨x', -, rfl⟩ := List.mem_map.1 ho'
  exact congrArg (OutPoint.mk t.1.txid) hvout

end CandidateBlock

namespace Run

/-- Every output live at a tip was created by a block of its branch. -/
theorem Faithful.exists_creates {r : Run} (hf : r.Faithful) : ∀ tip, r.state.index.view.Indexed tip →
    ∀ a ∈ r.state.live tip, ∃ c ∈ r.branch (r.state.hashAt tip), c.Creates a := by
  -- Up the branch: an output behind a block was there before it, or the block has created it.
  refine hf.sound.linked.tip_induction (fun a ha => ?_) fun id b hb ih a ha => ?_
  · simp [ChainState.live, OutputStore.live_none] at ha
  · obtain ⟨c, d, h⟩ := hf.records hb
    rw [ChainState.hashAt_some hb, h.branch, h.link]
    rw [h.live] at ha
    rcases Unspent.mem_applies ha with ha | ⟨t, ht, ha⟩
    · obtain ⟨e, he, hcreates⟩ := ih a ha
      exact ⟨e, List.mem_append_left _ he, hcreates⟩
    · rw [h.hash, h.time] at ha
      exact ⟨c, List.mem_append_right _ (List.mem_singleton_self c), b.height, t, ht, ha⟩

end Run

/-- The kernel hash of a source is that of its kernel message. Kernel messages of two sources, for the same
modifier, target and time, are equal exactly when the sources have the same four fields. Where transactions take room, two different outputs of a branch have equal messages
only when two blocks of the branch that created them have the same time. Where block times are distinct, no two
outputs of the branch have equal messages. -/
theorem kernel_messages_by_time (p : Parameters) (offers : List CandidateBlock) {tip : Option Nat}
    {a a' : StakeSource} (htip : (Run.of p offers).state.index.view.Indexed tip)
    (ha : a ∈ (Run.of p offers).state.live tip) (ha' : a' ∈ (Run.of p offers).state.live tip)
    (hne : a.outpoint ≠ a'.outpoint) :
    let branch := (Run.of p offers).branch ((Run.of p offers).state.hashAt tip)
    (∀ (s : StakeSource) m nBits time,
      s.kernelHash m nBits time = .doubleSha256 (s.kernelMessage m nBits time)) ∧
    (∀ m nBits time, a.kernelMessage m nBits time = a'.kernelMessage m nBits time ↔ a.Twin a') ∧
    ((∀ c ∈ branch, c.Laid) → ∀ m nBits time,
      a.kernelMessage m nBits time = a'.kernelMessage m nBits time →
      ∃ c ∈ branch, ∃ c' ∈ branch, c.Creates a ∧ c'.Creates a' ∧ c ≠ c' ∧ c.time = c'.time) ∧
    ((∀ c ∈ branch, c.Laid) → (branch.map CandidateBlock.time).Nodup → ∀ m nBits time,
      a.kernelMessage m nBits time ≠ a'.kernelMessage m nBits time) := by
  intro branch
  have hf := (Run.reached_of p offers).faithful
  have apart : (∀ c ∈ branch, c.Laid) → ∀ m nBits time,
      a.kernelMessage m nBits time = a'.kernelMessage m nBits time →
      ∃ c ∈ branch, ∃ c' ∈ branch, c.Creates a ∧ c'.Creates a' ∧ c ≠ c' ∧ c.time = c'.time := by
    intro hlaid m nBits time hmessage
    have htwin := StakeSource.kernelMessage_eq_iff.1 hmessage
    obtain ⟨c, hc, hcreates⟩ := hf.exists_creates tip htip a ha
    obtain ⟨c', hc', hcreates'⟩ := hf.exists_creates tip htip a' ha'
    refine ⟨c, hc, c', hc', hcreates, hcreates', ?_, ?_⟩
    · rintro rfl
      exact hne (hcreates.outpoint_eq hcreates' (hlaid c hc) htwin.offset htwin.vout)
    · rw [← hcreates.time, ← hcreates'.time, htwin.blockTime]
  refine ⟨StakeSource.kernelHash_eq, fun _ _ _ => StakeSource.kernelMessage_eq_iff, apart, ?_⟩
  intro hlaid hdistinct m nBits time hmessage
  obtain ⟨c, hc, c', hc', -, -, hblocks, htime⟩ := apart hlaid m nBits time hmessage
  exact hblocks (List.inj_on_of_nodup_map hdistinct hc hc' htime)

namespace SmallChain

/-- A block after the first whose coinbase lies where that of the first lies and creates an output of its own. -/
def sibling (time : UInt32) : CandidateBlock :=
  { first with
    hash := digest 18
    prevHash := some first.hash
    time := time
    transactions := [⟨digest 5, none, [.null], [⟨1000000000000, [1]⟩], 100⟩] }

/-- The first block's output, and that of its sibling. -/
def firstOutput : StakeSource :=
  ⟨⟨digest 1, 0⟩, ⟨1000000000000, [1]⟩, none, ⟨digest 9, 0, 1600000000⟩, 81⟩

def siblingOutput (time : UInt32) : StakeSource :=
  ⟨⟨digest 5, 0⟩, ⟨1000000000000, [1]⟩, none, ⟨digest 18, 1, time⟩, 81⟩

theorem sibling_later :
    (Run.of parameters [first, sibling 1600000016]).state.index.size = 2 ∧
    (Run.of parameters [first, sibling 1600000016]).state.live (some 1) =
      [firstOutput, siblingOutput 1600000016] ∧
    (Run.of parameters [first, sibling 1600000016]).branch
      ((Run.of parameters [first, sibling 1600000016]).state.hashAt (some 1)) =
      [first, sibling 1600000016] := by decide +kernel

theorem sibling_same_time :
    (Run.of parameters [first, sibling 1600000000]).state.index.size = 2 ∧
    (Run.of parameters [first, sibling 1600000000]).state.live (some 1) =
      [firstOutput, siblingOutput 1600000000] := by decide +kernel

end SmallChain

open SmallChain in
/-- A sibling sixteen seconds later: the messages of the two outputs differ. -/
theorem kernel_messages_by_time_sibling :
    (Run.of parameters [first, sibling 1600000016]).state.live (some 1) =
      [firstOutput, siblingOutput 1600000016] ∧
    ∀ m nBits time,
      firstOutput.kernelMessage m nBits time ≠ (siblingOutput 1600000016).kernelMessage m nBits time := by
  obtain ⟨hsize, hlive, hbranch⟩ := sibling_later
  have htip : (Run.of parameters [first, sibling 1600000016]).state.index.view.Indexed (some 1) :=
    View.indexed_some.2 (ChainIndex.exists_position (by omega))
  have hlaid : ∀ c ∈ [first, sibling 1600000016], c.Laid := by
    have hall : ∀ c ∈ [first, sibling 1600000016], (∀ tx ∈ c.transactions, 0 < tx.size.toNat) ∧
        ∀ offset ∈ transactionOffsets c.transactions, offset < UInt32.size := by decide
    exact fun c hc => ⟨(hall c hc).1, (hall c hc).2⟩
  refine ⟨hlive, (kernel_messages_by_time parameters [first, sibling 1600000016] htip
    (by simp [hlive]) (by simp [hlive]) (by decide)).2.2.2 ?_ ?_⟩
  · rwa [hbranch]
  · rw [hbranch]
    decide

open SmallChain in
/-- A sibling at the time of the first block: different outputs, and equal messages. -/
theorem kernel_messages_equal : ¬ ∀ (p : Parameters) (offers : List CandidateBlock) (tip : Option Nat)
    (a a' : StakeSource), (Run.of p offers).state.index.view.Indexed tip →
    a ∈ (Run.of p offers).state.live tip → a' ∈ (Run.of p offers).state.live tip →
    a.outpoint ≠ a'.outpoint →
    ∀ m nBits time, a.kernelMessage m nBits time ≠ a'.kernelMessage m nBits time := by
  intro hunique
  obtain ⟨hsize, hlive⟩ := sibling_same_time
  have htip : (Run.of parameters [first, sibling 1600000000]).state.index.view.Indexed (some 1) :=
    View.indexed_some.2 (ChainIndex.exists_position (by omega))
  exact hunique parameters [first, sibling 1600000000] (some 1) firstOutput (siblingOutput 1600000000) htip
    (by simp [hlive]) (by simp [hlive]) (by decide) (.modifier 0) 0 0 (by decide)

end StakeChain
