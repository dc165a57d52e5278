import Mathlib.Data.List.TakeWhile
import StakeChain.Checksum
import StakeChain.Modifier.Schedule
import StakeChain.Proofs.Walk
import StakeChain.Stake.Coinstake
/-!
The rules that read a branch: the next modifier, the checksum, the modifier of a kernel, the check of
a coinstake. Each is first written as a function of the blocks of the branch. None of them reads the
ids by which blocks link to one another, so two branches of different views with the same blocks get
the same results; a view may hold any other blocks besides.
-/

namespace StakeChain

/-- A block without its link. -/
def Position.unlinked (b : Position) : Position := { b with prev := none }

/-! ### Draws do not read links -/

theorem drawScore_unlinked (b : Position) (m : UInt64) : drawScore b.unlinked m = drawScore b m := by
  have hhash : b.unlinked.drawHash = b.drawHash := rfl
  simp only [drawScore, scoreMessage, hhash]
  rfl

namespace Candidate

/-- A candidate whose block has no link. -/
def unlinked (c : Candidate) : Candidate := ⟨c.block.unlinked, c.score⟩

theorem ofWindow_unlinked (window : List Position) (m : UInt64) :
    ofWindow (window.map Position.unlinked) m = (ofWindow window m).map unlinked := by
  have hmap : (window.map Position.unlinked).map (fun b => (⟨b, drawScore b m⟩ : Candidate)) =
      (window.map fun b => (⟨b, drawScore b m⟩ : Candidate)).map unlinked := by
    simp only [List.map_map]
    refine List.map_congr_left fun b _ => ?_
    simp only [Function.comp_apply, drawScore_unlinked, unlinked]
  rw [ofWindow, hmap, ofWindow]
  exact (List.map_mergeSort (f := unlinked) fun _ _ _ _ => rfl).symm

theorem lowest_unlinked (first : Candidate) (rest : List Candidate) :
    lowest first.unlinked (rest.map unlinked) = (lowest first rest).unlinked := by
  induction rest generalizing first with
  | nil => rfl
  | cons c rest ih =>
    simp only [lowest, List.map_cons, List.foldl_cons] at ih ⊢
    rw [← ih]
    by_cases h : c.score < first.score <;> simp [unlinked, h]

theorem winner?_unlinked (stop : Int) (cs : List Candidate) :
    winner? stop (cs.map unlinked) = (winner? stop cs).map unlinked := by
  cases cs with
  | nil => rfl
  | cons first rest =>
    simp only [winner?, List.map_cons, List.takeWhile_map, Option.map_some]
    rw [← lowest_unlinked]
    rfl

theorem winners_unlinked (p : Parameters) (left round : Nat) (stop : Int) (cs : List Candidate) :
    winners p left round stop (cs.map unlinked) =
      (winners p left round stop cs).map Position.unlinked := by
  induction left generalizing round stop cs with
  | zero => rfl
  | succ left ih =>
    simp only [winners, winner?_unlinked]
    cases winner? (stop + p.selectionSection round) cs with
    | none => rfl
    | some w =>
      simp only [Option.map_some, List.map_cons, List.filter_map]
      rw [← ih]
      rfl

end Candidate

theorem entropyWord_unlinked (bs : List Position) :
    entropyWord (bs.map Position.unlinked) = entropyWord bs := by
  induction bs with
  | nil => rfl
  | cons b bs ih =>
    simp only [List.map_cons, entropyWord, ih]
    rfl

theorem drawModifier_unlinked (p : Parameters) (m : UInt64) (start : Int) (window : List Position) :
    drawModifier p m start (window.map Position.unlinked) = drawModifier p m start window := by
  simp only [drawModifier, Candidate.ofWindow_unlinked, Candidate.winners_unlinked,
    entropyWord_unlinked]

theorem blockReaching_unlinked (target reached : Nat) (current : Option Position)
    (bs : List Position) :
    blockReaching target reached (current.map Position.unlinked) (bs.map Position.unlinked) =
      (blockReaching target reached current bs).map (Option.map Position.unlinked) := by
  induction bs generalizing reached current with
  | nil =>
    simp only [blockReaching, List.map_nil]
    split <;> rfl
  | cons b bs ih =>
    simp only [blockReaching, List.map_cons]
    split
    · rfl
    · exact ih _ (some b)

theorem blockReaching_congr (target reached : Nat) {bs cs : List Position}
    (h : bs.map Position.unlinked = cs.map Position.unlinked) :
    (blockReaching target reached none bs).map (Option.map Position.unlinked) =
      (blockReaching target reached none cs).map (Option.map Position.unlinked) := by
  rw [← blockReaching_unlinked, ← blockReaching_unlinked, h]

namespace View

variable {v w : View} {i j id : Nat} {b : Position}

/-! ### The rules as functions of the branch -/

theorem Ordered.takeWhile_trail (ho : v.Ordered) (hb : v.position id = some b) (p : Position → Bool) :
    (v.trail id).takeWhile p = .ok ((v.branch (some id)).takeWhile p) := by
  rw [ho.trail_eq hb]
  simp only [Trail.takeWhile, Trail.ended]
  split
  · rename_i hall
    rw [List.takeWhile_eq_self_iff.2 (by simpa using hall)]
  · rfl

theorem Ordered.find?_trail (ho : v.Ordered) (hb : v.position id = some b) (p : Position → Bool) :
    (v.trail id).find? p = .ok ((v.branch (some id)).find? p) := by
  rw [ho.trail_eq hb]
  simp only [Trail.find?, Trail.ended]
  cases (v.branch (some id)).find? p <;> rfl

theorem Ordered.lastGenerated_eq (ho : v.Ordered) (hb : v.position id = some b) {last : Position}
    (hlast : (v.branch (some id)).find? (·.flags.generated) = some last) :
    v.lastGenerated id = .ok last := by
  simp only [lastGenerated, ho.find?_trail hb, hlast]
  rfl

/-- The next modifier, where some block of the branch has generated one. -/
theorem Ordered.nextModifier_eq (ho : v.Ordered) (hb : v.position id = some b) {last : Position}
    (hlast : (v.branch (some id)).find? (·.flags.generated) = some last) (p : Parameters) :
    v.nextModifier p (some id) =
      if p.modifierInterval = 0 then .error .zeroModifierInterval
      else if p.intervalOf b.time ≤ p.intervalOf last.time then .ok ⟨last.stakeModifier, false⟩
      else
        let start : Int :=
          (p.intervalOf b.time * p.modifierInterval.toNat : Nat) - (p.selectionInterval : Int)
        let window := (v.branch (some id)).takeWhile fun c => start ≤ (c.time.toNat : Int)
        .ok ⟨drawModifier p last.stakeModifier start window.reverse, true⟩ := by
  simp only [nextModifier, resolve_eq hb, ho.lastGenerated_eq hb hlast, ho.takeWhile_trail hb, bind,
    Except.bind, pure, Except.pure, throw, throwThe, MonadExceptOf.throw]

theorem checksumOf_none (hb : b.prev = none) :
    v.checksumOf b = .ok (modifierChecksum none b.flags b.proofHash b.stakeModifier) := by
  simp only [checksumOf, hb]
  rfl

theorem checksumOf_some {a : Position} (hb : b.prev = some id) (ha : v.position id = some a) :
    v.checksumOf b = .ok (modifierChecksum (some a.checksum) b.flags b.proofHash b.stakeModifier) := by
  simp [checksumOf, hb, resolve_eq ha, Except.map, bind, Except.bind, pure, Except.pure]

/-- The modifier of a kernel after the block at `id`. -/
theorem Linked.kernelModifier_eq (hl : v.Linked) (hb : v.position id = some b) (p : Parameters)
    (source : SourceBlock) (time : UInt32) :
    v.kernelModifier p id source time =
      if !p.inForce .v03 time then .ok .legacyBits
      else if p.inForce .v05 time then .ok (.modifier b.stakeModifier)
      else if b.height < source.height then .error (.missingAncestor id source.height)
      else
        let segment := (v.branch (some id)).takeWhile fun c => source.height < c.height
        match blockReaching (source.time.toNat + p.selectionInterval) source.time.toNat none
            segment.reverse with
        | none => .error (.rejected (.modifierNotYetAvailable source.hash))
        | some (some c) => .ok (.modifier c.stakeModifier)
        | some none =>
          match v.lookup source.hash with
          | none => .error (.missingAncestor id source.height)
          | some k => (v.resolve k).map fun c => .modifier c.stakeModifier := by
  simp only [kernelModifier, resolve_eq hb, hl.ordered.takeWhile_trail hb, bind, Except.bind, pure,
    Except.pure, throw, throwThe, MonadExceptOf.throw]
  cases p.inForce .v03 time with
  | false => rfl
  | true =>
    cases p.inForce .v05 time with
    | true => rfl
    | false =>
      by_cases hh : b.height < source.height
      · simp [hh]
      · simp only [hh]
        rfl

/-- The source that a coinstake spends, when the branch has its block. -/
theorem Linked.kernelSource_eq (hl : v.Linked) (hb : v.position id = some b) (outputs : OutputView)
    (tx : Transaction) :
    v.kernelSource outputs id tx =
      match tx.kernelInput? with
      | none => .error (.rejected (.notCoinstake tx.txid))
      | some o => (outputs.source o).bind fun source =>
        if ((v.branch (some id)).find? (·.height == source.block.height)).map Position.hash =
          some source.block.hash then .ok source
        else .error (.rejected (.prevoutNotInChain o source.block.hash)) := by
  have hfind : ∀ h, (v.ancestor id h).bind v.position =
      (v.branch (some id)).find? (·.height == h) := fun h =>
    hl.ancestor_position (some id) (indexed_some.2 ⟨b, hb⟩)
  simp only [kernelSource, hfind, bind, pure, Except.pure, throw, throwThe, MonadExceptOf.throw]
  cases tx.kernelInput? with
  | none => rfl
  | some o =>
    simp only [Except.bind]
    cases outputs.source o with
    | error e => rfl
    | ok source =>
      by_cases hfound : ((v.branch (some id)).find? (·.height == source.block.height)).map
          Position.hash = some source.block.hash
      · simp [hfound]
      · simp [hfound]

/-- A source that was found is the kernel's output, and its block is on the branch. -/
theorem Linked.kernelSource_ok (hl : v.Linked) (hb : v.position id = some b) {outputs : OutputView}
    {tx : Transaction} {source : StakeSource} (h : v.kernelSource outputs id tx = .ok source) :
    ∃ o, tx.kernelInput? = some o ∧ outputs o = .ok (some source) ∧
      ((v.branch (some id)).find? (·.height == source.block.height)).map Position.hash =
        some source.block.hash := by
  rw [hl.kernelSource_eq hb] at h
  cases ho : tx.kernelInput? with
  | none => simp [ho] at h
  | some o =>
    cases hout : outputs o with
    | error e => simp [ho, OutputView.source, hout, Except.bind, bind] at h
    | ok found =>
      cases found with
      | none =>
        simp [ho, OutputView.source, hout, Except.bind, bind, throw, throwThe,
          MonadExceptOf.throw] at h
      | some s =>
        simp only [ho, OutputView.source, hout, Except.bind, bind, pure, Except.pure] at h
        split at h
        · obtain rfl := Except.ok.inj h
          rename_i hon
          exact ⟨o, rfl, hout, hon⟩
        · simp at h

/-! ### Branches with the same blocks -/

/-- The branch of `v` that ends at `i` has the same blocks as the branch of `w` that ends at `j`,
links aside. -/
structure SameBranch (v : View) (i : Nat) (w : View) (j : Nat) : Prop where
  left : v.Linked
  right : w.Linked
  found_left : ∃ b, v.position i = some b
  found_right : ∃ b, w.position j = some b
  blocks : (v.branch (some i)).map Position.unlinked = (w.branch (some j)).map Position.unlinked

namespace SameBranch

theorem tip (hs : v.SameBranch i w j) {c : Position} (hb : v.position i = some b)
    (hc : w.position j = some c) : b.unlinked = c.unlinked := by
  have heads := congrArg List.head? hs.blocks
  rw [hs.left.branch_some hb, hs.right.branch_some hc] at heads
  simpa using heads

theorem find? (hs : v.SameBranch i w j) (p : Position → Bool) (hp : ∀ b, p b.unlinked = p b) :
    ((v.branch (some i)).find? p).map Position.unlinked =
      ((w.branch (some j)).find? p).map Position.unlinked := by
  have hcomp : p ∘ Position.unlinked = p := funext hp
  have found := congrArg (List.find? p) hs.blocks
  rwa [List.find?_map, List.find?_map, hcomp] at found

theorem takeWhile (hs : v.SameBranch i w j) (p : Position → Bool) (hp : ∀ b, p b.unlinked = p b) :
    ((v.branch (some i)).takeWhile p).map Position.unlinked =
      ((w.branch (some j)).takeWhile p).map Position.unlinked := by
  have hcomp : p ∘ Position.unlinked = p := funext hp
  have taken := congrArg (List.takeWhile p) hs.blocks
  rwa [List.takeWhile_map, List.takeWhile_map, hcomp] at taken

/-- Where one of the branches has generated a modifier, the next modifier is the same. -/
theorem nextModifier (hs : v.SameBranch i w j) (p : Parameters)
    (hgen : ∃ b ∈ v.branch (some i), b.flags.generated = true) :
    v.nextModifier p (some i) = w.nextModifier p (some j) := by
  obtain ⟨b, hb⟩ := hs.found_left
  obtain ⟨c, hc⟩ := hs.found_right
  obtain ⟨last, hlast⟩ := Option.isSome_iff_exists.1 (List.find?_isSome.2 hgen)
  have lasts := hs.find? (·.flags.generated) fun _ => rfl
  rw [hlast, Option.map_some, eq_comm, Option.map_eq_some_iff] at lasts
  obtain ⟨last', hlast', heq⟩ := lasts
  have htime : c.time = b.time := (congrArg Position.time (hs.tip hb hc).symm :)
  have hlastTime : last'.time = last.time := (congrArg Position.time heq :)
  have hlastModifier : last'.stakeModifier = last.stakeModifier :=
    (congrArg Position.stakeModifier heq :)
  rw [hs.left.ordered.nextModifier_eq hb hlast, hs.right.ordered.nextModifier_eq hc hlast', htime,
    hlastTime, hlastModifier]
  -- The windows have the same blocks, and the draw reads nothing else.
  simp only
  rw [← drawModifier_unlinked, List.map_reverse, hs.takeWhile _ (fun _ => rfl), ← List.map_reverse,
    drawModifier_unlinked]

theorem checksumOf (hs : v.SameBranch i w j) {c d : Position} (hc : c.prev = some i)
    (hd : d.prev = some j) (h : c.unlinked = d.unlinked) : v.checksumOf c = w.checksumOf d := by
  obtain ⟨a, ha⟩ := hs.found_left
  obtain ⟨a', ha'⟩ := hs.found_right
  have hsum : a.checksum = a'.checksum := (congrArg Position.checksum (hs.tip ha ha') :)
  have hflags : c.flags = d.flags := (congrArg Position.flags h :)
  have hproof : c.proofHash = d.proofHash := (congrArg Position.proofHash h :)
  have hmodifier : c.stakeModifier = d.stakeModifier := (congrArg Position.stakeModifier h :)
  rw [checksumOf_some hc ha, checksumOf_some hd ha', hsum, hflags, hproof, hmodifier]

theorem kernelSource (hs : v.SameBranch i w j) (outputs : OutputView) (tx : Transaction) :
    v.kernelSource outputs i tx = w.kernelSource outputs j tx := by
  obtain ⟨b, hb⟩ := hs.found_left
  obtain ⟨c, hc⟩ := hs.found_right
  have hashes : ∀ h, ((v.branch (some i)).find? (·.height == h)).map Position.hash =
      ((w.branch (some j)).find? (·.height == h)).map Position.hash := by
    intro h
    have found := congrArg (Option.map Position.hash) (hs.find? (·.height == h) fun _ => rfl)
    rwa [Option.map_map, Option.map_map] at found
  rw [hs.left.kernelSource_eq hb, hs.right.kernelSource_eq hc]
  simp only [hashes]

/-- A block that one branch has at a height is found by its hash in both views, with the same
modifier, and is not above the tip. -/
theorem lookup (hs : v.SameBranch i w j) {height : Nat} {hash : Hash}
    (hon : ((v.branch (some i)).find? (·.height == height)).map Position.hash = some hash) :
    ∃ k a k' a', v.lookup hash = some k ∧ v.position k = some a ∧ w.lookup hash = some k' ∧
      w.position k' = some a' ∧ a.stakeModifier = a'.stakeModifier ∧
      ∀ b ∈ v.position i, height ≤ b.height := by
  obtain ⟨b, hb⟩ := hs.found_left
  obtain ⟨c, hc⟩ := hs.found_right
  obtain ⟨a, ha, rfl⟩ := Option.map_eq_some_iff.1 hon
  have founds := hs.find? (·.height == height) fun _ => rfl
  rw [ha, Option.map_some, eq_comm, Option.map_eq_some_iff] at founds
  obtain ⟨a', ha', heq⟩ := founds
  have hmem := List.mem_of_find?_eq_some ha
  obtain ⟨k, hk⟩ := hs.left.exists_position (indexed_some.2 ⟨b, hb⟩) hmem
  obtain ⟨k', hk'⟩ := hs.right.exists_position (indexed_some.2 ⟨c, hc⟩)
    (List.mem_of_find?_eq_some ha')
  refine ⟨k, a, k', a', hs.left.lookup_iff.2 ⟨a, hk, rfl⟩, hk,
    hs.right.lookup_iff.2 ⟨a', hk', (congrArg Position.hash heq :)⟩, hk',
    (congrArg Position.stakeModifier heq.symm :), fun b' hb' => ?_⟩
  obtain rfl : b = b' := by simpa [hb] using hb'
  obtain rfl : a.height = height := by simpa using List.find?_some ha
  rw [hs.left.branch_some hb] at hmem
  rcases List.mem_cons.1 hmem with rfl | hmem
  · exact Nat.le_refl _
  · exact Nat.le_of_lt (hs.left.height_lt hb hmem)

/-- A source whose block is on the branch has the same kernel modifier. -/
theorem kernelModifier (hs : v.SameBranch i w j) (p : Parameters) (source : SourceBlock)
    (time : UInt32) (hon : ((v.branch (some i)).find? (·.height == source.height)).map Position.hash =
      some source.hash) :
    v.kernelModifier p i source time = w.kernelModifier p j source time := by
  obtain ⟨b, hb⟩ := hs.found_left
  obtain ⟨c, hc⟩ := hs.found_right
  have htip := hs.tip hb hc
  have hheight : c.height = b.height := (congrArg Position.height htip.symm :)
  have hmodifier : c.stakeModifier = b.stakeModifier := (congrArg Position.stakeModifier htip.symm :)
  obtain ⟨k, a, k', a', hlook, hk, hlook', hk', hamodifier, hbelow⟩ := hs.lookup hon
  have hnot : ¬ b.height < source.height := Nat.not_lt.2 (hbelow b hb)
  have segments : ((v.branch (some i)).takeWhile fun c => source.height < c.height).reverse.map
      Position.unlinked =
      ((w.branch (some j)).takeWhile fun c => source.height < c.height).reverse.map
        Position.unlinked := by
    rw [List.map_reverse, List.map_reverse, hs.takeWhile _ fun _ => rfl]
  have reached := blockReaching_congr (source.time.toNat + p.selectionInterval) source.time.toNat
    segments
  rw [hs.left.kernelModifier_eq hb, hs.right.kernelModifier_eq hc, hheight, hmodifier, if_neg hnot,
    if_neg hnot, hlook, hlook']
  simp only [resolve_eq hk, resolve_eq hk', Except.map]
  -- Both walks end in the same way: too early, at blocks that differ in links only, or at once.
  revert reached
  generalize blockReaching _ _ none ((v.branch (some i)).takeWhile _).reverse = x
  generalize blockReaching _ _ none ((w.branch (some j)).takeWhile _).reverse = y
  intro reached
  rcases x with _ | _ | x <;> rcases y with _ | _ | y <;>
    simp only [Option.map_none, Option.map_some, Option.some.injEq, reduceCtorEq] at reached
  · rfl
  · rw [hamodifier]
  · have : x.stakeModifier = y.stakeModifier := (congrArg Position.stakeModifier reached :)
    simp only [this]

theorem checkCoinstake (hs : v.SameBranch i w j) (outputs : OutputView) (p : Parameters)
    (tx : Transaction) (nBits blockTime : UInt32) :
    v.checkCoinstake outputs p i tx nBits blockTime =
      w.checkCoinstake outputs p j tx nBits blockTime := by
  obtain ⟨b, hb⟩ := hs.found_left
  obtain ⟨c, hc⟩ := hs.found_right
  have hheight : b.height = c.height := (congrArg Position.height (hs.tip hb hc) :)
  unfold View.checkCoinstake
  rw [← hs.kernelSource, resolve_eq hb, resolve_eq hc]
  cases hsource : v.kernelSource outputs i tx with
  | error e => rfl
  | ok source =>
    obtain ⟨o, -, -, hon⟩ := hs.left.kernelSource_ok hb hsource
    simp only [bind, Except.bind, hs.kernelModifier p source.block _ hon, hheight]

end SameBranch

end View

end StakeChain
