import StakeChain.Chain.View
import StakeChain.Modifier.Section
import StakeChain.Protocol
import StakeChain.Stake.Source
/-!
The stake modifier that enters a kernel. Before version 0.3 there is none, and the compact target
takes its place; from version 0.5 on it is that of the block before the coinstake; in between it is
one generated about a selection interval after the block that holds the staked output.
-/

namespace StakeChain

/-- What a kernel's message begins with. -/
inductive KernelModifier where
  | modifier (value : UInt64)
  /-- The compact target stands in for a modifier. -/
  | legacyBits
deriving DecidableEq

/-- Follows a branch, oldest block first, until the last generation met is at or after `target`.
`reached` is the time of that generation, `current` the block arrived at; the branch may end first. -/
def blockReaching (target : Nat) : Nat → Option Position → List Position → Option (Option Position)
  | reached, current, blocks =>
    if target ≤ reached then some current
    else
      match blocks with
      | [] => none
      | b :: rest =>
        blockReaching target (if b.flags.generated then b.time.toNat else reached) (some b) rest

/-- The modifier in the kernel of a coinstake at `time` after `prev`, for an output in block `source`. -/
def View.kernelModifier (v : View) (p : Parameters) (prev : Nat) (source : SourceBlock)
    (time : UInt32) : Except ConsensusError KernelModifier := do
  if !p.inForce .v03 time then return .legacyBits
  let tip ← v.resolve prev
  if p.inForce .v05 time then return .modifier tip.stakeModifier
  if tip.height < source.height then throw (.missingAncestor prev source.height)
  let segment ← (v.trail prev).takeWhile fun b => source.height < b.height
  let target := source.time.toNat + p.selectionInterval
  match blockReaching target source.time.toNat none segment.reverse with
  | none => throw (.rejected (.modifierNotYetAvailable source.hash))
  | some (some b) => return .modifier b.stakeModifier
  | some none =>
    -- The selection interval is empty, and the output's own block is the one arrived at.
    match v.lookup source.hash with
    | none => throw (.missingAncestor prev source.height)
    | some id => return .modifier (← v.resolve id).stakeModifier

end StakeChain
