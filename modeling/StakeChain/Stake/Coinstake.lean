import StakeChain.Stake.Kernel
/-!
The check of a coinstake. Three gates come one after another: what it spends is an output on the
branch it extends, its times keep the rules, and its kernel meets the target.
-/

namespace StakeChain

/-- The rules for a coinstake's time in a block. From version 0.9 on the time lies on a grid. From
version 0.3 on it is the block's time; before, the block may be later by the allowed drift. -/
def Parameters.checkCoinstakeTime (p : Parameters) (blockTime txTime : UInt32) :
    Except Rejection Unit :=
  if p.inForce .v09 txTime && txTime &&& p.stakeTimeMask != 0 then
    .error (.timeGranularity txTime p.stakeTimeGranularity)
  else
    let ok :=
      if p.inForce .v03 txTime then blockTime == txTime
      else txTime ≤ blockTime && blockTime.toNat ≤ txTime.toNat + p.maxClockDrift.toNat
    if ok then .ok () else .error (.coinstakeTime blockTime txTime)

namespace View

/-- The source that a coinstake spends, when its block is on the branch that ends at `prev`. -/
def kernelSource (v : View) (outputs : OutputView) (prev : Nat) (tx : Transaction) :
    Except ConsensusError StakeSource := do
  match tx.kernelInput? with
  | none => throw (.rejected (.notCoinstake tx.txid))
  | some prevout =>
    let source ← outputs.source prevout
    let found := (v.ancestor prev source.block.height).bind v.position
    if found.map Position.hash != some source.block.hash then
      throw (.rejected (.prevoutNotInChain prevout source.block.hash))
    return source

/-- The proof of a coinstake in a block at `blockTime` after `prev`. A coinstake without a time of
its own has the block's. -/
def checkCoinstake (v : View) (outputs : OutputView) (p : Parameters) (prev : Nat) (tx : Transaction)
    (nBits blockTime : UInt32) : Except ConsensusError Hash := do
  let source ← v.kernelSource outputs prev tx
  let time := tx.time.getD blockTime
  (p.checkCoinstakeTime blockTime time).mapError .rejected
  let depth := (← v.resolve prev).height - source.block.height
  let required := p.stakeMinDepth.toNat - 1
  if depth < required then throw (.rejected (.tooShallow depth required))
  let m ← v.kernelModifier p prev source.block time
  (source.checkKernel p m nBits time).mapError .rejected

end View

end StakeChain
