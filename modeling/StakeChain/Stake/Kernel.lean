import StakeChain.Modifier.Kernel
import StakeChain.Stake.Weight
/-!
The kernel of a stake: a hash that no one could compute when the staked output was confirmed, and
that must not exceed a target in proportion to the output's coin-days.
-/

namespace StakeChain

/-- What is hashed for a kernel. Block time and byte offset only keep outputs apart. -/
def kernelMessage (m : KernelModifier) (nBits blockTime txOffset prevTime vout time : UInt32) :
    List UInt8 :=
  (match m with
    | .modifier value => word64 value
    | .legacyBits => word32 nBits) ++
  word32 blockTime ++ word32 txOffset ++ word32 prevTime ++ word32 vout ++ word32 time

def kernelHash (m : KernelModifier) (nBits blockTime txOffset prevTime vout time : UInt32) : Hash :=
  .doubleSha256 (kernelMessage m nBits blockTime txOffset prevTime vout time)

/-- Whether coins may stake at a time: from version 0.9 on, only where the masked bits are clear. -/
def Parameters.isStakeTime (p : Parameters) (time : UInt32) : Bool :=
  !p.inForce .v09 time || time &&& p.stakeTimeMask == 0

namespace StakeSource

/-- The kernel hash of staking the source at `time`. -/
def kernelHash (s : StakeSource) (m : KernelModifier) (nBits time : UInt32) : Hash :=
  StakeChain.kernelHash m nBits s.block.time s.txOffset s.effectiveTime s.outpoint.vout time

/-- The stake is not earlier than the transaction it spends, and the output has the minimum age. -/
def checkTimes (s : StakeSource) (p : Parameters) (time : UInt32) : Except Rejection Unit :=
  if time < s.effectiveTime then .error (.timeBeforePrevious time s.effectiveTime)
  else if time.toNat < s.block.time.toNat + p.stakeMinAge.toNat then
    .error (.belowMinAge s.block.time p.stakeMinAge time)
  else .ok ()

/-- The proof of staking the source at `time`, when its kernel hash meets the weighted target. -/
def checkKernel (s : StakeSource) (p : Parameters) (m : KernelModifier) (nBits time : UInt32) :
    Except Rejection Hash := do
  s.checkTimes p time
  let proof := s.kernelHash m nBits time
  if p.weightedTarget nBits s.output.value s.effectiveTime time < proof.toNat then
    throw (.targetMissed proof)
  return proof

end StakeSource

end StakeChain
