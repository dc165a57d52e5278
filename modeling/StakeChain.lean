import StakeChain.Main
import StakeChain.Proofs.ClaimedTime
import StakeChain.Proofs.ConfiguredCheckpoints
import StakeChain.Proofs.Damage
import StakeChain.Proofs.Draw
import StakeChain.Proofs.Gates
import StakeChain.Proofs.HashText
import StakeChain.Proofs.HashedMessage
import StakeChain.Proofs.Internal
import StakeChain.Proofs.Ledger
import StakeChain.Proofs.Locality
import StakeChain.Proofs.NoFault
import StakeChain.Proofs.OutputSet
import StakeChain.Proofs.Recompute
import StakeChain.Proofs.Renewal
import StakeChain.Proofs.Replay
import StakeChain.Proofs.Report
import StakeChain.Proofs.RoundTrip
import StakeChain.Proofs.Schedule
import StakeChain.Proofs.Sections
import StakeChain.Proofs.StakeGrid
import StakeChain.Proofs.SuperMajority
import StakeChain.Proofs.Table
import StakeChain.Proofs.Validity
