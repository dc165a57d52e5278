import StakeChain.Network
import StakeChain.SortedMap
/-!
The numbers that the stake rules depend on, and their values on the built-in networks.
-/

namespace StakeChain

/-- Modifier checksums pinned to heights. -/
abbrev Checkpoints := SortedMap Nat UInt32

structure Parameters where
  network : Network
  switches : SwitchTable
  v06Majority : SuperMajorityRule
  /-- Seconds between two generations of the stake modifier. -/
  modifierInterval : UInt32
  /-- Seconds before an output may stake. -/
  stakeMinAge : UInt32
  /-- Seconds after which an output gains no more weight. -/
  stakeMaxAge : UInt32
  /-- Confirmations that an output needs at the height of the block it stakes in. -/
  stakeMinDepth : UInt32
  /-- How far a block's time may be ahead of its coinstake's, before version 0.3. -/
  maxClockDrift : UInt32
  /-- The bits that are clear in a coinstake's time, from version 0.9 on. -/
  stakeTimeMask : UInt32
  /-- Base units in a coin. -/
  coin : Int64
  /-- Base units in a cent. -/
  cent : Int64
  checkpoints : Checkpoints
deriving DecidableEq

namespace Parameters

def mainnet : Parameters where
  network := .mainnet
  switches := {
    v03 := 1363800000
    v04 := 1399300000
    v05 := 1461700000
    v06 := 1513050000
    v07 := 1552392000
    btc16Bips := 1569931200
    v09 := 1591617600
    v10 := 1635768000
    v12 := 1681732800 }
  v06Majority := ⟨2, 900, 1000⟩
  modifierInterval := 6 * 60 * 60
  stakeMinAge := 30 * 24 * 60 * 60
  stakeMaxAge := 90 * 24 * 60 * 60
  stakeMinDepth := 500
  maxClockDrift := 2 * 60 * 60
  stakeTimeMask := 15
  coin := 1000000
  cent := 10000
  checkpoints := .ofList [
    (0, 0x0e00670b), (19080, 0xad4e4d29), (30583, 0xdc7bf136), (99999, 0xf555cfd2),
    (219999, 0x91b7444d), (336000, 0x6c3c8048), (371850, 0x9b850bdf), (407813, 0x46fe50b5)]

def testnet : Parameters where
  network := .testnet
  switches := {
    v03 := 1359781000
    v04 := 1395700000
    v05 := 1447700000
    v06 := 1508198400
    v07 := 1541505600
    btc16Bips := 1554811200
    v09 := 1581940800
    v10 := 1625140800
    v12 := 1669636800 }
  v06Majority := ⟨2, 90, 100⟩
  modifierInterval := 20 * 60
  stakeMinAge := 24 * 60 * 60
  stakeMaxAge := 90 * 24 * 60 * 60
  stakeMinDepth := 60
  maxClockDrift := 2 * 60 * 60
  stakeTimeMask := 15
  coin := 1000000
  cent := 10000
  checkpoints := .ofList [
    (0, 0x0e00670b), (19080, 0x3711dc3a), (30583, 0xb480fade), (99999, 0x9a62eaec),
    (219999, 0xeafe96c3), (336000, 0x8330dc09), (372751, 0xafb94e2f), (382019, 0x7f5cf5eb),
    (408500, 0x68cadee2), (412691, 0x93138e67)]

/-- A network for tests: every version in force, short times, no checkpoints. -/
def regtest : Parameters where
  network := .regtest
  switches := .allActive
  v06Majority := ⟨2, 90, 100⟩
  modifierInterval := 60
  stakeMinAge := 60 * 60
  stakeMaxAge := 3 * 60 * 60
  stakeMinDepth := 10
  maxClockDrift := 2 * 60 * 60
  stakeTimeMask := 15
  coin := 1000000
  cent := 10000
  checkpoints := .empty

def ofNetwork : Network → Parameters
  | .mainnet => mainnet
  | .testnet => testnet
  | .regtest => regtest

/-- The distance in seconds between two times at which coins may stake, from version 0.9 on. -/
def stakeTimeGranularity (p : Parameters) : UInt32 := p.stakeTimeMask + 1

/-- Base units in a coin, as the unsigned word that weights are divided by. -/
def coinUnits (p : Parameters) : Nat := p.coin.toUInt64.toNat

/-- Base units in a cent, as the unsigned word that ages are divided by. -/
def centUnits (p : Parameters) : Nat := p.cent.toUInt64.toNat

/-- The same rules without any checkpoint. -/
def withoutCheckpoints (p : Parameters) : Parameters := { p with checkpoints := .empty }

end Parameters

end StakeChain
