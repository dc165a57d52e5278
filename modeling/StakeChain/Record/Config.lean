import StakeChain.Document
import StakeChain.Parameters.Config
/-!
Configurations as records. Every field may be absent; the table of switches and the majority rule
are given whole or not at all.
-/

namespace StakeChain

open Document

namespace SwitchTable

def toDocument (s : SwitchTable) : Document :=
  .table [
    ("v03", .nat s.v03.toNat),
    ("v04", .nat s.v04.toNat),
    ("v05", .nat s.v05.toNat),
    ("v06", .nat s.v06.toNat),
    ("v07", .nat s.v07.toNat),
    ("btc16_bips", .nat s.btc16Bips.toNat),
    ("v09", .nat s.v09.toNat),
    ("v10", .nat s.v10.toNat),
    ("v12", .nat s.v12.toNat)]

def ofDocument? (surplus : Bool) (d : Document) : Option SwitchTable := do
  let fields ← d.fieldsWith? surplus
    ["v03", "v04", "v05", "v06", "v07", "btc16_bips", "v09", "v10", "v12"]
  match ← fields.mapM (required uint32?) with
  | [v03, v04, v05, v06, v07, btc16Bips, v09, v10, v12] =>
    return ⟨v03, v04, v05, v06, v07, btc16Bips, v09, v10, v12⟩
  | _ => none

end SwitchTable

namespace SuperMajorityRule

def toDocument (r : SuperMajorityRule) : Document :=
  .table [
    ("min_version", .int r.minVersion.toInt),
    ("required", .nat r.required.toNat),
    ("window", .nat r.window.toNat)]

def ofDocument? (surplus : Bool) (d : Document) : Option SuperMajorityRule := do
  match ← d.fieldsWith? surplus ["min_version", "required", "window"] with
  | [minVersion, atLeast, window] =>
    return ⟨← Document.required int32? minVersion, ← Document.required uint32? atLeast,
      ← Document.required uint32? window⟩
  | _ => none

end SuperMajorityRule

/-- The members of a table whose values are all strings. Of equal keys the last one counts. -/
def Document.stringTable? : Document → Option (SortedMap String String)
  | .table members => do
    let entries ← members.mapM fun m => m.2.string?.map fun s => (m.1, s)
    return .ofList entries
  | _ => none

/-- A configuration. In its tables, `surplus` says whether a list may be longer than the record. -/
def Config.ofDocument? (surplus : Bool) (d : Document) : Option Config := do
  match ← d.fieldsWith? surplus ["base", "switches", "v06_super_majority", "modifier_interval",
      "stake_min_age", "stake_max_age", "stake_min_depth", "max_clock_drift",
      "stake_timestamp_mask", "coin", "cent", "checkpoints"] with
  | [base, switches, v06Majority, modifierInterval, stakeMinAge, stakeMaxAge, stakeMinDepth,
      maxClockDrift, stakeTimeMask, coin, cent, checkpoints] =>
    return {
      base := ← optional string? base
      switches := ← optional (SwitchTable.ofDocument? surplus) switches
      v06Majority := ← optional (SuperMajorityRule.ofDocument? surplus) v06Majority
      modifierInterval := ← optional uint32? modifierInterval
      stakeMinAge := ← optional uint32? stakeMinAge
      stakeMaxAge := ← optional uint32? stakeMaxAge
      stakeMinDepth := ← optional uint32? stakeMinDepth
      maxClockDrift := ← optional uint32? maxClockDrift
      stakeTimeMask := ← optional uint32? stakeTimeMask
      coin := ← optional int64? coin
      cent := ← optional int64? cent
      checkpoints := ← optional stringTable? checkpoints }
  | _ => none

end StakeChain
