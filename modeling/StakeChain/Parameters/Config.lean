import StakeChain.Parameters
import StakeChain.Text.Blank
import StakeChain.Text.Numeral
/-!
Parameters of private networks. A configuration starts from a built-in network and replaces some of
its values; `Config.parameters` refuses a result whose values contradict one another, and names the
field at fault.
-/

namespace StakeChain

/-- What a configuration may replace. -/
structure Config where
  base : Option String := none
  switches : Option SwitchTable := none
  v06Majority : Option SuperMajorityRule := none
  modifierInterval : Option UInt32 := none
  stakeMinAge : Option UInt32 := none
  stakeMaxAge : Option UInt32 := none
  stakeMinDepth : Option UInt32 := none
  maxClockDrift : Option UInt32 := none
  stakeTimeMask : Option UInt32 := none
  coin : Option Int64 := none
  cent : Option Int64 := none
  /-- Heights with their checksums, both as text. -/
  checkpoints : Option (SortedMap String String) := none

/-- What is wrong with a configuration. -/
inductive ConfigError where
  | unknownNetwork (name : String)
  | majorityAboveWindow (required window : UInt32)
  | zeroInterval
  | maxAgeBelowMinAge (maxAge minAge : UInt32)
  | maskNotOnes (mask : UInt32)
  | coinNotPositive
  | centNotDividing (cent coin : Int64)
  | checkpointHeight (text : String)
  | checkpointChecksum (text : String) (height : Nat)
deriving DecidableEq

namespace ConfigError

/-- The field at fault. -/
def field : ConfigError → String
  | unknownNetwork _ => "base"
  | majorityAboveWindow _ _ => "v06_super_majority"
  | zeroInterval => "modifier_interval"
  | maxAgeBelowMinAge _ _ => "stake_max_age"
  | maskNotOnes _ => "stake_timestamp_mask"
  | coinNotPositive => "coin"
  | centNotDividing _ _ => "cent"
  | checkpointHeight _ => "checkpoints"
  | checkpointChecksum _ _ => "checkpoints"

/-- What is wrong with it. -/
def reason : ConfigError → String
  | unknownNetwork name => s!"unknown network '{name}'"
  | majorityAboveWindow required window => s!"required {required} exceeds window {window}"
  | zeroInterval => "must be greater than zero"
  | maxAgeBelowMinAge maxAge minAge => s!"{maxAge} is below stake_min_age {minAge}"
  | maskNotOnes mask => s!"{Text.markedHex 0 mask.toNat} is not of the form 2^n - 1"
  | coinNotPositive => "must be positive"
  | centNotDividing cent coin => s!"{cent} must be positive and divide coin {coin}"
  | checkpointHeight text => s!"invalid height '{text}'"
  | checkpointChecksum text height => s!"invalid checksum '{text}' at height {height}"

def message (e : ConfigError) : String := s!"NetworkParameters error for '{e.field}': {e.reason}"

end ConfigError

/-- Whether the low bits of a mask, up to some place, are set and all others clear. -/
def isLowOnes (mask : UInt32) : Bool := (mask + 1) &&& mask == 0

/-- One checkpoint from its texts: a decimal height, and a hexadecimal checksum with or without a
mark. Blanks around either are dropped. -/
def Checkpoints.parseEntry (entry : String × String) : Except ConfigError (Nat × UInt32) :=
  match Text.word32? 10 (Text.trim entry.1.toList) with
  | none => .error (.checkpointHeight entry.1)
  | some height =>
    match Text.word32? 16 (Text.dropHexMark (Text.trim entry.2.toList)) with
    | none => .error (.checkpointChecksum entry.2 height.toNat)
    | some checksum => .ok (height.toNat, checksum)

/-- Checkpoints from their texts, taken in the order of the height texts: of two texts for one
height the later one counts. -/
def Checkpoints.parse (table : SortedMap String String) : Except ConfigError Checkpoints :=
  (table.entries.mapM parseEntry).map .ofList

namespace Config

/-- The built-in network to start from. -/
def baseNetwork (c : Config) : Except ConfigError Network :=
  match c.base with
  | none => .ok .regtest
  | some name =>
    match Network.ofName? name with
    | none => .error (.unknownNetwork name)
    | some network => .ok network

/-- `error` where the value is given and breaks the rule. -/
def check {α : Type} (given : Option α) (ok : α → Bool) (error : α → ConfigError) :
    Except ConfigError Unit :=
  match given with
  | none => .ok ()
  | some x => if ok x then .ok () else .error (error x)

/-- The base network's parameters with the configuration's values in place of its own. -/
def parameters (c : Config) : Except ConfigError Parameters := do
  let base := Parameters.ofNetwork (← c.baseNetwork)
  check c.v06Majority (fun r => r.required ≤ r.window) fun r => .majorityAboveWindow r.required r.window
  check c.modifierInterval (· != 0) fun _ => .zeroInterval
  let minAge := c.stakeMinAge.getD base.stakeMinAge
  let maxAge := c.stakeMaxAge.getD base.stakeMaxAge
  if maxAge < minAge then throw (.maxAgeBelowMinAge maxAge minAge)
  check c.stakeTimeMask isLowOnes .maskNotOnes
  check c.coin (0 < ·) fun _ => .coinNotPositive
  let coin := c.coin.getD base.coin
  check c.cent (fun cent => 0 < cent && coin % cent == 0) (.centNotDividing · coin)
  let checkpoints ← (c.checkpoints.map Checkpoints.parse).getD (.ok base.checkpoints)
  return {
    network := base.network
    switches := c.switches.getD base.switches
    v06Majority := c.v06Majority.getD base.v06Majority
    modifierInterval := c.modifierInterval.getD base.modifierInterval
    stakeMinAge := minAge
    stakeMaxAge := maxAge
    stakeMinDepth := c.stakeMinDepth.getD base.stakeMinDepth
    maxClockDrift := c.maxClockDrift.getD base.maxClockDrift
    stakeTimeMask := c.stakeTimeMask.getD base.stakeTimeMask
    coin := coin
    cent := c.cent.getD base.cent
    checkpoints := checkpoints }

end Config

end StakeChain
