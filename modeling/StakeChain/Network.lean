/-!
The three networks, and the shape of what differs between them: the times at which versions of the
protocol switch on, and the majority that one of them needs besides.
-/

namespace StakeChain

inductive Network where
  | mainnet
  | testnet
  | regtest
deriving DecidableEq

namespace Network

def all : List Network := [mainnet, testnet, regtest]

def name : Network → String
  | mainnet => "mainnet"
  | testnet => "testnet"
  | regtest => "regtest"

instance : ToString Network := ⟨name⟩

/-- The names a user may give, ASCII letters in either case. -/
def ofName? (text : String) : Option Network :=
  match text.toLower with
  | "mainnet" | "main" => some mainnet
  | "testnet" | "test" => some testnet
  | "regtest" => some regtest
  | _ => none

end Network

/-- From when on each version of the protocol is in force. -/
structure SwitchTable where
  v03 : UInt32
  v04 : UInt32
  v05 : UInt32
  /-- The earliest time of the one version that also needs a majority. -/
  v06 : UInt32
  v07 : UInt32
  btc16Bips : UInt32
  v09 : UInt32
  v10 : UInt32
  v12 : UInt32
deriving DecidableEq

/-- Every version in force from the first block. -/
def SwitchTable.allActive : SwitchTable := ⟨0, 0, 0, 0, 0, 0, 0, 0, 0⟩

/-- At least `required` of the last `window` proof-of-stake blocks have version `minVersion` or later. -/
structure SuperMajorityRule where
  minVersion : Int32
  required : UInt32
  window : UInt32
deriving DecidableEq

end StakeChain
