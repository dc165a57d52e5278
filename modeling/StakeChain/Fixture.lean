import StakeChain.Json.Printer
import StakeChain.Json.Reader
import StakeChain.Record.Block
/-!
Chain fixtures: the blocks of a chain in the order they are to be accepted, and the network they are
for. A fixture is kept as a JSON text, laid out for reading.
-/

namespace StakeChain

structure Fixture where
  network : Network
  blocks : List CandidateBlock
deriving DecidableEq

namespace Fixture

open Document

def toDocument (f : Fixture) : Document :=
  .table [("network", f.network.toDocument), ("blocks", .list (f.blocks.map CandidateBlock.toDocument))]

def ofDocument? (d : Document) : Option Fixture := do
  match ← d.fields? ["network", "blocks"] with
  | [network, blocks] =>
    return ⟨← required Network.ofDocument? network,
      ← required (listOf? CandidateBlock.ofDocument?) blocks⟩
  | _ => none

/-- The fixture that a text holds. -/
def load? (text : String) : Option Fixture := (Json.read? text).bind ofDocument?

/-- The text that holds a fixture. -/
def save (f : Fixture) : String := Json.writePretty f.toDocument

end Fixture

end StakeChain
