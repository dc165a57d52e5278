import StakeChain.Document
import StakeChain.Entropy
import StakeChain.Hash.Text
import StakeChain.Network
/-!
How hashes, byte strings and network names stand in documents.
-/

namespace StakeChain

open Document

namespace Hash

def toDocument (h : Hash) : Document := .string (toString h)

/-- A hash is read as leniently as one that a user types. -/
def ofDocument? (d : Document) : Option Hash := d.string?.bind fun s => (parse s).toOption

end Hash

namespace Text.Hex

/-- Bytes as hexadecimal text. -/
def toDocument (bs : List UInt8) : Document := .string (String.ofList (encode bs))

def ofDocument? (d : Document) : Option (List UInt8) :=
  d.string?.bind fun s => (decode s.toList).toOption

end Text.Hex

namespace SignatureDigest

def toDocument (digest : SignatureDigest) : Document := Text.Hex.toDocument digest.toList

/-- Exactly twenty bytes. -/
def ofDocument? (d : Document) : Option SignatureDigest :=
  (Text.Hex.ofDocument? d).bind fun bs =>
    if h : bs.length = 20 then some ⟨bs.toArray, by simpa using h⟩ else none

end SignatureDigest

namespace Network

def toDocument (n : Network) : Document := .string n.name

/-- The network of that name, written as it is shown. -/
def ofExactName? (s : String) : Option Network := all.find? fun n => n.name == s

/-- A name, or a table that gives the name null. -/
def ofDocument? : Document → Option Network
  | .string s => ofExactName? s
  | .table [(s, .null)] => ofExactName? s
  | _ => none

end Network

end StakeChain
