/-!
Documents: the common shape of JSON texts and of configuration files, and the reading of records
from them. A record is a table with known field names, or a list of the fields' values in order.
-/

namespace StakeChain

inductive Document where
  | null
  | bool (b : Bool)
  | int (n : Int)
  /-- A number written with a fraction or an exponent, or as minus zero: no integer. -/
  | decimal (literal : String)
  | string (s : String)
  | list (items : List Document)
  | table (members : List (String × Document))
  /-- Well formed, but without a reading: a string, or a table with a key, that spells no text. -/
  | unreadable
deriving Inhabited

namespace Document

/-- The value of a table's only member of that name; `none` outside for a name that is repeated. -/
def member? (members : List (String × Document)) (name : String) : Option (Option Document) :=
  match members.filter fun m => m.1 == name with
  | [] => some none
  | [m] => some (some m.2)
  | _ => none

/-- The values of a record's fields, each absent or present. A table's other members are passed
over; a list may be shorter than the record, and longer only where `surplus` allows it. -/
def fieldsWith? (surplus : Bool) (names : List String) : Document → Option (List (Option Document))
  | table members => names.mapM (member? members)
  | list items =>
    if surplus || items.length ≤ names.length then
      some ((List.range names.length).map fun i => items[i]?)
    else none
  | _ => none

/-- The values of a record's fields; a list is not longer than the record. -/
def fields? (names : List String) (d : Document) : Option (List (Option Document)) :=
  d.fieldsWith? false names

/-- A field that has to be there. -/
def required {α : Type} (decode : Document → Option α) (field : Option Document) : Option α :=
  field.bind decode

/-- A field that may be absent or null. -/
def optional {α : Type} (decode : Document → Option α) : Option Document → Option (Option α)
  | none => some none
  | some null => some none
  | some d => (decode d).map some

/-- A field that has a value of its own where it is absent. -/
def defaulted {α : Type} (value : α) (decode : Document → Option α) : Option Document → Option α
  | none => some value
  | some d => decode d

/-- All elements of a list. -/
def listOf? {α : Type} (decode : Document → Option α) : Document → Option (List α)
  | list items => items.mapM decode
  | _ => none

def string? : Document → Option String
  | string s => some s
  | _ => none

/-- An integer from `low` up to, and without, `high`. -/
def intWithin? (low high : Int) : Document → Option Int
  | int n => if low ≤ n ∧ n < high then some n else none
  | _ => none

def nat32? (d : Document) : Option Nat := (d.intWithin? 0 UInt32.size).map Int.toNat

def uint8? (d : Document) : Option UInt8 := (d.intWithin? 0 UInt8.size).map fun n => UInt8.ofNat n.toNat

def uint32? (d : Document) : Option UInt32 := d.nat32?.map UInt32.ofNat

def uint64? (d : Document) : Option UInt64 :=
  (d.intWithin? 0 UInt64.size).map fun n => UInt64.ofNat n.toNat

def int32? (d : Document) : Option Int32 := (d.intWithin? (-0x80000000) 0x80000000).map Int32.ofInt

def int64? (d : Document) : Option Int64 :=
  (d.intWithin? (-0x8000000000000000) 0x8000000000000000).map Int64.ofInt

/-- Anything, written as null where it is absent. -/
def ofOption {α : Type} (encode : α → Document) : Option α → Document
  | none => null
  | some x => encode x

def nat (n : Nat) : Document := int n

end Document

end StakeChain
