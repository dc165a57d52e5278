import StakeChain.Document
/-!
The tables that a TOML text builds up, statement by statement. A table may be opened by one header
only; tables on the way to a key or to a header come into being by themselves, and those of dotted
keys stay closed to headers.
-/

namespace StakeChain.Toml

/-- What a text states, in order. -/
inductive Statement where
  /-- A value for a key in the table opened last. The path leads to the key's table. -/
  | assign (path : List String) (key : String) (value : Document)
  /-- Opens the table at a path. -/
  | header (path : List String) (key : String)
  /-- Opens a new table at the end of the list at a path. -/
  | listHeader (path : List String) (key : String)

/-- What a key holds while tables are built. -/
inductive Node where
  | leaf (d : Document)
  /-- A table: opened by a header or not, and made by dotted keys or not. -/
  | table (opened dotted : Bool) (members : List (String × Node))
  /-- A list of tables, of which the last is open. -/
  | tables (items : List (List (String × Node)))

abbrev Members := List (String × Node)

/-- Members with what a key holds replaced; what it held is absent for a new key. -/
def alter (key : String) (change : Option Node → Option Node) : Members → Option Members
  | [] => (change none).map fun node => [(key, node)]
  | (k, node) :: rest =>
    if k == key then (change (some node)).map fun node => (k, node) :: rest
    else (alter key change rest).map fun rest => (k, node) :: rest

/-- Changes the table at a path. Missing tables on the way are made. `dotted` is for the path of a
dotted key, which leads through no table that a header has opened; `change` is told whether the
table at its end was made by dotted keys. -/
def descend (dotted : Bool) (change : Bool → Members → Option Members) :
    List String → Bool → Members → Option Members
  | [], here, members => change here members
  | key :: rest, _, members =>
    alter key (fun held =>
      match held with
      | none => (descend dotted change rest dotted []).map (.table false dotted)
      | some (.leaf _) => none
      | some (.table opened made inner) =>
        if dotted && opened then none
        else (descend dotted change rest made inner).map (.table opened made)
      | some (.tables items) =>
        match items.reverse with
        | [] => none
        | last :: before =>
          (descend dotted change rest false last).map fun last => .tables (last :: before).reverse)
      members

/-- Puts a value in a table, at the end of a dotted path. Each key is given once, and a path does not
end in a table that was not made by dotted keys. -/
def assign (path : List String) (key : String) (value : Document) (members : Members) :
    Option Members :=
  descend true (fun made inner =>
    if made == path.isEmpty then none
    else alter key (fun held => if held.isSome then none else some (.leaf value)) inner)
    path false members

/-- Opens a table. It is new, or came into being on the way to another header. -/
def openTable (path : List String) (key : String) (root : Members) : Option Members :=
  descend false (fun _ inner =>
    alter key (fun held =>
      match held with
      | none => some (.table true false [])
      | some (.table false false members) => some (.table true false members)
      | some _ => none) inner)
    path false root

/-- Opens a table at the end of a list of tables, which may be new. -/
def openListTable (path : List String) (key : String) (root : Members) : Option Members :=
  descend false (fun _ inner =>
    alter key (fun held =>
      match held with
      | none => some (.tables [[]])
      | some (.tables items) => some (.tables (items ++ [[]]))
      | some _ => none) inner)
    path false root

/-- Changes the table opened last, whose header has the given path. -/
def inOpenTable (path : List String) (change : Members → Option Members) (root : Members) :
    Option Members :=
  descend false (fun _ inner => change inner) path false root

/-- Follows the statements; `opened` is the path of the header before them. -/
def follow : (opened : List String) → Members → List Statement → Option Members
  | _, root, [] => some root
  | opened, root, .assign path key value :: rest =>
    (inOpenTable opened (assign path key value) root).bind fun root => follow opened root rest
  | _, root, .header path key :: rest =>
    (openTable path key root).bind fun root => follow (path ++ [key]) root rest
  | _, root, .listHeader path key :: rest =>
    (openListTable path key root).bind fun root => follow (path ++ [key]) root rest

mutual

/-- The document of a node. -/
def Node.toDocument : Node → Document
  | .leaf d => d
  | .table _ _ members => .table (membersToDocuments members)
  | .tables items => .list (tablesToDocuments items)

def membersToDocuments : List (String × Node) → List (String × Document)
  | [] => []
  | (key, node) :: rest => (key, node.toDocument) :: membersToDocuments rest

def tablesToDocuments : List (List (String × Node)) → List Document
  | [] => []
  | members :: rest => .table (membersToDocuments members) :: tablesToDocuments rest

end

/-- The document that statements build up. -/
def ofStatements? (statements : List Statement) : Option Document :=
  (follow [] [] statements).map fun root => .table (membersToDocuments root)

/-- The table that the pairs of an inline table build up. -/
def ofPairs? (pairs : List (List String × String × Document)) : Option Document :=
  (pairs.foldlM (fun members p => assign p.1 p.2.1 p.2.2 members) []).map fun members =>
    .table (membersToDocuments members)

end StakeChain.Toml
