import DeflateEcho.Toml.Value

/-!
# Toml/Document — tables that grow statement by statement

A file is a list of statements: headers, which say where what follows belongs, and assignments.
A table remembers how it came about, since that decides who may add to it: a header may open a table
once, and one that is there only because a longer header named it still counts as unopened; dotted
keys may add only to tables that dotted keys made.

Keys stand in the order in which they first appeared, but for the tables that headers open: such a
table stands where its own header puts it, behind all that was there, even if a longer header had
named it before.
-/

namespace DeflateEcho.Toml

/-- How a table came about. -/
inductive Origin where
  /-- It is the whole file, or a header opened it. -/
  | header
  /-- A header named something inside it. -/
  | implied
  /-- A dotted key named something inside it. -/
  | dotted
  deriving DecidableEq, Repr

/-- What stands at a key while a file is read. -/
inductive Node where
  | value (v : Value)
  | table (origin : Origin) (entries : List (String × Node))
  /-- A list of tables, each opened by a header of its own; the last one opened comes first. -/
  | tables (elements : List (List (String × Node)))

/-- The keys of a table and what stands at them, in their order. -/
abbrev Entries := List (String × Node)

namespace Entries

/-- What stands at a key. -/
def find? (entries : Entries) (key : String) : Option Node :=
  List.lookup key entries

/-- Puts something at a key: in its place if the key is there, else at the end. -/
def put (key : String) (node : Node) : Entries → Entries
  | [] => [(key, node)]
  | entry :: entries =>
    if entry.1 = key then (key, node) :: entries else entry :: put key node entries

/-- Puts something at a key, at the end: what stood there is taken away first. -/
def putLast (key : String) (node : Node) (entries : Entries) : Entries :=
  entries.filter (fun entry => entry.1 ≠ key) ++ [(key, node)]

end Entries

/-- A change of a table, which may be refused; it may depend on how the table came about. -/
abbrev Change := Origin → Entries → Option Entries

/-- Carries out a change in the table at a path.  Tables on the way that are not there come about;
of a list of tables the last one is meant.  Dotted keys may not pass through a table with a
header. -/
def changeAt (dotted : Bool) (change : Change) : (path : List String) → Change
  | [], origin, entries => change origin entries
  | key :: path, _, entries => do
    match entries.find? key with
    | none =>
      let origin := if dotted then Origin.dotted else .implied
      let inner ← changeAt dotted change path origin []
      some (entries.put key (.table origin inner))
    | some (.value _) => none
    | some (.tables []) => none
    | some (.tables (last :: earlier)) =>
      let inner ← changeAt dotted change path .header last
      some (entries.put key (.tables (inner :: earlier)))
    | some (.table origin inner) =>
      if dotted ∧ origin = .header then none
      else
        let inner ← changeAt dotted change path origin inner
        some (entries.put key (.table origin inner))

/-- Opens a table with a header.  One that longer headers named keeps what they put into it, but not
its place. -/
def openTable (key : String) : Change := fun _ entries =>
  match entries.find? key with
  | none => some (entries.putLast key (.table .header []))
  | some (.table .implied inner) => some (entries.putLast key (.table .header inner))
  | some _ => none

/-- Opens a further table of a list with a header. -/
def openElement (key : String) : Change := fun _ entries =>
  match entries.find? key with
  | none => some (entries.put key (.tables [[]]))
  | some (.tables elements) => some (entries.put key (.tables ([] :: elements)))
  | some _ => none

/-- Puts a value at a new key of a table; dotted keys may do so only in a table that dotted keys
made. -/
def putValue (dotted : Bool) (key : String) (v : Value) : Change := fun origin entries =>
  if dotted ≠ (origin = .dotted) then none
  else
    match entries.find? key with
    | none => some (entries.put key (.value v))
    | some _ => none

/-- Assigns a value to a dotted key of a table. -/
def assign (path : List String) (v : Value) : Change := fun origin entries =>
  match path.reverse with
  | [] => none
  | key :: tables =>
    changeAt true (putValue (!tables.isEmpty) key v) tables.reverse origin entries

/-! ## Statements -/

/-- A statement of a file. -/
inductive Statement where
  | tableHeader (path : List String)
  | elementHeader (path : List String)
  | assignment (path : List String) (value : Value)
  deriving Repr

/-- Carries out a change of the last table on a path. -/
def changeParent (change : String → Change) (path : List String) (entries : Entries) :
    Option Entries :=
  match path.reverse with
  | [] => none
  | key :: tables => changeAt false (change key) tables.reverse .header entries

/-- A file while it is read: its tables, and the path of the header in force. -/
structure Document where
  entries : Entries := []
  current : List String := []

/-- What a statement makes of a file. -/
def Document.add (d : Document) : Statement → Option Document
  | .tableHeader path => (changeParent openTable path d.entries).map fun entries => ⟨entries, path⟩
  | .elementHeader path =>
    (changeParent openElement path d.entries).map fun entries => ⟨entries, path⟩
  | .assignment path v =>
    (changeAt false (assign path v) d.current .header d.entries).map fun entries =>
      { d with entries }

/-! ## Values -/

mutual

/-- The value that stands at a key in the end. -/
def Node.toValue : Node → Value
  | .value v => v
  | .table _ entries => .table (Node.entryValues entries)
  | .tables elements => .array (Node.tableValues elements).reverse

/-- The values at the keys of a table. -/
def Node.entryValues : List (String × Node) → List (String × Value)
  | [] => []
  | (key, node) :: entries => (key, node.toValue) :: Node.entryValues entries

/-- The tables of a list, in the order in which they stand. -/
def Node.tableValues : List (List (String × Node)) → List Value
  | [] => []
  | entries :: elements => .table (Node.entryValues entries) :: Node.tableValues elements

end

/-- **The table that statements give**, if none of them is refused. -/
def Document.ofStatements (statements : List Statement) : Option (List (String × Value)) :=
  (statements.foldlM Document.add {}).map fun d => Node.entryValues d.entries

/-- The table that assignments alone give. -/
def tableOf (assignments : List (List String × Value)) : Option (List (String × Value)) :=
  Document.ofStatements (assignments.map fun (path, v) => .assignment path v)

end DeflateEcho.Toml
