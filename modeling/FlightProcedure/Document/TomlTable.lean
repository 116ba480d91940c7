import FlightProcedure.Document.Basic

/-!
# Tables of TOML while they are read

Headers and dotted names make tables on their way. A table that only lies on the way of a header can
still get a header of its own; a table that a dotted name made can get further dotted names, and no
header. Lists of tables grow by one table with each of their headers, and names lead to the last one.
-/

namespace FlightProcedure.Toml

inductive TableOrigin where
  | header
  /-- It lies on the way of a header. -/
  | passed
  | dotted
deriving DecidableEq

inductive Node where
  /-- A value, which nothing can be added to. -/
  | value (document : Document)
  | table (origin : TableOrigin) (entries : List (String × Node))
  /-- A list of tables, the last one first. -/
  | tables (last : List (String × Node)) (before : List (List (String × Node)))

abbrev Entries := List (String × Node)

namespace Entries

def set (entries : Entries) (name : String) (node : Node) : Entries :=
  match entries with
  | [] => [(name, node)]
  | (other, old) :: rest =>
    if other = name then (name, node) :: rest else (other, old) :: set rest name node

/-- Entries changed at the end of the way of a header. Tables that are missing are made. -/
def along (change : Entries → Option Entries) : List String → Entries → Option Entries
  | [], entries => change entries
  | name :: way, entries =>
    match entries.lookup name with
    | none => (along change way []).map fun inner => set entries name (.table .passed inner)
    | some (.table origin inner) =>
      (along change way inner).map fun inner => set entries name (.table origin inner)
    | some (.tables last before) =>
      (along change way last).map fun last => set entries name (.tables last before)
    | some (.value _) => none

def open? (name : String) (entries : Entries) : Option Entries :=
  match entries.lookup name with
  | none => some (set entries name (.table .header []))
  | some (.table .passed inner) => some (set entries name (.table .header inner))
  | some _ => none

def push? (name : String) (entries : Entries) : Option Entries :=
  match entries.lookup name with
  | none => some (set entries name (.tables [] []))
  | some (.tables last before) => some (set entries name (.tables [] (last :: before)))
  | some _ => none

/-- Entries with a value. The name must be new. -/
def add? (name : String) (value : Document) (entries : Entries) : Option Entries :=
  match entries.lookup name with
  | none => some (set entries name (.value value))
  | some _ => none

/-- Entries with a value under a dotted name. The flag says whether the entries belong to a table that a
dotted name made, or to the table in which the name is written. -/
def addDotted? (value : Document) (last : String) : List String → Bool → Entries → Option Entries
  | [], open_, entries => if open_ then add? last value entries else none
  | name :: way, _, entries =>
    match entries.lookup name with
    | none =>
      (addDotted? value last way true []).map fun inner => set entries name (.table .dotted inner)
    | some (.table .dotted inner) =>
      (addDotted? value last way true inner).map fun inner =>
        set entries name (.table .dotted inner)
    | some (.table .passed inner) =>
      (addDotted? value last way false inner).map fun inner =>
        set entries name (.table .passed inner)
    | some _ => none

end Entries

mutual

def Node.toDocument : Node → Document
  | .value document => document
  | .table _ entries => .table (entriesDocument entries)
  | .tables last before => .list (tablesDocument before ++ [.table (entriesDocument last)])

def entriesDocument : List (String × Node) → List (String × Document)
  | [] => []
  | entry :: rest => entryDocument entry :: entriesDocument rest

def entryDocument : String × Node → String × Document
  | (name, node) => (name, node.toDocument)

def tablesDocument : List (List (String × Node)) → List Document
  | [] => []
  | entries :: rest => tablesDocument rest ++ [.table (entriesDocument entries)]

end

end FlightProcedure.Toml
