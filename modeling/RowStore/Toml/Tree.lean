/-!
# Configuration trees

* `Toml` : a node of a document's tree;
* `Toml.put` : a key under dotted keys, as a line of a table or an inline table puts it there;
* `Document` : the tree of the lines read so far; `Document.openTable`, `Document.openItem` for the
  two kinds of header, `Document.put` for a key, `Document.close` at the end.

A table is written once: by one header, by the dotted keys of one table, or inline.
-/

namespace RowStore

inductive TableOrigin where
  /-- By a header of its own. -/
  | header
  /-- As the parent in the header of another table. -/
  | parent
  /-- By dotted keys. -/
  | dotted
  /-- Between braces. -/
  | inline
deriving DecidableEq

/-- A node of a document's tree. -/
inductive Toml where
  | string (s : String)
  | boolean (b : Bool)
  /-- A number or a date. -/
  | scalar
  | array (items : List Toml)
  | table (origin : TableOrigin) (entries : List (String × Toml))
  /-- The tables under headers in double brackets. -/
  | tables (items : List (List (String × Toml)))

namespace Toml

abbrev Entries := List (String × Toml)

def find? (key : String) (entries : Entries) : Option Toml := entries.lookup key

/-- Binds a key, in place of its binding if it has one. -/
def replace (key : String) (node : Toml) : Entries → Entries
  | [] => [(key, node)]
  | e :: es => if e.1 = key then (key, node) :: es else e :: replace key node es

def add? (key : String) (node : Toml) (entries : Entries) : Option Entries :=
  if (find? key entries).isSome then none else some (entries ++ [(key, node)])

/-- Changes the table at a path of dotted keys.  The path may pass through tables that dotted keys
made, through parents that only headers name, and through the last of several tables; the table at
its end is one that dotted keys made. -/
def alterDotted (f : Entries → Option Entries) : List String → Entries → Option Entries
  | [], entries => f entries
  | key :: path, entries =>
    match find? key entries with
    | none => (alterDotted f path []).map fun inner => entries ++ [(key, table .dotted inner)]
    | some (table .dotted inner) =>
      (alterDotted f path inner).map fun inner => replace key (table .dotted inner) entries
    | some (table .parent inner) =>
      if path.isEmpty then none
      else (alterDotted f path inner).map fun inner => replace key (table .parent inner) entries
    | some (tables items) =>
      match path.isEmpty, items.getLast? with
      | false, some last =>
        (alterDotted f path last).map fun last =>
          replace key (tables (items.dropLast ++ [last])) entries
      | _, _ => none
    | some _ => none

def put (path : List String) (key : String) (node : Toml) (entries : Entries) : Option Entries :=
  alterDotted (add? key node) path entries

/-- Changes the table at a path of a header, which passes through tables of any origin but the
inline ones, and through the last of several tables. -/
def alterHeader (f : Entries → Option Entries) : List String → Entries → Option Entries
  | [], entries => f entries
  | key :: path, entries =>
    match find? key entries with
    | none => (alterHeader f path []).map fun inner => entries ++ [(key, table .parent inner)]
    | some (table .inline _) => none
    | some (table origin inner) =>
      (alterHeader f path inner).map fun inner => replace key (table origin inner) entries
    | some (tables items) =>
      match items.getLast? with
      | none => none
      | some last =>
        (alterHeader f path last).map fun last =>
          replace key (tables (items.dropLast ++ [last])) entries
    | some _ => none

end Toml

/-- The tree of the lines read so far.  The table under the last header stands apart until the next
one. -/
structure Document where
  /-- The tables that are complete. -/
  root : Toml.Entries := []
  /-- The path of the table that is being filled, and its key; none for the root. -/
  place : Option (List String × String) := none
  /-- The table that is being filled is one of several. -/
  isItem : Bool := false
  /-- The table that is being filled. -/
  current : Toml.Entries := []

namespace Document

open Toml

/-- Puts a node under a key of the table that is being filled, below dotted keys. -/
def put (d : Document) (path : List String) (key : String) (node : Toml) : Option Document :=
  (Toml.put path key node d.current).map fun entries => { d with current := entries }

def addItem? (key : String) (item entries : Entries) : Option Entries :=
  match find? key entries with
  | none => some (entries ++ [(key, tables [item])])
  | some (tables items) => some (replace key (tables (items ++ [item])) entries)
  | some _ => none

def close (d : Document) : Option Entries :=
  match d.place with
  | none => some d.current
  | some (path, key) =>
    if d.isItem then alterHeader (addItem? key d.current) path d.root
    else
      alterHeader
        (fun entries =>
          match find? key entries with
          | none => some (entries ++ [(key, table .header d.current)])
          | some (table .parent _) => some (replace key (table .header d.current) entries)
          | some _ => none)
        path d.root

/-- Takes out the table that a header fills: a fresh one, or one that was a parent so far. -/
def takeParent? (key : String) (entries : Entries) : Option (Entries × Entries) :=
  match find? key entries with
  | none => some ([], entries)
  | some (table .parent inner) => some (inner, entries.filter (·.1 ≠ key))
  | some _ => none

def entriesAt? : List String → Entries → Option Entries
  | [], entries => some entries
  | key :: path, entries =>
    match find? key entries with
    | none => some []
    | some (table .inline _) => none
    | some (table _ inner) => entriesAt? path inner
    | some (tables items) => items.getLast?.bind (entriesAt? path)
    | some _ => none

def openTable (d : Document) (path : List String) (key : String) : Option Document := do
  let root ← d.close
  let entries ← entriesAt? path root
  let (inner, _) ← takeParent? key entries
  let root ← alterHeader (fun entries => (takeParent? key entries).map (·.2)) path root
  pure { root := root, place := some (path, key), isItem := false, current := inner }

/-- Begins one of several tables of a header in double brackets. -/
def openItem (d : Document) (path : List String) (key : String) : Option Document := do
  let root ← d.close
  let entries ← entriesAt? path root
  match find? key entries with
  | none | some (tables _) =>
    pure { root := root, place := some (path, key), isItem := true, current := [] }
  | some _ => none

end Document

end RowStore
