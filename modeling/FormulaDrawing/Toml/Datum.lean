/-! Values of a TOML document. Tables remember how they came about, since that decides what may still
be added to them. -/

namespace FormulaDrawing.Toml

inductive TableKind where
  /-- Opened by a header of its own. -/
  | header
  /-- Passed through by a longer header. -/
  | implied
  /-- Passed through by a dotted key. -/
  | dotted
  /-- Written between braces; nothing can be added. -/
  | inline
deriving DecidableEq, Repr

inductive Datum where
  | string (s : String)
  | integer (n : Int)
  | float (x : Float)
  | boolean (b : Bool)
  /-- A date, a time or both. -/
  | moment (written : String)
  | array (elements : List Datum)
  /-- Tables opened by double headers, one after the other. -/
  | tables (elements : List (List (String × Datum)))
  | table (kind : TableKind) (entries : List (String × Datum))

abbrev Entries := List (String × Datum)

namespace Entries

def setEntry (key : String) (v : Datum) : Entries → Entries
  | [] => [(key, v)]
  | (k, w) :: es => if k = key then (k, v) :: es else (k, w) :: setEntry key v es

/-- Changes the table at the end of a path and makes those on the way that are not there. The last
one of several tables counts. A dotted key does not lead through a table with a header. -/
def alter (made : TableKind) (change : TableKind → Entries → Option Entries) :
    List String → TableKind → Entries → Option Entries
  | [], kind, es => change kind es
  | k :: ks, _, es =>
    match es.lookup k with
    | none => (alter made change ks made []).map fun inner => setEntry k (.table made inner) es
    | some (.table kind inner) =>
      if kind = .inline || (made = .dotted && kind = .header) then none
      else (alter made change ks kind inner).map fun inner => setEntry k (.table kind inner) es
    | some (.tables ts) => do
      let inner ← alter made change ks .header (← ts.getLast?)
      return setEntry k (.tables (ts.dropLast ++ [inner])) es
    | some _ => none

/-- Adds a value under a dotted key; every key is given once, and a table that a dotted key ends in
has to come from dotted keys. -/
def insert (path : List String) (v : Datum) (kind : TableKind) (es : Entries) : Option Entries := do
  let key ← path.getLast?
  let change := fun inner entries =>
    if (path.length ≠ 1 && inner ≠ .dotted) || (entries.lookup key).isSome then none
    else some (setEntry key v entries)
  alter .dotted change path.dropLast kind es

/-- Opens a table, which nothing but longer headers may have led through before. -/
def openTable (path : List String) (es : Entries) : Option Entries := do
  let key ← path.getLast?
  let change := fun _ entries =>
    match entries.lookup key with
    | none => some (setEntry key (.table .header []) entries)
    | some (.table .implied inner) => some (setEntry key (.table .header inner) entries)
    | some _ => none
  alter .implied change path.dropLast .header es

def openNext (path : List String) (es : Entries) : Option Entries := do
  let key ← path.getLast?
  let change := fun _ entries =>
    match entries.lookup key with
    | none => some (setEntry key (.tables [[]]) entries)
    | some (.tables ts) => some (setEntry key (.tables (ts ++ [[]])) entries)
    | some _ => none
  alter .implied change path.dropLast .header es

def insertBelow (current path : List String) (v : Datum) (es : Entries) : Option Entries :=
  alter .implied (insert path v) current .header es

end Entries

end FormulaDrawing.Toml
