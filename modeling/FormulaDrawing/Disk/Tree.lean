import FormulaDrawing.Disk.Basic
import FormulaDrawing.Disk.Path

/-! A disk held in memory. A path that begins with a slash is taken from the top folder, and any other
from the folder of work. Nothing lies above the top. -/

namespace FormulaDrawing.Disk

inductive Item where
  | file (content : ByteArray)
  | folder

/-- What is below the top folder, by the names that lead there from the top. -/
structure Tree where
  /-- The folder of work. It is always there. -/
  here : List String := ["home", "work"]
  items : List (List String × Item) := []

namespace Tree

def item? (t : Tree) (place : List String) : Option Item :=
  if place.isPrefixOf t.here then some .folder else t.items.lookup place

def setItem (t : Tree) (place : List String) (i : Item) : Tree :=
  { t with items := t.items.filter (·.1 != place) ++ [(place, i)] }

def erase (t : Tree) (place : List String) : Tree :=
  { t with items := t.items.filter (·.1 != place) }

/-- The names of what lies directly in a folder, ascending. -/
def children (t : Tree) (place : List String) : List String :=
  (t.items.filterMap fun (p, _) => if p.dropLast = place then p.getLast? else none).mergeSort
    fun a b => decide (a ≤ b)

/-- The place a name leads to from a folder. A name has at most 255 bytes. -/
def enter (place : List String) (n : String) : Except Fault (List String) :=
  if n = ".." then .ok place.dropLast
  else if 255 < n.utf8ByteSize then .error .nameTooLong
  else .ok (place ++ [n])

/-- Follows names from a folder. Each but the last has to be a folder. -/
def follow (t : Tree) (place : List String) : List String → Except Fault (List String)
  | [] => .ok place
  | n :: ns =>
    match t.item? place with
    | some .folder => do t.follow (← enter place n) ns
    | some (.file _) => .error .notFolder
    | none => .error .missing

def base (t : Tree) (path : String) : List String := if isAbsolute path then [] else t.here

def locate (t : Tree) (path : String) : Except Fault (List String) :=
  if path = "" then .error .missing else t.follow (t.base path) (names path)

def readText (path : String) (t : Tree) : Except Fault String := do
  match t.item? (← t.locate path) with
  | some (.file content) =>
    if endsAtFolder path then throw .notFolder
    match String.fromUTF8? content with
    | some s => return s
    | none => throw .notText
  | some .folder => throw .isFolder
  | none => throw .missing

def writeFile (path : String) (content : ByteArray) (t : Tree) : Except Fault Tree := do
  let place ← t.locate path
  match t.item? place with
  | some .folder => throw .isFolder
  | _ =>
    if endsAtFolder path then throw .isFolder
    return t.setItem place (.file content)

def makeFolders (t : Tree) (place : List String) : List String → Except Fault Tree
  | [] => .ok t
  | n :: ns => do
    let next ← enter place n
    match t.item? next with
    | some .folder => t.makeFolders next ns
    | some (.file _) => throw (if ns = [] then .occupied else .notFolder)
    | none => (t.setItem next .folder).makeFolders next ns

def list (path : String) (t : Tree) : Except Fault (List String) := do
  let place ← t.locate path
  match t.item? place with
  | some .folder => return t.children place
  | some (.file _) => throw .notFolder
  | none => throw .missing

def removeFile (path : String) (t : Tree) : Except Fault Tree := do
  let place ← t.locate path
  match t.item? place with
  | some (.file _) => return t.erase place
  | some .folder => throw .isFolder
  | none => throw .missing

/-- Runs a change; the tree stays as it was where the change fails. -/
def change (f : Tree → Except Fault Tree) : StateM Tree (Except Fault Unit) := fun t =>
  match f t with
  | .ok next => (.ok (), next)
  | .error fault => (.error fault, t)

def disk : Disk (StateM Tree) where
  readText path := fun t => (t.readText path, t)
  writeFile path content := change (writeFile path content)
  makeFolder path := change fun t => t.makeFolders (t.base path) (names path)
  list path := fun t => (t.list path, t)
  removeFile path := change (removeFile path)

end Tree

end FormulaDrawing.Disk
