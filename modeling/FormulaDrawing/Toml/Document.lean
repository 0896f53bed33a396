import FormulaDrawing.Toml.Quoted
import FormulaDrawing.Toml.Scalar

/-! Reading a TOML document: line by line, each a header, a key with its value, or nothing. -/

namespace FormulaDrawing.Toml

def skipComment? : List Char → Option (List Char)
  | '#' :: s =>
    match s.dropWhile isPlain with
    | [] => some []
    | rest => if (afterBreak? rest).isSome then some rest else none
  | s => some s

def skipLines? : Nat → List Char → Option (List Char)
  | 0, _ => none
  | n + 1, s =>
    match skipBlank s with
    | '#' :: s => (skipComment? ('#' :: s)).bind (skipLines? n)
    | s => some s

def skipLines (s : List Char) : Option (List Char) := skipLines? (s.length + 1) s

/-- What begins on the next line, if nothing but a comment stands before it. -/
def nextLine? (s : List Char) : Option (List Char) := do
  let s ← skipComment? (skipSpace s)
  match s with
  | [] => return []
  | s => afterBreak? s

mutual

/-- A value, of at most `depth` levels, and the rest. No step lengthens the rest. -/
def value? : Nat → Nat → List Char → Option (Datum × List Char)
  | n + 1, depth + 1, '[' :: s =>
    (elements? n depth s).map fun (vs, rest) => (.array vs, rest)
  | n + 1, depth + 1, '\x7b' :: s =>
    match skipSpace s with
    | '\x7d' :: s => some (.table .inline [], s)
    | s => (members? n depth [] s).map fun (es, rest) => (.table .inline es, rest)
  | _ + 1, _, c :: s =>
    if c == '"' || c == '\'' then (string? (c :: s)).map fun (t, rest) => (.string t, rest)
    else
      let (w, rest) := word (c :: s)
      (ofWord? w).map (·, rest)
  | _, _, _ => none

/-- The elements of an array up to its closing bracket; a comma may stand behind the last. -/
def elements? : Nat → Nat → List Char → Option (List Datum × List Char)
  | 0, _, _ => none
  | n + 1, depth, s => do
    match ← skipLines s with
    | ']' :: s => return ([], s)
    | s =>
      let (v, s) ← value? n depth s
      match ← skipLines s with
      | ',' :: s => (elements? n depth s).map fun (vs, rest) => (v :: vs, rest)
      | ']' :: s => return ([v], s)
      | _ => none

/-- The members of a table up to its closing brace, all on one line. -/
def members? : Nat → Nat → Entries → List Char → Option (Entries × List Char)
  | 0, _, _, _ => none
  | n + 1, depth, es, s => do
    let (key, s) ← key? s
    let (v, s) ← value? n depth (skipSpace (← expect? '=' s))
    let es ← es.insert key v .header
    match skipSpace s with
    | ',' :: s => members? n depth es s
    | '\x7d' :: s => return (es, s)
    | _ => none

end

/-- The entries so far, and the path of the table that was opened last. -/
structure Reading where
  entries : Entries := []
  current : List String := []

/-- Reads what stands at the front, up to the next line. -/
def Reading.line? (r : Reading) (s : List Char) : Option (Reading × List Char) :=
  match skipSpace s with
  | '[' :: '[' :: s => do
    let (path, s) ← key? s
    let s ← nextLine? (← expect? ']' (← expect? ']' s))
    return ({ entries := ← r.entries.openNext path, current := path }, s)
  | '[' :: s => do
    let (path, s) ← key? s
    let s ← nextLine? (← expect? ']' s)
    return ({ entries := ← r.entries.openTable path, current := path }, s)
  | s =>
    match nextLine? s with
    | some s => some (r, s)
    | none => do
      let (path, s) ← key? s
      let (v, s) ← value? (s.length + 1) depthLimit (skipSpace (← expect? '=' s))
      let s ← nextLine? s
      return ({ r with entries := ← r.entries.insertBelow r.current path v }, s)

def Reading.lines? : Nat → Reading → List Char → Option Reading
  | _, r, [] => some r
  | 0, _, _ => none
  | n + 1, r, s => do
    let (r, s) ← r.line? s
    Reading.lines? n r s

/-- The table a document stands for, if it is one. A byte order mark in front does not count. -/
def read? (text : String) : Option Entries :=
  let s := match text.toList with
    | '\ufeff' :: s => s
    | s => s
  (Reading.lines? (s.length + 1) {} s).map (·.entries)

end FormulaDrawing.Toml
