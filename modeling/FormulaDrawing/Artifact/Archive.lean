import FormulaDrawing.Artifact.Name

/-! Artifacts held in memory: the contents of files, ascending by name. -/

namespace FormulaDrawing.Artifact

structure Archive where
  files : List (String × ByteArray) := []

namespace Archive

def insertFile (name : String) (content : ByteArray) :
    List (String × ByteArray) → List (String × ByteArray)
  | [] => [(name, content)]
  | (n, c) :: files =>
    if name < n then (name, content) :: (n, c) :: files
    else if name = n then (name, content) :: files
    else (n, c) :: insertFile name content files

def get? (a : Archive) (name : String) : Option ByteArray := a.files.lookup name

def names (a : Archive) : List String := a.files.map (·.1)

/-- Stores the two files of an artifact; a name that does not fit the context is refused. -/
def put (a : Archive) (context name : String) (document image : ByteArray) :
    Except Failure (Archive × Location) := do
  check context name
  let files := insertFile (documentFile name) document a.files
  return ({ files := insertFile (imageFile name) image files },
    ⟨context, documentFile name, imageFile name⟩)

def removeContext (a : Archive) (context : String) : Except Failure (Archive × Nat) := do
  checkId context
  let (gone, kept) := a.files.partition fun f => belongsTo f.1 context
  return ({ files := kept }, gone.length)

theorem lookup_insertFile (name other : String) (content : ByteArray)
    (files : List (String × ByteArray)) :
    (insertFile name content files).lookup other =
      if other = name then some content else files.lookup other := by
  induction files with
  | nil =>
    by_cases h : other = name
    · simp [insertFile, h]
    · have hb : (other == name) = false := by simpa using h
      simp [insertFile, List.lookup_cons, hb, h]
  | cons f files ih =>
    obtain ⟨n, c⟩ := f
    simp only [insertFile]
    by_cases h : other = name
    · subst h
      split
      · simp
      · split
        · simp
        · rename_i hne
          have hb : (other == n) = false := by simpa using hne
          simp [List.lookup_cons, hb, ih]
    · have hb : (other == name) = false := by simpa using h
      split
      · simp [List.lookup_cons, hb]
      · split
        · rename_i he
          subst he
          simp [List.lookup_cons, hb]
        · simp only [List.lookup_cons, ih, h, if_false]

end Archive

end FormulaDrawing.Artifact
