/-! What is asked of a disk. The answers come in a monad, so that what uses a disk can run on a real
one as well as on one held in memory. -/

namespace FormulaDrawing

inductive Disk.Fault where
  | missing
  | occupied
  | notFolder
  | isFolder
  | nameTooLong
  | notText
  | other (text : String)
deriving DecidableEq, Repr

def Disk.Fault.message : Disk.Fault → String
  | missing => "No such file or directory (os error 2)"
  | occupied => "File exists (os error 17)"
  | notFolder => "Not a directory (os error 20)"
  | isFolder => "Is a directory (os error 21)"
  | nameTooLong => "File name too long (os error 36)"
  | notText => "stream did not contain valid UTF-8"
  | other text => text

structure Disk (m : Type → Type) where
  readText : String → m (Except Disk.Fault String)
  /-- Writes a file over what was there. -/
  writeFile : String → ByteArray → m (Except Disk.Fault Unit)
  /-- Makes a folder with all that lead to it, where it is not there yet. -/
  makeFolder : String → m (Except Disk.Fault Unit)
  list : String → m (Except Disk.Fault (List String))
  removeFile : String → m (Except Disk.Fault Unit)

end FormulaDrawing
