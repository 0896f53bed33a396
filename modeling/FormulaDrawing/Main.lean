import FormulaDrawing.CommandLine.Basic
import FormulaDrawing.Raster.Png

/-! The command line on a real disk. -/

namespace FormulaDrawing

def faultOf : IO.Error → Disk.Fault
  | .noFileOrDirectory .. | .noSuchThing .. => .missing
  | .alreadyExists .. => .occupied
  | e => .other (toString e)

def attempt {α : Type} (action : IO α) : IO (Except Disk.Fault α) := do
  match ← action.toBaseIO with
  | .ok a => return .ok a
  | .error e => return .error (faultOf e)

def readText (path : String) : IO (Except Disk.Fault String) := do
  match ← attempt (IO.FS.readBinFile path) with
  | .error fault => return .error fault
  | .ok content =>
    match String.fromUTF8? content with
    | some s => return .ok s
    | none => return .error .notText

def listFolder (path : String) : IO (List String) := do
  let folder ← IO.FS.realPath path
  let entries ← folder.readDir
  return entries.toList.map (·.fileName)

def realDisk : Disk IO where
  readText := readText
  writeFile path content := attempt (IO.FS.writeBinFile path content)
  makeFolder path := attempt (IO.FS.createDirAll path)
  list path := attempt (listFolder path)
  removeFile path := attempt (IO.FS.removeFile path)

end FormulaDrawing

open FormulaDrawing in
def main (args : List String) : IO UInt32 := do
  let t ← CommandLine.run Raster.blank realDisk args
  (← IO.getStdout).putStr t.output
  (← IO.getStderr).putStr t.errors
  return t.code.toUInt32
