import FormulaDrawing.Artifact.Archive
import FormulaDrawing.Disk.Basic
import FormulaDrawing.Disk.Path

/-! Where artifacts are kept: in memory, or as files of one folder on a disk. Both refuse the same
names. -/

namespace FormulaDrawing.Artifact

structure Store (m : Type → Type) where
  put (context name : String) (document image : ByteArray) : m (Except Failure Location)
  removeContext (context : String) : m (Except Failure Nat)

namespace Archive

/-- The archive stays as it was where an operation fails. -/
def change {α : Type} (f : Archive → Except Failure (Archive × α)) :
    StateM Archive (Except Failure α) := fun a =>
  match f a with
  | .ok (next, r) => (.ok r, next)
  | .error fault => (.error fault, a)

def store : Store (StateM Archive) where
  put context name document image := change fun a => a.put context name document image
  removeContext context := change fun a => a.removeContext context

end Archive

namespace Folder

variable {m : Type → Type} [Monad m]

def onFault {α : Type} (failure : String → Failure) (action : m (Except Disk.Fault α)) :
    ExceptT Failure m α :=
  ExceptT.mk do return (← action).mapError fun fault => failure fault.message

def writeFile (disk : Disk m) (root file : String) (content : ByteArray) :
    ExceptT Failure m String := do
  let path := Disk.join root file
  onFault (.write path) (disk.writeFile path content)
  return path

def put (disk : Disk m) (root context name : String) (document image : ByteArray) :
    ExceptT Failure m Location := do
  ExceptT.mk (pure (check context name))
  onFault (.write root) (disk.makeFolder root)
  let document ← writeFile disk root (documentFile name) document
  let image ← writeFile disk root (imageFile name) image
  return ⟨context, document, image⟩

def removeFile (disk : Disk m) (root file : String) : ExceptT Failure m Unit :=
  let path := Disk.join root file
  onFault (.remove path) (disk.removeFile path)

/-- Nothing is removed from a folder that is not there. -/
def removeContext (disk : Disk m) (root context : String) : ExceptT Failure m Nat := do
  ExceptT.mk (pure (checkId context))
  let found ← ExceptT.lift (disk.list root)
  match found with
  | .error .missing => return 0
  | .error fault => throw (.list root fault.message)
  | .ok files =>
    let own := files.filter fun file => belongsTo file context
    own.forM (removeFile disk root)
    return own.length

def store (disk : Disk m) (root : String) : Store m where
  put context name document image := (put disk root context name document image).run
  removeContext context := (removeContext disk root context).run

end Folder

end FormulaDrawing.Artifact
