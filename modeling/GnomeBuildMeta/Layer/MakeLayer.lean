import GnomeBuildMeta.Posix.Operations

/-!
# make-layer.py

The script compares an upper tree with a lower one and fills an output
directory with what has to lie over the lower tree.  Both trees are only read
and live in one file system; the output directory is an entry of a file system
of its own, whose root is the directory that holds it.
-/

namespace GnomeBuildMeta.Layer.MakeLayer

open GnomeBuildMeta.Posix

variable {α : Type} [DecidableEq α]

/-- The arguments of the script and the user that the files it writes belong to. -/
structure Args (α : Type) [DecidableEq α] where
  host : FileSystem α
  lower : Path α
  upper : Path α
  output : α
  uid : Nat
  gid : Nat

namespace Args

variable (args : Args α)

/-- `os.path.join(args.lower, rel)` -/
def lowerText (rel : Path α) : PathText α := textOf (rel ++ args.lower)

/-- `os.path.join(args.upper, rel)` -/
def upperText (rel : Path α) : PathText α := textOf (rel ++ args.upper)

/-- `os.path.join(args.output, rel)` -/
def outputText (rel : Path α) : PathText α := textOf (rel ++ [args.output])

end Args

/-- The permission bits that `stat` reports for a node. -/
def modeBits : Node α → Nat
  | .dir perm => perm
  | .file stat _ => stat.perm
  | .symlink _ => 0o777
  | .chardev _ _ => 0o600

/-- `shutil.copystat` onto a directory: the source is a link or not, its target's mode is taken. -/
def copystat (args : Args α) (rel : Path α) (out : FileSystem α) :
    Except Errno (FileSystem α) :=
  match args.host.stat (args.upperText rel) with
  | none => .error .enoent
  | some node => out.chmod (args.outputText rel) (modeBits node)

def copyParentDirs (args : Args α) (out : FileSystem α) : Path α → Except Errno (FileSystem α)
  | [] =>
      if out.isdir (args.outputText []) then .ok out
      else do
        let out ← out.mkdir (args.outputText []) 0o777
        copystat args [] out
  | n :: rel =>
      if out.isdir (args.outputText (n :: rel)) then .ok out
      else do
        let out ← copyParentDirs args out rel
        let out ← out.mkdir (args.outputText (n :: rel)) 0o777
        copystat args (n :: rel) out

def copyDir (args : Args α) (out : FileSystem α) (rel : Path α) : Except Errno (FileSystem α) :=
  copyParentDirs args out rel

def copyLink (args : Args α) (out : FileSystem α) (rel : Path α) :
    Except Errno (FileSystem α) := do
  let out ← copyParentDirs args out rel.tail
  match args.host.readlink (args.upperText rel) with
  | some target => out.symlink target (args.outputText rel)
  | none => .error .einval

/-- `shutil.copy2` without following links; into a directory it copies under the same name. -/
def copy2 (args : Args α) (out : FileSystem α) (rel : Path α) : Except Errno (FileSystem α) :=
  let destination := if out.isdir (args.outputText rel) then
      args.outputText rel ++ (rel.head?.map Piece.name).toList
    else args.outputText rel
  match args.host.lstat (args.upperText rel) with
  | some (.file stat data) =>
      out.writeFile destination { stat with uid := args.uid, gid := args.gid } data
  | some (.symlink target) => out.symlink target destination
  | some (.dir _) => .error .eisdir
  | some (.chardev _ _) => .error .einval
  | none => .error .enoent

def copyFile (args : Args α) (out : FileSystem α) (rel : Path α) :
    Except Errno (FileSystem α) := do
  let out ← copyParentDirs args out rel.tail
  copy2 args out rel

/-- Two regular files with the same mode, size, times, owner and bytes. -/
def sameFile : Node α → Node α → Bool
  | .file sa da, .file sb db => sa == sb && da.length == db.length && da == db
  | _, _ => false

/-- `get_stat` agrees on both files and so do their bytes. -/
def compareFiles (fs : FileSystem α) (a b : PathText α) : Bool :=
  (fs.lstat a).any fun na => (fs.lstat b).any fun nb => sameFile na nb

def createWhite (args : Args α) (out : FileSystem α) (rel : Path α) :
    Except Errno (FileSystem α) := do
  let out ← copyParentDirs args out rel.tail
  out.mknod (args.outputText rel) 0 0

/-! ## What the loops ask about one entry -/

/-- A directory of upper is copied on its own account. -/
def dirIsNew (args : Args α) (rel : Path α) : Bool :=
  !args.host.isdir (args.lowerText rel) || args.host.islink (args.lowerText rel)

/-- A link of upper is copied. -/
def linkDiffers (args : Args α) (rel : Path α) : Bool :=
  if args.host.islink (args.lowerText rel) then
    args.host.readlink (args.upperText rel) != args.host.readlink (args.lowerText rel)
  else true

/-- A regular file of upper is copied. -/
def fileDiffers (args : Args α) (rel : Path α) : Bool :=
  if !args.host.isfile (args.lowerText rel) || args.host.islink (args.lowerText rel) then true
  else !compareFiles args.host (args.lowerText rel) (args.upperText rel)

/-- An entry of lower is whited out. -/
def whiteoutWanted (args : Args α) (rel : Path α) : Bool :=
  !args.host.lexists (args.upperText rel) && args.host.lexists (args.upperText rel.tail)

/-! ## The two walks -/

/-- The three lists into which a loop sorts what `os.walk` reports for a directory. -/
structure Sorted (α : Type) where
  realDirs : List (Path α)
  realLinks : List (Path α)
  realFiles : List (Path α)

def sortVisit (fs : FileSystem α) (top : Path α) (v : Visit α) : Sorted α :=
  let isLink := fun rel : Path α => fs.islink (textOf (rel ++ top))
  let dirs := v.dirs.map fun n => n :: v.rel
  let files := v.files.map fun n => n :: v.rel
  { realDirs := dirs.filter fun rel => !isLink rel
    realLinks := dirs.filter isLink ++ files.filter isLink
    realFiles := files.filter fun rel => !isLink rel }

/-- Run `copy` on an entry when `wanted` holds of it. -/
def copyWhen (wanted : Path α → Bool)
    (copy : FileSystem α → Path α → Except Errno (FileSystem α))
    (out : FileSystem α) (rel : Path α) : Except Errno (FileSystem α) :=
  if wanted rel then copy out rel else .ok out

/-- The body of the walk over upper. -/
def visitUpper (args : Args α) (out : FileSystem α) (v : Visit α) :
    Except Errno (FileSystem α) := do
  let sorted := sortVisit args.host args.upper v
  let out ← sorted.realDirs.foldlM (copyWhen (dirIsNew args) (copyDir args)) out
  let out ← sorted.realLinks.foldlM (copyWhen (linkDiffers args) (copyLink args)) out
  sorted.realFiles.foldlM (copyWhen (fileDiffers args) (copyFile args)) out

/-- The body of the walk over lower. -/
def visitLower (args : Args α) (out : FileSystem α) (v : Visit α) :
    Except Errno (FileSystem α) :=
  let sorted := sortVisit args.host args.lower v
  (sorted.realDirs ++ sorted.realLinks ++ sorted.realFiles).foldlM
    (copyWhen (whiteoutWanted args) (createWhite args)) out

def main (args : Args α) (out : FileSystem α) : Except Errno (FileSystem α) := do
  let out ← (args.host.osWalk args.upper).foldlM (visitUpper args) out
  (args.host.osWalk args.lower).foldlM (visitLower args) out

end GnomeBuildMeta.Layer.MakeLayer
