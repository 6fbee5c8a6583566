import GnomeBuildMeta.Control.Program
import GnomeBuildMeta.Posix.Removal
import GnomeBuildMeta.Posix.Text
import GnomeBuildMeta.Zswap.SetupUnit

/-!
# zswap-setup

`create` puts a new file in the place of the swap file and has it made a swap
area on a loop device; `stop` takes both away.  Each of them returns at the
first call that fails, and leaves what it has done until then.
-/

namespace GnomeBuildMeta.Zswap

open GnomeBuildMeta.Control GnomeBuildMeta.Posix

inductive SetupError where
  | io (e : Errno)
  | command (program : String) (code : Option Int)
  | loopDevice (e : Errno)

/-- A program that has been started, and what it found. -/
structure Began where
  program : String
  args : List String
  fs : FileSystem String
  noCow : List (Path String)

structure SetupWorld where
  fs : FileSystem String
  /-- The files with the attribute that `chattr +C` sets. -/
  noCow : List (Path String)
  began : List Began

/-- How the calls of one command end, apart from what follows from the files. -/
structure SetupOutcomes where
  /-- Without success, how many of the last pieces of the parent are left undone. -/
  createDirs : Except (Nat × Errno) Unit
  remove : Except Errno Unit
  openNew : Except Errno Unit
  /-- `status` gives the exit code, unless the program is killed. -/
  chattr : Except Errno (Option Int)
  setLen : Except Errno Unit
  mkswap : Except Errno (Option Int)
  /-- What `mkswap` makes of the contents of a file. -/
  format : List UInt8 → List UInt8
  loopControl : Except Errno Unit
  nextFree : Except Errno Unit
  attach : Except Errno Unit
  openLabel : Except Errno Unit
  detach : Except Errno Unit

namespace Setup

abbrev Step := Program SetupError SetupWorld

def io {β : Type} (outcome : Except Errno β) : Step β := Program.outside (outcome.mapError .io)

def loopDevice (outcome : Except Errno Unit) : Step Unit := Program.outside (outcome.mapError .loopDevice)

/-- The pieces of `Path::parent`, the last one first; what is left of `/` and of `.` exists. -/
def parentPieces (text : PathText String) : PathText String :=
  let idle := fun piece : Piece String => piece = .empty || piece = .cur
  ((text.reverse.dropWhile idle).drop 1).dropWhile idle

/-- A step whose result nobody looks at. -/
def ignored (step : Step Unit) : Step Unit := fun w => (.ok (), (step w).2)

/-- `fs::create_dir_all` on the pieces, the last one first. -/
def makeDirs (pieces : PathText String) : Step Unit :=
  Program.change fun w => ((w.fs.createDirAll 0o755 pieces).mapError SetupError.io).map
    fun fs => { w with fs := fs }

def createDirAll (outcome : Except (Nat × Errno) Unit) (text : PathText String) : Step Unit :=
  match outcome with
  | .ok () => makeDirs (parentPieces text)
  | .error (left, e) => do
      ignored (makeDirs ((parentPieces text).drop left))
      Program.fail (.io e)

/-- `fs::remove_file`; the attributes of a file go with it. -/
def removeFile (text : PathText String) : Step Unit :=
  Program.change fun w => do
    let p ← (w.fs.locate false text).mapError .io
    let fs ← (w.fs.unlink text).mapError .io
    return { w with fs := fs, noCow := w.noCow.filter (· ≠ p) }

def swapStat : Stat := ⟨0o600, 0, 0, 0⟩

/-- Create a file that is not there, with the mode 0600; the result stands for its descriptor. -/
def openNew (text : PathText String) : Step (Path String) := fun w =>
  match w.fs.locate false text with
  | .error e => (.error (.io e), w)
  | .ok p =>
      match w.fs.createAt p (.file swapStat []) with
      | .error e => (.error (.io e), w)
      | .ok fs => (.ok p, { w with fs := fs })

/-- What is behind the new end is cut off, and zeros fill what is missing. -/
def resize (size : Nat) (data : List UInt8) : List UInt8 :=
  data.take size ++ List.replicate (size - data.length) 0

def edit (p : Path String) (change : List UInt8 → List UInt8) : Step Unit :=
  Program.update fun w => { w with fs := w.fs.editAt p change }

def command (program : String) (args : List String) (status : Except Errno (Option Int))
    (effect : Step Unit) : Step Unit := do
  Program.update fun w => { w with began := ⟨program, args, w.fs, w.noCow⟩ :: w.began }
  let code ← io status
  if code = some 0 then effect else Program.fail (.command program code)

/-- What a program does to the file that its argument leads to. -/
def onFile (text : PathText String) (effect : Path String → Step Unit) : Step Unit := fun w =>
  match w.fs.locate true text with
  | .ok p => effect p w
  | .error _ => (.ok (), w)

def setNoCow (p : Path String) : Step Unit := Program.update fun w => { w with noCow := p :: w.noCow }

/--
What is left of `create` once the directories are there.  The programs get
`swapfile.display()`, which is the path itself where the path is a text.
-/
def makeSwap (swapfile label : String) (size : Nat) (out : SetupOutcomes) : Step Unit := do
  let text := pathText swapfile
  ignored do
    io out.remove
    removeFile text
  io out.openNew
  let f ← openNew text
  command "chattr" ["+C", swapfile] out.chattr (onFile text setNoCow)
  io out.setLen
  edit f (resize size)
  command "mkswap" ["--label", label, swapfile] out.mkswap (onFile text fun p => edit p out.format)
  loopDevice out.loopControl
  loopDevice out.nextFree
  loopDevice out.attach

def create (swapfile label : String) (size : Nat) (out : SetupOutcomes) : Step Unit := do
  createDirAll out.createDirs (pathText swapfile)
  makeSwap swapfile label size out

def stop (swapfile : String) (out : SetupOutcomes) : Step Unit := do
  loopDevice out.openLabel
  loopDevice out.detach
  io out.remove
  removeFile (pathText swapfile)

end Setup

def SetupCommand.run (out : SetupOutcomes) : SetupCommand → Setup.Step Unit
  | .create swapfile label size => Setup.create (String.ofList swapfile) (String.ofList label) size out
  | .stop swapfile _ => Setup.stop (String.ofList swapfile) out

def SetupCommand.swapfile : SetupCommand → Text
  | .create swapfile _ _ | .stop swapfile _ => swapfile

end GnomeBuildMeta.Zswap
