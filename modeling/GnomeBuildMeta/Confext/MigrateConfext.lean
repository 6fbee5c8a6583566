import GnomeBuildMeta.Control.Program
import GnomeBuildMeta.Posix.Operations

/-!
# migrate-confext.cpp

The migration copies from `/etc` what differs from the base confext into a new
mutable layer, which gets its name at the very end.  The file system of the
initrd is only read and the directory of mutable layers is only written, so
they are kept apart; no link leads from the one to the other.
-/

namespace GnomeBuildMeta.Confext

open GnomeBuildMeta.Control
open GnomeBuildMeta.Posix

/-! ## Places -/

def sysrootEtc : Path String := ["etc", "sysroot"]

def baseConfextEtc : Path String :=
  ["etc", "gnomeos-base-config", "confexts", "lib", "usr", "sysroot"]

/-- `"/usr/share/factory/etc" / rel` -/
def factory (rel : Path String) : PathText String :=
  .empty :: textOf (rel ++ ["etc", "factory", "share", "usr"])

/-- `"/sysroot/usr/lib/confexts/gnomeos-base-config/etc" / rel` -/
def confext (rel : Path String) : PathText String := textOf (rel ++ baseConfextEtc)

/-- Paths are compared by their elements, so that repeated slashes do not count. -/
def samePath (first second : PathText String) : Bool :=
  decide (first.head? = some .empty ↔ second.head? = some .empty) &&
    decide (first.filter (· ≠ .empty) = second.filter (· ≠ .empty)) &&
    decide (first.getLast? = some .empty ↔ second.getLast? = some .empty)

/-! ## File operations -/

/-- `/sysroot/var/lib/extensions.mutable`, as far as it concerns `/etc`. -/
structure MutableLayers where
  creating : Option (FileSystem String)
  etc : Option (FileSystem String)

/-- One system call that changes the half-built layer. -/
inductive CopyOp where
  | mkdir (rel : Path String) (perm : Nat)
  | symlink (rel : Path String) (target : PathText String)
  /-- `open` with `O_CREAT | O_EXCL` -/
  | openNew (rel : Path String)
  | fchmod (rel : Path String) (perm : Nat)
  | write (rel : Path String) (data : List UInt8)
  deriving DecidableEq, Repr

/-- A change of the file that a descriptor is open for. -/
def changeFile (fs : FileSystem String) (rel : Path String)
    (change : Stat → List UInt8 → FileSystem String) : Except Errno (FileSystem String) :=
  match fs.get rel with
  | some (.file stat data) => .ok (change stat data)
  | _ => .error .enoent

/-- `create_directory` takes an existing directory for success. -/
def CopyOp.exec : CopyOp → FileSystem String → Except Errno (FileSystem String)
  | .mkdir rel perm, fs =>
      match fs.mkdir (textOf rel) perm with
      | .ok fs' => .ok fs'
      | .error e => if e = .eexist ∧ fs.isdir (textOf rel) = true then .ok fs else .error e
  | .symlink rel target, fs => fs.symlink target (textOf rel)
  | .openNew rel, fs => fs.create (textOf rel) (.file ⟨0o200, 0, 0, 0⟩ [])
  | .fchmod rel perm, fs => changeFile fs rel fun _ _ => fs.chmodAt rel perm
  | .write rel data, fs => changeFile fs rel fun stat _ => fs.writeAt rel stat data

inductive FileOp where
  | createDirectories
  | copy (op : CopyOp)
  | rename
  deriving DecidableEq, Repr

def FileOp.exec : FileOp → MutableLayers → Except Errno MutableLayers
  | .createDirectories, m => .ok { m with creating := some (m.creating.getD (.bare 0o755)) }
  | .copy op, m =>
      match m.creating with
      | none => .error .enoent
      | some fs => do
          let fs ← op.exec fs
          return { m with creating := some fs }
  | .rename, m =>
      match m.creating with
      | none => .error .enoent
      | some fs =>
          -- only an empty directory is replaced
          if m.etc.all fun old => (old.listdir []).isEmpty then .ok ⟨none, some fs⟩
          else .error .eexist

/-! ## The program -/

/-- `mkdir` takes the mode of the source and obeys the umask. -/
def mkdirMode (perm : Nat) : Nat := perm &&& 0o1755

/-- What `copy_with_dir` does for one path, its parents done. -/
def copyEntry (host : FileSystem String) (rel : Path String) : List CopyOp :=
  match host.get (rel ++ sysrootEtc) with
  | some (.symlink target) => [.symlink rel target]
  | some (.file stat data) => [.openNew rel, .fchmod rel stat.perm, .write rel data]
  | some (.dir perm) => [.mkdir rel (mkdirMode perm)]
  | _ => []

def copyWithDir (host : FileSystem String) : Path String → List CopyOp
  | [] => []
  | name :: parent => copyWithDir host parent ++ copyEntry host (name :: parent)

/-- Whether an entry of `/etc` is a link or a file that the base confext does not have like that. -/
def modified (host : FileSystem String) (rel : Path String) : Except Errno Bool :=
  match host.get (rel ++ sysrootEtc) with
  | some (.symlink target) =>
      if samePath target (factory rel) then .ok false
      else do
        match ← host.symlinkStatus (confext rel) with
        | some (.symlink confextTarget) => return !samePath target confextTarget
        | _ => return true
  | some (.file stat data) => do
      match ← host.symlinkStatus (confext rel) with
      | some (.file confextStat confextData) =>
          return stat.perm != confextStat.perm || data.length != confextData.length ||
            data != confextData
      | _ => return true
  | _ => .ok false

def visit (host : FileSystem String) (rel : Path String) : Except Errno (List CopyOp) := do
  if ← modified host rel then return copyWithDir host rel else return []

def perform (op : FileOp) : Program Errno MutableLayers Unit := Program.change op.exec

def main (host : FileSystem String) : Program Errno MutableLayers Unit := do
  perform .createDirectories
  if host.isDirAt sysrootEtc then
    (host.recursiveEntries sysrootEtc).forM fun rel => do
      let ops ← Program.outside (visit host rel)
      ops.forM fun op => perform (.copy op)
    perform .rename
  else Program.fail .enoent

/-! ## The service -/

/-- The conditions of `initrd-migrate-confext.service`. -/
def startConditions (host : FileSystem String) (m : MutableLayers) : Bool :=
  (host.stat (textOf ["machine-id", "etc", "sysroot"])).isSome && m.etc.isNone &&
    (host.stat (textOf ["initrd-release", "etc"])).isSome

end GnomeBuildMeta.Confext
