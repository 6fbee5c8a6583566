import GnomeBuildMeta.Control.Run
import GnomeBuildMeta.Zswap.UnitNames
import Mathlib.Logic.Function.Basic

/-!
# The directories of the generator

The generator works on directories that systemd reads and other generators write
to, at other names.  Its operations are done one after the other; each may fail,
and the generator may be killed between any two of them.
-/

namespace GnomeBuildMeta.Zswap

/-! ## Directories -/

/-- `swap.target.wants` below the directory of the generator, and `/run/sysctl.d`. -/
inductive Place where
  | wants
  | sysctl
  deriving DecidableEq

inductive Entry where
  | link (target : Text)
  | other
  deriving DecidableEq

structure Dirs where
  /-- The unit files in the directory of the generator. -/
  units : Text → Option (List Text)
  there : Place → Bool
  entries : Place → Text → Option Entry

def Dirs.set (dirs : Dirs) (place : Place) (name : Text) (entry : Option Entry) : Dirs :=
  { dirs with entries := Function.update dirs.entries place (Function.update (dirs.entries place) name entry) }

/-- A whole file takes its name. -/
def Dirs.commit (dirs : Dirs) (u : UnitFile) : Dirs :=
  { dirs with units := Function.update dirs.units u.name (some u.lines) }

/-- Eight characters of `Alphanumeric`. -/
structure Tmp where
  name : Text
  length : name.length = 8
  alphanum : ∀ c ∈ name, c.isAlphanum = true

/-! ## Operations -/

inductive Op where
  /-- `AtomicWriteFile::open`; nothing of the file is seen before `commit`. -/
  | openUnit (name : Text)
  | writeln (line : Text)
  | commit
  | createDirAll (place : Place)
  /-- A file that is not there is as good as removed. -/
  | removeFile (place : Place) (name : Text)
  | symlink (place : Place) (target : Text) (tmp : Tmp)
  | rename (place : Place) (tmp : Tmp) (link : Text)

/-- What an operation does when it succeeds; `pending` is the file that is being written. -/
def Op.run (dirs : Dirs) (pending : Option UnitFile) : Op → Option (Dirs × Option UnitFile)
  | .openUnit name => some (dirs, some ⟨name, []⟩)
  | .writeln line => pending.map fun u => (dirs, some { u with lines := u.lines ++ [line] })
  | .commit => pending.map fun u => (dirs.commit u, none)
  | .createDirAll place => some ({ dirs with there := Function.update dirs.there place true }, pending)
  | .removeFile place name => some (dirs.set place name none, pending)
  | .symlink place target tmp =>
      if dirs.there place = true ∧ dirs.entries place tmp.name = none then
        some (dirs.set place tmp.name (some (.link target)), pending)
      else none
  | .rename place tmp link => (dirs.entries place tmp.name).map fun entry =>
      ((dirs.set place tmp.name none).set place link (some entry), pending)

/-- `force_symlink` for a link that has a parent. -/
def forceSymlink (place : Place) (target link : Text) (tmp : Tmp) : List Op :=
  [.symlink place target tmp, .rename place tmp link]

def devNull : Text := "/dev/null".toList

def mask : Text := "50-zswap.conf".toList

def disableSysctl (tmp : Tmp) : List Op :=
  .removeFile .sysctl mask :: .createDirAll .sysctl :: forceSymlink .sysctl devNull mask tmp

def unitOps (u : UnitFile) : List Op := .openUnit u.name :: u.lines.map .writeln ++ [.commit]

def swapTarget (name : Text) : Text := "../".toList ++ swapName name

def linkOps (name : Text) (tmp : Tmp) : List Op :=
  .createDirAll .wants :: forceSymlink .wants (swapTarget name) (swapName name) tmp

/-- The loop over the configuration; `draw` gives the random names. -/
def tableOps (draw : Nat → Tmp) : Table → List Op × Option Error
  | [] => ([], none)
  | (name, cfg) :: rest =>
      match writeUnits name cfg with
      | .error e => ([], some e)
      | .ok units =>
          let later := tableOps (fun i => draw (i + 1)) rest
          (units.flatMap unitOps ++ linkOps name (draw 0) ++ later.1, later.2)

/-- The operations of the generator, and the error that it returns after them. -/
def generatorOps (m : Machine) (draw : Nat → Tmp) : List Op × Option Error :=
  match generator m with
  | .disabled => (disableSysctl (draw 0), none)
  | .failed e => ([], some e)
  | .units _ _ =>
      match readConfig m with
      | .error e => ([], some e)
      | .ok table => tableOps draw table

/-! ## The system -/

structure Process where
  machine : Machine
  ops : List Op
  error : Option Error
  pending : Option UnitFile

structure System where
  dirs : Dirs
  process : Option Process

/-- The names that the generator uses besides those of its units. -/
def IsOurs : Place → Text → Prop
  | .wants, name => (∃ tmp : Tmp, name = tmp.name) ∨ ∃ entry, name = swapName entry
  | .sysctl, name => (∃ tmp : Tmp, name = tmp.name) ∨ name = mask

/--
Nothing has happened to what the generator uses.  This is an assumption on the
others: the generator for `/etc/fstab` writes a swap unit of such a name for an
entry with `LABEL=`.
-/
structure Dirs.Keeps (dirs after : Dirs) : Prop where
  units : ∀ entry, ∀ name ∈ fileNames entry, after.units name = dirs.units name
  entries : ∀ place name, IsOurs place name → after.entries place name = dirs.entries place name

inductive Action where
  | start (m : Machine) (draw : Nat → Tmp)
  | op
  /-- An operation fails, or the process is killed. -/
  | stop
  | finish
  /-- Other generators and programs do something at names that are not ours. -/
  | others
  /-- systemd empties the directory of the generators. -/
  | flush

inductive Step (s : System) : Action → System → Prop where
  /-- The parser of the configuration gives every table once. -/
  | start {m : Machine} {draw : Nat → Tmp} (idle : s.process = none)
      (distinct : ∀ table, readConfig m = .ok table → (table.map Prod.fst).Nodup) :
      Step s (.start m draw)
        { s with process := some ⟨m, (generatorOps m draw).1, (generatorOps m draw).2, none⟩ }
  | op {p : Process} {op : Op} {rest : List Op} {dirs : Dirs} {pending : Option UnitFile}
      (running : s.process = some p) (next : p.ops = op :: rest)
      (done : op.run s.dirs p.pending = some (dirs, pending)) :
      Step s .op ⟨dirs, some { p with ops := rest, pending }⟩
  | stop {p : Process} (running : s.process = some p) : Step s .stop { s with process := none }
  | finish {p : Process} (running : s.process = some p) (done : p.ops = []) :
      Step s .finish { s with process := none }
  | others {after : Dirs} (keeps : s.dirs.Keeps after) : Step s .others { s with dirs := after }
  | flush {after : Dirs} (idle : s.process = none) (noUnits : ∀ name, after.units name = none)
      (noLinks : ∀ name, after.entries .wants name = none) : Step s .flush { s with dirs := after }

/-! ## What the directories are to hold -/

/-- The units of an entry are there, as a whole. -/
structure Dirs.Complete (dirs : Dirs) (name : Text) : Prop where
  swap : dirs.units (swapName name) = some (swapUnit name).lines
  service : ∃ path size, dirs.units (serviceName name) = some (serviceUnit name path size).lines

/-- A swap unit is wanted only when it is complete. -/
def Dirs.Wanted (dirs : Dirs) : Prop :=
  ∀ name entry, dirs.entries .wants (swapName name) = some entry →
    entry = .link (swapTarget name) ∧ dirs.Complete name

/-- The entry of the configuration has its units and its link. -/
structure Dirs.Placed (dirs : Dirs) (entry : Text × Cfg) : Prop where
  swap : dirs.units (swapName entry.1) = some (swapUnit entry.1).lines
  service : ∃ path size, getPath entry.1 entry.2 = .ok path ∧ getSize entry.1 entry.2 = .ok size ∧
    dirs.units (serviceName entry.1) = some (serviceUnit entry.1 path size).lines
  link : dirs.entries .wants (swapName entry.1) = some (.link (swapTarget entry.1))

end GnomeBuildMeta.Zswap
