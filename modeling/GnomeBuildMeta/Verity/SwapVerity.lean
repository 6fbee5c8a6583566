import GnomeBuildMeta.Control.Program
import Mathlib.Data.List.Basic

/-!
# swap-verity.c

The program replaces the data and hash devices of a device-mapper verity
target.  Each of its functions gives up at the first library call that fails;
`update_params` signals that by a null string, which `swap_devices` does not
look at.
-/

namespace GnomeBuildMeta.Verity

open GnomeBuildMeta.Control

/-- A C string without its terminator. -/
abbrev CString := List Char

/-! ## The device -/

structure Target where
  start : Nat
  size : Nat
  targetType : String
  params : CString
  deriving DecidableEq, Repr

/-- A device-mapper device; a loaded table waits in `inactive` until the device is resumed. -/
structure Device where
  active : List Target
  inactive : Option (List Target)
  deriving DecidableEq, Repr

inductive TaskKind where
  | table
  | reload
  | resume
  deriving DecidableEq, Repr

/-- The target that is added to a task; the parameters may be a null pointer. -/
structure Request where
  start : Nat
  size : Nat
  targetType : String
  params : Option CString
  deriving DecidableEq, Repr

/-- What has been done with libdevmapper: a task was built, or it was run. -/
inductive LibCall where
  | create (kind : TaskKind)
  | run (kind : TaskKind) (name : CString) (request : Option Request)
  deriving DecidableEq, Repr

structure Machine where
  device : Device
  calls : List LibCall
  deriving DecidableEq, Repr

/-- A null pointer that libdevmapper lets through reaches the kernel as an empty text. -/
def Request.target (r : Request) : Target := ⟨r.start, r.size, r.targetType, r.params.getD []⟩

/-- What a task that runs successfully does to the device. -/
def Device.perform (d : Device) : TaskKind → Option Request → Device
  | .table, _ => d
  | .reload, request => { d with inactive := some (request.map Request.target).toList }
  | .resume, _ =>
      match d.inactive with
      | some table => { active := table, inactive := none }
      | none => d

/-! ## The outcomes of the calls -/

/-- Whether the calls that every task goes through succeed. -/
structure TaskOutcome where
  create : Bool
  setName : Bool
  run : Bool

/-- Whether a path can be stat'ed, with the number of the node, and the number be formatted. -/
structure NodeOutcome where
  stat : CString → Option UInt64
  format : Bool

structure Outcomes where
  table : TaskOutcome
  getInfo : Bool
  copyTable : Bool
  copyParams : Bool
  newDev : NodeOutcome
  newHashDev : NodeOutcome
  formatParams : Bool
  reload : TaskOutcome
  setRo : Bool
  addTarget : Request → Bool
  resume : TaskOutcome

/-- A function that reports failure by `false` or a null pointer. -/
abbrev Fallible := Program Unit Machine

namespace Fallible

def require (succeeds : Bool) : Fallible Unit :=
  Program.outside (if succeeds then .ok () else .error ())

def create (kind : TaskKind) (outcome : TaskOutcome) : Fallible Unit := do
  require outcome.create
  Program.update fun m => { m with calls := .create kind :: m.calls }

/-- Run a task; it changes the device only if that succeeds. -/
def run (kind : TaskKind) (name : CString) (request : Option Request) (outcome : TaskOutcome) :
    Fallible Unit := do
  Program.update fun m => { m with calls := .run kind name request :: m.calls }
  require outcome.run
  Program.update fun m => { m with device := m.device.perform kind request }

end Fallible

/-! ## The functions -/

def resume (o : Outcomes) (name : CString) : Fallible Unit := do
  Fallible.create .resume o.resume
  Fallible.require o.resume.setName
  Fallible.run .resume name none o.resume

/-- The parameters, start and size of a table that is one verity target. -/
def verityTarget (table : List Target) : Option (CString × Nat × Nat) :=
  match table with
  | [target] =>
      if target.targetType = "verity" then some (target.params, target.start, target.size) else none
  | _ => none

def getParams (o : Outcomes) (name : CString) : Fallible (CString × Nat × Nat) := do
  Fallible.create .table o.table
  Fallible.require o.table.setName
  Fallible.run .table name none o.table
  Fallible.require o.getInfo
  let found ← fun m => ((verityTarget m.device.active).elim (.error ()) .ok, m)
  Fallible.require o.copyTable
  return found

def reloadParams (o : Outcomes) (name : CString) (params : Option CString) (start size : Nat) :
    Fallible Unit := do
  let request : Request := ⟨start, size, "verity", params⟩
  Fallible.create .reload o.reload
  Fallible.require o.reload.setName
  Fallible.require o.setRo
  Fallible.require (o.addTarget request)
  Fallible.run .reload name (some request) o.reload

/-- `major` of `sys/sysmacros.h` -/
def major (rdev : UInt64) : UInt32 :=
  let low : UInt64 := (rdev &&& 0x00000000000fff00) >>> 8
  let high : UInt64 := (rdev &&& 0xfffff00000000000) >>> 32
  (low ||| high).toUInt32

/-- `minor` of `sys/sysmacros.h` -/
def minor (rdev : UInt64) : UInt32 :=
  let low : UInt64 := rdev &&& 0x00000000000000ff
  let high : UInt64 := (rdev &&& 0x00000ffffff00000) >>> 12
  (low ||| high).toUInt32

/-- `"%u:%u"` -/
def deviceNumber (rdev : UInt64) : CString :=
  (Nat.repr (major rdev).toNat).toList ++ ':' :: (Nat.repr (minor rdev).toNat).toList

def deviceName (o : NodeOutcome) (nodePath : CString) : Option CString :=
  match o.stat nodePath with
  | none => none
  | some rdev => if o.format then some (deviceNumber rdev) else none

/-- Cut a text at its first spaces, at most as often as `cuts` says. -/
def components : Nat → CString → List CString
  | _, [] => [[]]
  | 0, rest => [rest]
  | cuts + 1, c :: rest =>
      if c = ' ' then [] :: components cuts rest
      else
        match components (cuts + 1) rest with
        | [] => [[c]]
        | first :: others => (c :: first) :: others

def updateParams (o : Outcomes) (srcParams newDev newHashDev : CString) : Option CString :=
  if !o.copyParams then none
  else
    match components 9 srcParams with
    | [p0, _, _, p3, p4, p5, p6, p7, p8, p9] =>
        match deviceName o.newDev newDev with
        | none => none
        | some newDevFormatted =>
            match deviceName o.newHashDev newHashDev with
            | none => none
            | some newHashDevFormatted =>
                if o.formatParams then
                  some (List.intercalate [' ']
                    [p0, newDevFormatted, newHashDevFormatted, p3, p4, p5, p6, p7, p8, p9])
                else none
    | _ => none

def swapDevices (o : Outcomes) (name newDev newHashDev : CString) : Fallible Unit := do
  let (srcParams, start, size) ← getParams o name
  -- the result goes on as it is, also when it is a null pointer
  let newParams := updateParams o srcParams newDev newHashDev
  reloadParams o name newParams start size
  resume o name

end GnomeBuildMeta.Verity
