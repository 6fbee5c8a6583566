import GnomeBuildMeta.Control.Program
import GnomeBuildMeta.Posix.FileName
import Mathlib.Logic.Function.Basic

/-!
# The state directory of run-secure-vm.sh

The disks, the firmware and the TPM of the machine stay in `STATE_DIR` between
the calls.  A call works on them in stages, each of which may fail or be
interrupted, and then QEMU takes the place of the script.
-/

namespace GnomeBuildMeta.SecureVm

open Control Posix

/-! ## The options -/

/-- How the installation medium is attached. -/
inductive Live where
  | disk
  | cdrom
  deriving DecidableEq

/-- The options that concern the disks and the TPM. -/
inductive DiskOption where
  | liveCdrom
  | noInstall
  | preInstall
  | resetInstalled
  | rebuildIso
  | resetSecureState
  | buildid (id : Bytes)
  | notpm
  | image
  deriving DecidableEq

/-- The variables that these options set. -/
structure Settings where
  live : Option Live := some .disk
  preInstall : Bool := false
  resetInstalled : Bool := false
  rebuildIso : Bool := false
  resetSecure : Bool := false
  buildid : Option Bytes := none
  noTpm : Bool := false
  fromImage : Bool := false
  deriving DecidableEq

def Settings.set (o : Settings) : DiskOption → Settings
  | .liveCdrom => { o with live := some .cdrom }
  | .noInstall => { o with live := none }
  | .preInstall => { o with live := none, preInstall := true }
  | .resetInstalled => { o with resetInstalled := true }
  | .rebuildIso => { o with rebuildIso := true }
  | .resetSecureState => { o with resetSecure := true }
  | .buildid id => { o with buildid := some id }
  | .notpm => { o with noTpm := true }
  | .image => { o with live := none, fromImage := true }

/-! ## The directory -/

/-- A sparse file. -/
structure Disk where
  size : Nat
  bytes : Nat → UInt8

namespace Disk

def empty : Disk := ⟨0, fun _ => 0⟩

def read (d : Disk) (i : Nat) : UInt8 := if i < d.size then d.bytes i else 0

/-- `truncate --size`, which also makes a file longer. -/
def truncate (size : Nat) (d : Disk) : Disk := ⟨size, fun i => if i < size then d.read i else 0⟩

end Disk

/-- 50G -/
def primarySize : Nat := 50 * 1024 * 1024 * 1024

structure StateDir where
  /-- The files of the TPM, by their names. -/
  swtpm : Option (List (Bytes × Bytes))
  /-- `builds/gnome_os_*.iso`, and the downloads that end in `.tmp`. -/
  builds : Bytes → Option Bytes
  partials : Bytes → Option Bytes
  diskIso : Option Bytes
  ovmfCode : Option Bytes
  ovmfVarsTemplate : Option Bytes
  ovmfVars : Option Bytes
  diskImg : Option Disk

def StateDir.empty : StateDir := ⟨none, fun _ => none, fun _ => none, none, none, none, none, none⟩

/-! ## One call -/

inductive Stage where
  | fetch
  | removeTpm
  | startTpm
  | iso
  | ovmf
  | ovmfVars
  | removeDisk
  /-- What `--pre-install` does before it calls `systemd-repart`. -/
  | allocate
  | install
  | truncate
  deriving DecidableEq

/-- What the machine does to what it can write to. -/
structure Guest where
  disk : (Nat → UInt8) → Nat → UInt8
  ovmfVars : Bytes → Bytes
  swtpm : List (Bytes × Bytes) → List (Bytes × Bytes)
  iso : Bytes → Bytes

structure Call where
  options : List DiskOption
  /-- The stage that fails, either before it has done anything or after so many bytes. -/
  stop : Option (Stage × Option Nat)
  /-- The image of the pipeline, and that of the element. -/
  download : Bytes
  built : Bytes
  /-- The firmware that is built. -/
  ovmfCode : Bytes
  ovmfVars : Bytes
  /-- What `systemd-repart` leaves when it succeeds, and when it does not. -/
  installed : Disk
  interrupted : Nat → Disk
  /-- The file of `--image`. -/
  image : Disk
  guest : Guest

namespace Call

def settings (c : Call) : Settings := c.options.foldl Settings.set {}

def cut (c : Call) (stage : Stage) : Option (Option Nat) :=
  c.stop.bind fun stop => if stop.1 = stage then some stop.2 else none

/-- The condition of a stage. -/
def wants (c : Call) (s : StateDir) : Stage → Bool
  | .fetch => c.settings.buildid.any fun id => (s.builds id).isNone
  | .removeTpm => !c.settings.noTpm && c.settings.resetSecure
  | .startTpm => !c.settings.noTpm
  | .iso => c.settings.rebuildIso || (s.diskIso.isNone && c.settings.live.isSome)
  | .ovmf => s.ovmfCode.isNone || s.ovmfVarsTemplate.isNone
  | .ovmfVars => c.settings.resetSecure || s.ovmfVars.isNone
  | .removeDisk => c.settings.resetInstalled
  | .allocate => c.settings.live.isNone && c.settings.preInstall
  | .install => c.settings.live.isNone && (c.settings.preInstall || c.settings.fromImage)
  | .truncate => true

/-- A stage that gets to its end; without the files that it needs it fails. -/
def whole (c : Call) (s : StateDir) : Stage → Option StateDir
  -- the name of a download is changed once it is complete
  | .fetch => c.settings.buildid.map fun id =>
      { s with
        builds := Function.update s.builds id (some c.download)
        partials := Function.update s.partials id none }
  | .removeTpm => some { s with swtpm := none }
  | .startTpm => some { s with swtpm := some (s.swtpm.getD []) }
  | .iso => (c.settings.buildid.elim (some c.built) s.builds).map fun image => { s with diskIso := some image }
  | .ovmf => some { s with ovmfCode := some c.ovmfCode, ovmfVarsTemplate := some c.ovmfVars }
  | .ovmfVars => s.ovmfVarsTemplate.map fun template => { s with ovmfVars := some template }
  | .removeDisk => some { s with diskImg := none }
  | .install =>
      if c.settings.preInstall then
        s.diskIso.map fun _ => { s with diskImg := some c.installed }
      else some { s with diskImg := some c.image }
  | .allocate | .truncate => some { s with diskImg := some ((s.diskImg.getD .empty).truncate primarySize) }

/-- What a stage leaves that ends after `n` bytes. -/
def leaves (c : Call) (n : Nat) (s : StateDir) : Stage → StateDir
  | .fetch => c.settings.buildid.elim s fun id =>
      { s with partials := Function.update s.partials id (some (c.download.take n)) }
  | .removeTpm => { s with swtpm := s.swtpm.map (List.drop n) }
  | .startTpm => { s with swtpm := some (s.swtpm.getD []) }
  -- it is checked out elsewhere, and moved when it is complete
  | .iso => s
  | .ovmf =>
      if n ≤ c.ovmfCode.length then { s with ovmfCode := some (c.ovmfCode.take n) }
      else
        { s with
          ovmfCode := some c.ovmfCode
          ovmfVarsTemplate := some (c.ovmfVars.take (n - c.ovmfCode.length - 1)) }
  | .ovmfVars => s.ovmfVarsTemplate.elim s fun template => { s with ovmfVars := some (template.take n) }
  | .removeDisk | .allocate => s
  | .install =>
      if c.settings.preInstall then { s with diskImg := some (c.interrupted n) }
      else { s with diskImg := some (c.image.truncate n) }
  | .truncate => s

end Call

abbrev Script := Program Unit StateDir

def Call.stage (c : Call) (stage : Stage) : Script Unit := do
  let s ← Program.get
  if c.wants s stage then
    match c.cut stage with
    | none => Program.change fun s => (c.whole s stage).elim (.error ()) .ok
    | some none => Program.fail ()
    | some (some n) => do
        Program.update fun s => c.leaves n s stage
        Program.fail ()
  else pure ()

/-- The stages that leave the primary disk alone. -/
def firstStages : List Stage := [.fetch, .removeTpm, .startTpm, .iso, .ovmf, .ovmfVars]

/-- Everything before QEMU is started. -/
def Call.prepare (c : Call) : Script Unit := do
  firstStages.forM c.stage
  c.stage .removeDisk
  c.stage .allocate
  c.stage .install
  c.stage .truncate

/-- QEMU has the installation medium read-only if it is a CD-ROM. -/
def Call.machine (c : Call) (s : StateDir) : StateDir :=
  { s with
    diskImg := s.diskImg.map fun d => ⟨d.size, c.guest.disk d.bytes⟩
    ovmfVars := s.ovmfVars.map c.guest.ovmfVars
    swtpm := if c.settings.noTpm then s.swtpm else s.swtpm.map c.guest.swtpm
    diskIso := if c.settings.live = some .disk then s.diskIso.map c.guest.iso else s.diskIso }

def Call.run (c : Call) : Script Unit := do
  c.prepare
  Program.update c.machine

end GnomeBuildMeta.SecureVm
