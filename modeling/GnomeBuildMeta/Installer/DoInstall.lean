import GnomeBuildMeta.Control.Program
import GnomeBuildMeta.Installer.Daemon
import GnomeBuildMeta.Posix.Operations
import GnomeBuildMeta.Posix.Text

/-!
# The installation

`do_install` works through its steps and returns at the first one that fails.
What it does to the file system stays when it returns early.  Programs and
services that it calls are given by their outcomes.
-/

namespace GnomeBuildMeta.Installer

open GnomeBuildMeta.Control GnomeBuildMeta.Posix

/-- `ExitStatus::code`, which a program killed by a signal does not have. -/
abbrev ExitStatus := Option Int

inductive InstallerError where
  | command (program : String) (code : ExitStatus)
  | unit (unit : String)
  | genericInstall (reason : String)
  | zbus (error : String)
  | io (error : Errno)
  | fromUtf8Error
  | json
  | join
  deriving DecidableEq, Repr

/-- A JSON value, as far as `do_install` looks into it. -/
inductive Json where
  | other
  | string (value : String)
  | array (values : List Json)
  | object (fields : List (String × Json))

def Json.asArray : Json → Option (List Json)
  | .array values => some values
  | _ => none

def Json.asObject : Json → Option (List (String × Json))
  | .object fields => some fields
  | _ => none

def Json.asStr : Json → Option String
  | .string value => some value
  | _ => none

/-- How one command ends: whether it can be started, and what waiting for it returns. -/
structure Child where
  spawn : Except Errno Unit
  wait : Except Errno ExitStatus

/-- The command can be started and exits with the code 0. -/
def Child.succeeds (c : Child) : Bool :=
  c.spawn.isOk && match c.wait with
    | .ok status => status = some 0
    | .error _ => false

/-- A command that was started and the file system at that moment. -/
structure Started where
  program : String
  args : List String
  fs : FileSystem String

/-- The file system of the running system and the commands started so far, the last one first. -/
structure World where
  fs : FileSystem String
  started : List Started

/-- The outcomes of the steps of one installation. -/
structure Outcomes where
  /-- The path of the new temporary directory, if it can be made and is UTF-8. -/
  tempdir : Except InstallerError String
  writeRepartD : Except InstallerError Unit
  dryRun : Child
  /-- `LogindProxy::new` and `inhibit`. -/
  inhibit : Except InstallerError Unit
  createKeysDir : Except Errno Unit
  /-- Opening the key file, or the number of bytes after which writing it fails. -/
  keyFile : Except (Option Nat × Errno) Unit
  createPabDir : Except Errno Unit
  openMarker : Except Errno Unit
  makePolicy : Except InstallerError Unit
  repart : Child
  /-- What `from_utf8` and `serde_json::from_str` make of the output. -/
  parsed : Except InstallerError Json
  cryptsetupToken : Child
  writeToken : Except InstallerError Unit
  removeCredentials : Except Errno Unit
  enableEfi : Except InstallerError Unit
  swapVerity : Child
  stopZram : Except InstallerError Unit
  removeLoop : Except InstallerError Unit

abbrev Step := Program InstallerError World

namespace Step

/-- A step outside the file system that only succeeds or fails. -/
def check {β : Type} (outcome : Except InstallerError β) : Step β := Program.outside outcome

def io {β : Type} (outcome : Except Errno β) : Step β := check (outcome.mapError .io)

/-- `ok_or(GenericInstallError::new(reason))` -/
def okOr {β : Type} (reason : String) (value : Option β) : Step β :=
  check (value.elim (.error (.genericInstall reason)) .ok)

/-- A change of the file system. -/
def touch (change : FileSystem String → Except Errno (FileSystem String)) : Step Unit :=
  Program.change fun w =>
    match change w.fs with
    | .ok fs => .ok { w with fs := fs }
    | .error e => .error (.io e)

/-- The command is started with the file system as it is now. -/
def record (program : String) (args : List String) : Step Unit :=
  Program.update fun w => { w with started := ⟨program, args, w.fs⟩ :: w.started }

def onlyIf (condition : Bool) (step : Step Unit) : Step Unit :=
  if condition then step else pure ()

/-- Start a command, wait for it and require the exit code 0. -/
def command (name program : String) (args : List String) (child : Child) : Step Unit := do
  io child.spawn
  record program args
  let status ← io child.wait
  check (if status = some 0 then .ok () else .error (.command name status))

end Step

namespace Step

variable {P R : World → Prop}

theorem check_decided {β : Type} (outcome : Except InstallerError β) :
    (check outcome).Decided P outcome.isOk P := .outside outcome

theorem io_decided {β : Type} (outcome : Except Errno β) : (io outcome).Decided P outcome.isOk P := by
  cases outcome <;> exact check_decided _

theorem touch_decided {change : FileSystem String → Except Errno (FileSystem String)}
    (step : ∀ w, P w → ∃ fs, change w.fs = .ok fs ∧ R { w with fs := fs }) :
    (touch change).Decided P true R := by
  refine .change fun w holds => ?_
  obtain ⟨fs, changed, after⟩ := step w holds
  exact ⟨{ w with fs := fs }, by rw [changed], after⟩

theorem record_decided {program : String} {args : List String}
    (step : ∀ w, P w → R { w with started := ⟨program, args, w.fs⟩ :: w.started }) :
    (record program args).Decided P true R := .update step

/-- A command whose start is without consequence for `P`. -/
theorem command_decided {name program : String} {args : List String} (child : Child)
    (step : ∀ w, P w → P { w with started := ⟨program, args, w.fs⟩ :: w.started }) :
    (command name program args child).Decided P child.succeeds P := by
  refine (io_decided child.spawn).bind fun _ => ?_
  refine Program.Decided.bind (b := true) (record_decided step) fun _ => ?_
  intro w holds
  cases child.wait with
  | error e => exact ⟨holds, rfl⟩
  | ok status =>
      by_cases zero : status = some 0
      · subst zero
        exact ⟨holds, rfl⟩
      · have ended : check (if status = some 0 then .ok () else .error (.command name status)) w =
            (.error (.command name status), w) := by rw [if_neg zero]; rfl
        change P (check _ w).2 ∧ (check _ w).1.isOk = decide (status = some 0)
        rw [ended]
        exact ⟨holds, by simp [zero, Except.isOk, Except.toBool]⟩

end Step

/-! ## The steps -/

/-- The mode that `mode(0600)` asks for: a decimal number. -/
def keyMode : Nat := 600

def newFile (perm : Nat) : Stat := ⟨perm, 0, 0, 0⟩

def keysDirText : PathText String := .empty :: textOf ["cryptsetup-keys.d", "run"]

def keyText : PathText String := .empty :: textOf ["root.key", "cryptsetup-keys.d", "run"]

def pabText : PathText String := .empty :: textOf ["gnomeos-pab", "run"]

/-- `format!("/run/gnomeos-pab/{device}")` -/
def markerText (device : String) : PathText String := pabText ++ pathText device

def saveKey (outcome : Except (Option Nat × Errno) Unit) (passphrase : String) : Step Unit :=
  let bytes := passphrase.toByteArray.toList
  let write := fun data => Step.touch fun fs => fs.openWrite keyText (newFile keyMode) data
  match outcome with
  | .ok () => write bytes
  | .error (none, e) => Step.check (.error (.io e))
  | .error (some n, e) => do
      write (bytes.take n)
      Step.check (.error (.io e))

def markDevice (env : Outcomes) (device : String) : Step Unit := do
  Step.io env.createPabDir
  Step.touch fun fs => fs.createDirAll 0o755 pabText.reverse
  Step.io env.openMarker
  Step.touch fun fs => fs.openWrite (markerText device) (newFile 0o644) []

/-- The arguments of `systemd-repart` for the dry run. -/
def dryRunArgs (repartD device : String) : List String :=
  ["--dry-run=yes", "--empty=require", "--offline=no", "--definitions=" ++ repartD, "/dev/" ++ device]

/-- The arguments of `systemd-repart` when it is started for real. -/
def repartArgs (repartD : String) (i : Installation) : List String :=
  ["--dry-run=no", "--empty=require", "--json=short", "--offline=no", "--definitions=" ++ repartD] ++
    (if i.recipe.oemInstall then ["--defer-partitions=root"]
    else if i.hasTpm2 then ["--key-file=/run/cryptsetup-keys.d/root.key", "--tpm2-device=auto"]
    else []) ++
    ["/dev/" ++ i.recipe.device]

/-- The partition that one object of the output describes. -/
def partition (d : Json) : Except InstallerError (String × String) := do
  let need := fun {β : Type} (reason : String) (value : Option β) =>
    value.elim (Except.error (InstallerError.genericInstall reason)) .ok
  let disk ← need "not an object" d.asObject
  let file ← need "file missing" (disk.lookup "file")
  let file ← need "not a string" file.asStr
  let name ← need "not a file name" (fileName (pathText file))
  let node ← need "node missing" (disk.lookup "node")
  let node ← need "not a string" node.asStr
  return (name, node)

/-- The map from definition files to partitions, the last object of a name first. -/
def partitions (disks : Json) : Except InstallerError (List (String × String)) := do
  let array ← disks.asArray.elim (.error (.genericInstall "not an array")) .ok
  let found ← array.mapM partition
  return found.reverse

def importToken (env : Outcomes) (rootPartition : String) : Step Unit := do
  Step.io env.cryptsetupToken.spawn
  Step.record "cryptsetup"
    ["token", "--key-slot", "0", "import", "--json-file=-", rootPartition]
  let status ← Step.io env.cryptsetupToken.wait
  Step.check env.writeToken
  Step.check (if status = some 0 then .ok () else .error (.command "cryptsetup token" status))

/-- The part after the disk has been partitioned: the running system moves to it. -/
def moveOver (env : Outcomes) (i : Installation) (partitions : List (String × String)) :
    Step Unit := do
  Step.onlyIf i.hasTpm2 (Step.io env.removeCredentials)
  let usr ← Step.okOr "missing 21-usr-A.conf" (partitions.lookup "21-usr-A.conf")
  let verity ← Step.okOr "missing 20-usr-verity-A.conf" (partitions.lookup "20-usr-verity-A.conf")
  -- the three run side by side; whichever fails first, the result is an error
  Step.command "swap-verity" "/usr/lib/gnomeos-installer/swap-verity" ["usr", usr, verity]
    env.swapVerity
  Step.check env.enableEfi
  Step.check env.stopZram
  Step.check env.removeLoop

def doInstall (env : Outcomes) (i : Installation) : Step Unit := do
  let repartD ← Step.check env.tempdir
  Step.check env.writeRepartD
  Step.command "systemd-repart dry run" "systemd-repart" (dryRunArgs repartD i.recipe.device)
    env.dryRun
  Step.check env.inhibit
  Step.io env.createKeysDir
  Step.touch fun fs => fs.createDirAll 0o755 keysDirText.reverse
  Step.onlyIf (i.hasTpm2 && !i.recipe.oemInstall) (saveKey env.keyFile i.recipe.recoveryPassphrase)
  markDevice env i.recipe.device
  Step.onlyIf (i.hasTpm2 && i.hasPcrlock && !i.recipe.oemInstall) (Step.check env.makePolicy)
  Step.command "systemd-repart" "systemd-repart" (repartArgs repartD i) env.repart
  let disks ← Step.check env.parsed
  let partitions ← Step.check (partitions disks)
  Step.onlyIf (!i.recipe.oemInstall && i.hasTpm2) do
    let rootPartition ← Step.okOr "missing 50-root.conf" (partitions.lookup "50-root.conf")
    importToken env rootPartition
  Step.onlyIf (!i.recipe.oemInstall) (moveOver env i partitions)

/-! ## The udev rules -/

/-- What the rules read about a block device. -/
structure BlockDevice where
  kernel : String
  isPartition : Bool
  parent : Option String
  fsType : String
  entryName : String
  entryType : String

/-- `TEST=="/run/gnomeos-pab/%k"`; a kernel name has no slashes. -/
def testMarker (fs : FileSystem String) (kernel : String) : Bool :=
  (fs.stat (pabText ++ [.name kernel])).isSome

/-- The links below `/dev` that the rules give a block device. -/
def pabLinks (fs : FileSystem String) (device : BlockDevice) : List String :=
  if !device.isPartition then []
  -- `IMPORT{parent}` fetches the mark of the disk that the partition is on
  else if !(testMarker fs device.kernel || device.parent.any (testMarker fs)) then []
  else
    let named := fun start : String => start.toList.isPrefixOf device.entryName.toList
    (if device.fsType = "DM_verity_hash" && named "gnomeos_usr_v_" then
      ["gnomeos-pab-install/verity"] else []) ++
    (if (device.fsType = "squashfs" || device.fsType = "erofs") && named "gnomeos_usr_" then
      ["gnomeos-pab-install/usr"] else []) ++
    (if device.fsType = "crypto_LUKS" && device.entryName = "root" then
      ["gnomeos-pab-install/root-luks"] else []) ++
    (if device.entryType = "c12a7328-f81f-11d2-ba4b-00a0c93ec93b" then
      ["gnomeos-pab-install/esp"] else [])

end GnomeBuildMeta.Installer
