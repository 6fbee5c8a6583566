import GnomeBuildMeta.Control.Run
import GnomeBuildMeta.Live.KernelCmdline
import GnomeBuildMeta.Posix.FileSystem
import Mathlib.Logic.Function.Basic

/-!
# generator.c

The generator of the live system runs in the initrd, on the host, and again
whenever systemd reloads its units.  It writes to its own directory, which
systemd empties before each run, and to `/run`.  Any of its calls may fail.
-/

namespace GnomeBuildMeta.Live

open GnomeBuildMeta.Control

/-! ## Files -/

/-- The directory that is the first argument, and `/run`. -/
inductive Place where
  | generated
  | run
  deriving DecidableEq

/-- A path below the place, its last name first. -/
structure Location where
  place : Place
  path : Posix.Path String
  deriving DecidableEq

def Location.parent (l : Location) : Location := { l with path := l.path.tail }

inductive Entry where
  | file (text : String)
  | link (target : String)
  deriving DecidableEq

structure Files where
  dirs : Location → Bool
  entries : Location → Option Entry

def Files.put (files : Files) (l : Location) (entry : Entry) : Files :=
  { files with entries := Function.update files.entries l (some entry) }

/-! ## Operations -/

inductive Op where
  /-- The result of `mkdir` is ignored. -/
  | mkdir (dir : Location)
  /-- `fopen`, `fprintf` and `fclose`, or `open` and `close` for an empty text. -/
  | write (file : Location) (text : String)
  | symlink (target : String) (link : Location)
  deriving DecidableEq

/-- What an operation does when none of its calls fails. -/
def Op.run (files : Files) : Op → Option Files
  | .mkdir dir =>
      if files.dirs dir.parent = true ∧ files.entries dir = none then
        some { files with dirs := Function.update files.dirs dir true }
      else some files
  | .write file text =>
      match files.entries file with
      -- what the link leads to is written
      | some (.link _) => some files
      | _ =>
          if files.dirs file.parent = true ∧ files.dirs file = false then
            some (files.put file (.file text))
          else none
  | .symlink target link =>
      if files.dirs link.parent = true ∧ files.dirs link = false ∧ files.entries link = none then
        some (files.put link (.link target))
      else none

def generated (path : Posix.Path String) : Location := ⟨.generated, path⟩

def maskUnit (name : String) : List Op := [.symlink "/dev/null" (generated [name])]

def generateUnitConfig (name config text : String) : List Op :=
  [.mkdir (generated [name ++ ".d"]), .write (generated [config, name ++ ".d"]) text]

def generateUnit (name text : String) : List Op := [.write (generated [name]) text]

def enableUnit (from' unit unitPath : String) : List Op :=
  [.mkdir (generated [from']), .symlink (unitPath ++ "/" ++ unit) (generated [unit, from'])]

/-- `/run/gnomeos/is-live` -/
def isLiveFile : Location := ⟨.run, ["is-live", "gnomeos"]⟩

def markLive : List Op := [.mkdir isLiveFile.parent, .write isLiveFile ""]

def zramConf : Location := ⟨.run, ["zram1.conf", "zram-generator.conf.d", "systemd"]⟩

/-- In the initrd a file that cannot be opened is written to all the same, which ends the generator too. -/
def handleLive (inInitrd : Bool) : List Op :=
  if inInitrd then
    [.mkdir zramConf.parent, .write zramConf "[zram1]\nmount-point=/sysroot\nfs-type=btrfs\n"] ++
    generateUnitConfig "systemd-zram-setup@zram1.service" "dependencies.conf"
      "[Unit]\nBefore=initrd-root-device.target\n" ++
    enableUnit "initrd-root-device.target.wants" "systemd-zram-setup@zram1.service"
      "/usr/lib/systemd/system" ++
    generateUnitConfig "sysroot.mount" "dependencies.conf" "[Unit]\nBefore=initrd-root-fs.target\n" ++
    enableUnit "initrd-root-fs.target.requires" "sysroot.mount" ".." ++
    generateUnitConfig "sysroot-usr.mount" "dependencies.conf"
      "[Unit]\nRequires=sysroot.mount\nAfter=sysroot.mount\n"
  else
    [.mkdir zramConf.parent, .write zramConf "[zram1]\nmount-point=/\nfs-type=btrfs\n"] ++
    markLive ++
    generateUnit "var-lib-gnomeos-installer\\x2desp.mount"
      ("[Unit]\n" ++
       "BindsTo=dev-gnomeos\\x2dinstaller-esp.device\n" ++
       "After=dev-gnomeos\\x2dinstaller-esp.device\n" ++
       "\n" ++
       "[Mount]\n" ++
       "What=/dev/gnomeos-installer/esp\n" ++
       "Where=/var/lib/gnomeos/installer-esp\n" ++
       "Type=vfat\n" ++
       "Options=fmask=0177,dmask=0077,ro,nodev,nosuid,noexec,nosymfollow\n") ++
    generateUnit "var-lib-gnomeos-installer\\x2desp.automount"
      "[Automount]\nWhere=/var/lib/gnomeos/installer-esp\nTimeoutIdleSec=120\n" ++
    enableUnit "local-fs.target.wants" "var-lib-gnomeos-installer\\x2desp.automount" ".." ++
    generateUnit "systemd-cryptsetup@root.service"
      ("[Unit]\n" ++
       "Description=Cryptography Setup for %I\n" ++
       "\n" ++
       "DefaultDependencies=no\n" ++
       "After=cryptsetup-pre.target systemd-udevd-kernel.socket systemd-tpm2-setup-early.service\n" ++
       "Before=blockdev@dev-mapper-%i.target\n" ++
       "Wants=blockdev@dev-mapper-%i.target\n" ++
       "IgnoreOnIsolate=true\n" ++
       "Before=umount.target cryptsetup.target\n" ++
       "Conflicts=umount.target\n" ++
       "Wants=dev-gnomeos\\x2dpab\\x2dinstall-root\\x2dluks.device\n" ++
       "After=dev-gnomeos\\x2dpab\\x2dinstall-root\\x2dluks.device\n" ++
       "\n" ++
       "[Service]\n" ++
       "Type=oneshot\n" ++
       "RemainAfterExit=yes\n" ++
       "TimeoutSec=infinity\n" ++
       "KeyringMode=shared\n" ++
       "OOMScoreAdjust=500\n" ++
       "ExecStart=/usr/bin/systemd-cryptsetup attach root /dev/gnomeos-pab-install/root-luks\n" ++
       "ExecStop=/usr/bin/systemd-cryptsetup detach root\n") ++
    generateUnit "efi.mount"
      ("[Unit]\n" ++
       "BindsTo=dev-gnomeos\\x2dpab\\x2dinstall-esp.device\n" ++
       "After=dev-gnomeos\\x2dpab\\x2dinstall-esp.device\n" ++
       "\n" ++
       "[Mount]\n" ++
       "What=/dev/gnomeos-pab-install/esp\n" ++
       "Where=/efi\n" ++
       "Type=vfat\n" ++
       "Options=fmask=0177,dmask=0077,rw,nodev,nosuid,noexec,nosymfollow\n") ++
    generateUnit "efi.automount" "[Automount]\nWhere=/efi\nTimeoutIdleSec=120\n"

def handleSafe (inInitrd : Bool) : List Op :=
  if inInitrd then maskUnit "systemd-sysext-initrd.service" ++ maskUnit "systemd-sysext-sysroot.service"
  else maskUnit "systemd-sysext.service"

def nvidiaConf : Location := ⟨.run, ["gnomeos-nvidia.conf", "modprobe.d"]⟩

def handleNvidia : List Op :=
  [.mkdir nvidiaConf.parent,
   .write nvidiaConf ("blacklist nouveau\n" ++ "options nvidia_drm modeset=1\n" ++
     "options nvidia NVreg_PreserveVideoMemoryAllocations=1\n")]

def handled (flags : Flags) (inInitrd : Bool) : List Op :=
  (if flags.isLive then handleLive inInitrd else []) ++
  (if flags.isSafe then handleSafe inInitrd else []) ++
  (if !flags.isSafe && flags.isNvidia then handleNvidia else [])

/-- What `main` reads of the environment variable `SYSTEMD_IN_INITRD`. -/
def inInitrd (value : Option String) : Bool := value.any fun value => value ≠ "" && value ≠ "0"

/-- What `main` does, unless it gives up or crashes before that. -/
def mainOps (argc : Nat) (cmdline : Option Text) (environment : Option String) : Option (List Op) :=
  if argc ≠ 4 then none
  else (cmdline.bind parseCmdline).map fun flags => handled flags (inInitrd environment)

/-! ## The system -/

def Op.target : Op → Option Location
  | .mkdir _ => none
  | .write file _ => some file
  | .symlink _ link => some link

/-- Everything that any run of the generator does. -/
def allOps : List Op :=
  handleLive true ++ handleLive false ++ handleSafe true ++ handleSafe false ++ handleNvidia

/-- The files and links of the generator; nobody else uses their names. -/
def IsOurs (l : Location) : Prop := l ∈ allOps.filterMap Op.target

structure Process where
  inInitrd : Bool
  ops : List Op

structure System where
  files : Files
  process : Option Process

/-- The system is booted: the generator has not run yet. -/
structure System.Booted (s : System) : Prop where
  files : ∀ l, IsOurs l → s.files.entries l = none
  process : s.process = none

inductive Action where
  /-- `main` is called; `readable` says whether it can read `/proc/cmdline`. -/
  | start (argc : Nat) (readable : Bool) (environment : Option String)
  | op
  /-- Not all of a text gets to the file, which nobody checks. -/
  | short
  /-- `mkdir` fails. -/
  | skip
  /-- A call fails, or the generator is killed. -/
  | stop
  | finish (inInitrd : Bool)
  /-- Other generators and programs do something at names that are not ours. -/
  | others
  /-- systemd empties the directory before the generators run, also on another root. -/
  | flush
  deriving DecidableEq

/-- One step in a boot with the given command line. -/
inductive Step (cmdline : Text) (s : System) : Action → System → Prop where
  | start {argc : Nat} {readable : Bool} {environment : Option String} (idle : s.process = none) :
      Step cmdline s (.start argc readable environment)
        ⟨s.files, (mainOps argc (if readable then some cmdline else none) environment).map
          fun ops => ⟨inInitrd environment, ops⟩⟩
  | op {p : Process} {op : Op} {rest : List Op} {files : Files} (running : s.process = some p)
      (next : p.ops = op :: rest) (done : op.run s.files = some files) :
      Step cmdline s .op ⟨files, some { p with ops := rest }⟩
  | short {p : Process} {file : Location} {text part : String} {rest : List Op} {files : Files}
      (running : s.process = some p) (next : p.ops = .write file text :: rest)
      (partly : part.toList <+: text.toList) (done : (Op.write file part).run s.files = some files) :
      Step cmdline s .short ⟨files, some { p with ops := rest }⟩
  | skip {p : Process} {dir : Location} {rest : List Op} (running : s.process = some p)
      (next : p.ops = .mkdir dir :: rest) : Step cmdline s .skip ⟨s.files, some { p with ops := rest }⟩
  | stop {p : Process} (running : s.process = some p) : Step cmdline s .stop { s with process := none }
  | finish {p : Process} (running : s.process = some p) (done : p.ops = []) :
      Step cmdline s (.finish p.inInitrd) { s with process := none }
  | others {after : Files} (keeps : ∀ l, IsOurs l → after.entries l = s.files.entries l) :
      Step cmdline s .others { s with files := after }
  | flush {after : Files} (idle : s.process = none) (emptied : ∀ path, after.entries ⟨.generated, path⟩ = none)
      (keeps : ∀ path, after.entries ⟨.run, path⟩ = s.files.entries ⟨.run, path⟩) :
      Step cmdline s .flush { s with files := after }

end GnomeBuildMeta.Live
