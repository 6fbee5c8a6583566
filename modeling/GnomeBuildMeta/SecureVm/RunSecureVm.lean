import GnomeBuildMeta.Posix.FileName
import GnomeBuildMeta.Words.Base64
import GnomeBuildMeta.Words.Doubled

/-!
# run-secure-vm.sh

The script collects kernel arguments and credentials from its options, adds some
of its own, and gives them to QEMU as the strings of an SMBIOS table of type 11.
A run that exits before it starts QEMU has no result.
-/

namespace GnomeBuildMeta.SecureVm

open Posix Words

/-- A word of the script. -/
def word (text : String) : Bytes := utf8 text.toList

def newline : UInt8 := 10
def space : UInt8 := 32
def comma : UInt8 := 44
def dash : UInt8 := 45
def equals : UInt8 := 61
def atSign : UInt8 := 64
def letterN : UInt8 := 110

/-- What the script finds outside of its arguments. -/
structure Environment where
  readFile : Bytes → Option Bytes
  /-- The portal answers `(true,)` to `SchemeSupported`. -/
  spiceSupported : Bool
  /-- The output of `homectl get-signing-key`. -/
  signingKey : Bytes
  /-- The files of `tmpfiles_extra` in one. -/
  tmpfilesExtra : Bytes
  /-- `ssh/ephemeral.pub`, which is created when it is not there. -/
  sshKey : Bytes

/-! ## The options -/

/-- An option with its operand; `other` is for those that only concern the disks and the TPM. -/
inductive Argument where
  | serial
  | cmdline (text : Bytes)
  | breakpointInitrd (point : Bytes)
  | breakpoint (point : Bytes)
  | debugGlib
  | debugSystemd
  | localUpdates
  | spiceApp
  | gtk
  | homeDisk
  | homeDiskKey (path : Bytes)
  | credential (text : Bytes)
  | element (name : Bytes)
  | other
  deriving DecidableEq

def flags : List (Bytes × Argument) :=
  [(word "--live-cdrom", .other), (word "--no-install", .other), (word "--pre-install", .other),
    (word "--reset-installed", .other), (word "--rebuild-iso", .other), (word "--reset-secure-state", .other),
    (word "--notpm", .other), (word "--serial", .serial), (word "--debug-glib", .debugGlib),
    (word "--debug-systemd", .debugSystemd), (word "--local-updates", .localUpdates),
    (word "--spice-app", .spiceApp), (word "--gtk", .gtk), (word "--no-systemd", .other),
    (word "--no-strict", .other), (word "--interactive", .other)]

def breakpointInitrd (point : Bytes) : Option Argument :=
  if point ∈ [word "pre-udev", word "pre-basic", word "pre-mount", word "pre-switch-root"] then
    some (.breakpointInitrd point)
  else none

def breakpoint (point : Bytes) : Option Argument :=
  if point ∈ [word "pre-udev", word "pre-basic"] then some (.breakpoint point) else none

/-- The options that are followed by an operand. -/
def operands : List (Bytes × (Bytes → Option Argument)) :=
  [(word "--buildid", fun _ => some .other), (word "--cmdline", fun text => some (.cmdline text)),
    (word "--breakpoint-initrd", breakpointInitrd), (word "--breakpoint", breakpoint),
    (word "--home-disk", fun _ => some .homeDisk), (word "--home-disk-key", fun path => some (.homeDiskKey path)),
    (word "--image", fun _ => some .other), (word "--credential", fun text => some (.credential text))]

/-- An argument that is no option with a separate operand. -/
def single (text : Bytes) : Option Argument :=
  match text.dropPrefix? (word "--breakpoint-initrd="), text.dropPrefix? (word "--breakpoint=") with
  | some point, _ => breakpointInitrd point
  | none, some point => breakpoint point
  | none, none => some (.element text)

/-- The options that the loop over `$1` finds; `--help` and a missing operand end the script. -/
def arguments : List Bytes → Option (List Argument)
  | [] => some []
  | first :: rest =>
      if first = word "--help" then none
      else if first = word "--" then some (rest.map .element)
      else
        match flags.lookup first, operands.lookup first, rest with
        | some flag, _, rest => (arguments rest).map (flag :: ·)
        | none, some _, [] => none
        | none, some parse, operand :: rest =>
            (parse operand).bind fun argument => (arguments rest).map (argument :: ·)
        | none, none, rest => (single first).bind fun argument => (arguments rest).map (argument :: ·)

/-- The variables that the options set. -/
structure Options where
  args : List Bytes := []
  cmdline : List Bytes := []
  credentials : List Bytes := []
  homeDisk : Bool := false
  homeDiskKey : Option Bytes := none
  spiceApp : Bool := false
  gtk : Bool := false
  localUpdates : Bool := false
  debugGlib : Bool := false
  deriving DecidableEq

/-- `"${1%%=*}"` -/
def nameOf (text : Bytes) : Bytes := text.takeWhile (· ≠ equals)

/-- `"${1#*=}"` -/
def valueOf (text : Bytes) : Bytes :=
  match text.dropWhile (· ≠ equals) with
  | [] => text
  | _ :: value => value

/-- `echo` takes the value for an option if it is a dash and letters of its options. -/
def isEchoOption : Bytes → Bool
  | [] => false
  | c :: letters => c == dash && !letters.isEmpty && letters.all fun letter => (word "neE").contains letter

/-- The output of `echo "${value}"`. -/
def echo (value : Bytes) : Bytes :=
  if isEchoOption value then if letterN ∈ value then [] else [newline] else value ++ [newline]

/-- What is encoded for a value. -/
def content (env : Environment) : Bytes → Option Bytes
  | [] => some (echo [])
  | c :: rest => if c = atSign then env.readFile rest else some (echo (c :: rest))

def entry (name content : Bytes) : Bytes := name ++ equals :: Base64.encode content

def addCredential (env : Environment) (text : Bytes) : Option Bytes :=
  (content env (valueOf text)).map (entry (nameOf text))

/-- The branch of the `case` for an option. -/
def act (env : Environment) (s : Options) : Argument → Option Options
  | .serial => some { s with cmdline := s.cmdline ++ [word "console=ttyS0"] }
  | .cmdline text => some { s with cmdline := s.cmdline ++ [text] }
  | .breakpointInitrd point =>
      some { s with cmdline := s.cmdline ++ [word "rd.systemd.break=" ++ point, word "rd.systemd.debug_shell=1"] }
  | .breakpoint point =>
      some { s with cmdline := s.cmdline ++ [word "systemd.break=" ++ point, word "systemd.debug_shell=1"] }
  | .debugGlib => some { s with debugGlib := true }
  | .debugSystemd => some { s with cmdline := s.cmdline ++ [word "systemd.log_level=debug"] }
  | .localUpdates => some { s with localUpdates := true }
  | .spiceApp => some { s with spiceApp := true }
  | .gtk => some { s with gtk := true }
  | .homeDisk => some { s with homeDisk := true }
  | .homeDiskKey path => some { s with homeDiskKey := some path }
  | .credential text =>
      (addCredential env text).map fun encoded => { s with credentials := s.credentials ++ [encoded] }
  | .element name => some { s with args := s.args ++ [name] }
  | .other => some s

/-! ## The additions of the script -/

def homeDisk (env : Environment) (s : Options) : Option Options :=
  if s.homeDisk then
    (s.homeDiskKey.elim (some env.signingKey) env.readFile).map fun key =>
      { s with
        credentials := s.credentials ++ [entry (word "home.add-signing-key.host.public") key]
        cmdline := s.cmdline ++ [word "gnome.initial-setup=0"] }
  else some s

def spiceApp (env : Environment) (s : Options) : Options :=
  if s.spiceApp || (!s.gtk && env.spiceSupported) then
    { s with cmdline := s.cmdline ++ [word "console=tty0"] }
  else s

def wantSshd (s : Options) : Options :=
  { s with cmdline := s.cmdline ++ [word "systemd.wants=sshd.service"] }

def tmpfiles (env : Environment) (s : Options) : Options :=
  if s.localUpdates || s.debugGlib then
    { s with credentials := s.credentials ++ [entry (word "tmpfiles.extra") env.tmpfilesExtra] }
  else s

def ssh (env : Environment) (s : Options) : Options :=
  { s with credentials := s.credentials ++ [entry (word "ssh.ephemeral-authorized_keys-all") env.sshKey] }

/-! ## The option of QEMU -/

def kernelPrefix : Bytes := word "io.systemd.stub.kernel-cmdline-extra="

def credentialPrefix : Bytes := word "io.systemd.credential.binary:"

/-- The values of `TYPE11`; the commas are doubled in the kernel arguments only. -/
def type11 (s : Options) : List Bytes :=
  (if s.cmdline ≠ [] then
    [word "value=" ++ kernelPrefix ++ [space].intercalate (s.cmdline.map (doubled comma))]
  else []) ++ s.credentials.map fun credential => word "value=" ++ credentialPrefix ++ credential

def smbios (values : List Bytes) : List Bytes :=
  if values ≠ [] then [word "-smbios", word "type=11," ++ [comma].intercalate values] else []

/-- The SMBIOS arguments with which the script starts QEMU. -/
def runSecureVm (env : Environment) (argv : List Bytes) : Option (List Bytes) := do
  let given ← arguments argv
  let s ← given.foldlM (act env) {}
  if 2 ≤ s.args.length then none
  else
    let s ← homeDisk env s
    return smbios (type11 (ssh env (tmpfiles env (wantSshd (spiceApp env s)))))

end GnomeBuildMeta.SecureVm
