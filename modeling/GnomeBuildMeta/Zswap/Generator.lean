import GnomeBuildMeta.Words.Cut
import Mathlib.Data.String.Basic

/-!
# The generator of zswap units

`generator` reads the command line, the state of zswap and `zswap.conf`, and
writes a service and a swap unit for each table of the configuration.
-/

namespace GnomeBuildMeta.Zswap

abbrev Text := List Char

/-! ## Names and paths -/

/-- `{:02x}` -/
def hexByte (byte : UInt8) : Text :=
  [Nat.digitChar (byte.toNat / 16), Nat.digitChar (byte.toNat % 16)]

def escapedChar (c : Char) : Text :=
  if c.isAlphanum then [c]
  else (String.utf8EncodeChar c).flatMap fun byte => '\\' :: 'x' :: hexByte byte

def escaped (name : Text) : Text := name.flatMap escapedChar

/-- The pieces of a path from its end, without the last ones that are no components. -/
def trimBack : List Text → List Text
  | [] => []
  | piece :: rest =>
      if piece = [] ∨ piece = ['.'] ∧ rest ≠ [] then trimBack rest else piece :: rest

/-- `Path::parent` -/
def parent (path : Text) : Option Text :=
  match trimBack (path.splitOn '/').reverse with
  | [] => none
  | _ :: rest =>
      some (match trimBack rest with
        | [] => if path.head? = some '/' then ['/'] else []
        | pieces => ['/'].intercalate pieces.reverse)

/-! ## The configuration -/

inductive Value where
  | string (text : Text)
  | integer (i : Int64)
  | other

/-- What `cfg.get` finds in an entry of the table. -/
structure Cfg where
  path : Option Value
  size : Option Value

abbrev Table := List (Text × Cfg)

inductive Error where
  | zswapModuleMissing
  | configuration (message : Text)
  /-- What a library call returned. -/
  | other

def getPath (name : Text) (cfg : Cfg) : Except Error Text :=
  match cfg.path with
  | some (.string s) => .ok s
  | _ => .error (.configuration ("expected string value for path for ".toList ++ name))

def getSize (name : Text) (cfg : Cfg) : Except Error Int64 :=
  match cfg.size with
  | some (.integer i) => .ok i
  | _ => .error (.configuration ("expected integer value for size for ".toList ++ name))

/-! ## The units -/

/-- A file in the directory of the generator, by the lines that are written. -/
structure UnitFile where
  name : Text
  lines : List Text
  deriving DecidableEq

/-- The lines on what the service depends on. -/
def unitSection (path : Text) : List Text :=
  ["[Unit]".toList, "DefaultDependencies=no".toList, "Before=shutdown.target".toList,
    "Conflicts=shutdown.target".toList, "After=systemd-udev-trigger.service".toList] ++
  (parent path).toList.map ("RequiresMountsFor=".toList ++ ·)

def zswapSetup : Text := "/usr/lib/zswap-generator/zswap-setup".toList

/-- The value of `ExecStart`. -/
def createValue (path : Text) (size : Int64) : Text :=
  zswapSetup ++ " create ".toList ++ path ++ " %I ".toList ++ (toString size.toInt).toList

/-- The value of `ExecStop`. -/
def stopValue (path : Text) : Text := zswapSetup ++ " stop ".toList ++ path ++ " %I".toList

def serviceUnit (name path : Text) (size : Int64) : UnitFile where
  name := "zswap-setup@".toList ++ escaped name ++ ".service".toList
  lines := unitSection path ++
    ["[Service]".toList, "Type=oneshot".toList, "RemainAfterExit=yes".toList,
      "ExecStart=udevadm settle".toList, "ExecStart=".toList ++ createValue path size,
      "ExecStop=".toList ++ stopValue path]

def swapUnit (name : Text) : UnitFile where
  name := "dev-disk-by\\x2dlabel-".toList ++ escaped name ++ ".swap".toList
  lines :=
    ["[Unit]".toList,
      "Wants=zswap-setup@".toList ++ escaped name ++ ".service".toList,
      "After=zswap-setup@".toList ++ escaped name ++ ".service dev-disk-by\\x2dlabel-".toList ++
        escaped name ++ ".device".toList,
      "BindsTo=dev-disk-by\\x2dlabel-".toList ++ escaped name ++ ".device".toList,
      "[Swap]".toList, "What=/dev/disk/by-label/".toList ++ name, "Options=discard".toList]

/-- What is written for one table. -/
def writeUnits (name : Text) (cfg : Cfg) : Except Error (List UnitFile) := do
  let path ← getPath name cfg
  let size ← getSize name cfg
  return [serviceUnit name path size, swapUnit name]

/-- The loop over the configuration; what was written before an error stays. -/
def writeAll : Table → List UnitFile × Option Error
  | [] => ([], none)
  | (name, cfg) :: rest =>
      match writeUnits name cfg with
      | .error e => ([], some e)
      | .ok units => (units ++ (writeAll rest).1, (writeAll rest).2)

/-! ## The generator -/

/-- What the generator finds on the machine. -/
structure Machine where
  /-- `procfs::cmdline` -/
  cmdline : List Text
  zswapParameters : Bool
  enabled : Except Error Text
  /-- `/etc/zswap.conf`, as the toml crate parses it, if the file is there. -/
  config : Except Error (Option Table)
  memory : Except Error Int64

inductive Outcome where
  /-- The sysctl configuration is masked, and no swap file is wanted. -/
  | disabled
  | failed (e : Error)
  | units (written : List UnitFile) (error : Option Error)

/-- The loop over the command line. -/
def isLive (cmdline : List Text) : Bool := cmdline.any fun arg => arg = "root=live:gnomeos".toList

def defaultTable (memory : Int64) : Table :=
  [("default-swap".toList, ⟨some (.string "/swap/default-swap".toList), some (.integer (memory * 4))⟩)]

def readConfig (m : Machine) : Except Error Table := do
  match ← m.config with
  | some table => return table
  | none => return defaultTable (← m.memory)

def generator (m : Machine) : Outcome :=
  if isLive m.cmdline then .disabled
  else if !m.zswapParameters then .failed .zswapModuleMissing
  else
    match m.enabled with
    | .error e => .failed e
    | .ok enabled =>
        if enabled ≠ "Y\n".toList then .disabled
        else
          match readConfig m with
          | .error e => .failed e
          | .ok table => .units (writeAll table).1 (writeAll table).2

end GnomeBuildMeta.Zswap
