import GnomeBuildMeta.Posix.FileName
import GnomeBuildMeta.Posix.Operations

/-!
# save-perms.py

Before BuildStream takes a tree, the script writes a `z` line for each mode that
would be lost.  The extended attributes, which go to lines of their own, are left
out.
-/

namespace GnomeBuildMeta.Perms

open GnomeBuildMeta.Posix

/-! ## Escaping -/

def digit (d : Nat) : Char := Char.ofNat (if d < 10 then 0x30 + d else 0x57 + d)

/-- The last `width` digits of a number. -/
def digits (base : Nat) : Nat → Nat → List Char
  | 0, _ => []
  | width + 1, value => digits base width (value / base) ++ [digit (value % base)]

def escapeChar (m : PyChar) : List Char :=
  let value := m.ord
  if value < 1 <<< 7 then '\\' :: 'x' :: digits 16 2 value
  else if value < 1 <<< 15 then '\\' :: 'u' :: digits 16 4 value
  else '\\' :: 'U' :: digits 16 8 value

/-- A character that needs no escape. -/
def isPlain (c : Char) : Bool :=
  c.isAlphanum || c = '.' || c = '_' || c = '/' || c = '-'

def escapeValue (value : PyString) : List Char :=
  value.flatMap fun m =>
    match m with
    | .scalar c => if isPlain c then [c] else escapeChar m
    | .surrogate _ => escapeChar m

/-! ## The walk -/

/-- `stat.S_IMODE` -/
def imode (perm : Nat) : Nat := perm % 0o10000

/-- `os.path.join('/', os.path.relpath(p, sysroot))` -/
def tmpfilesPath (p : Path FileName) : PyString :=
  .scalar '/' :: List.intercalate [.scalar '/'] (p.reverse.map fun n => fsdecode n.bytes)

def zLine (p : Path FileName) (mode : Nat) : List Char :=
  'z' :: ' ' :: escapeValue (tmpfilesPath p) ++ ' ' :: digits 8 4 mode

/-- The lines for one path of the sysroot. -/
def retrieveOne (fs : FileSystem FileName) (p : Path FileName) : List (List Char) :=
  match fs.get p with
  | some (.file stat _) =>
      let mode := imode stat.perm
      if mode ≠ 0o755 ∧ mode ≠ 0o644 then [zLine p mode] else []
  | some (.dir perm) =>
      let mode := imode perm
      if mode ≠ 0o755 then [zLine p mode] else []
  | _ => []

/-- The paths below one root that the script looks at. -/
def visited (fs : FileSystem FileName) (root : Path FileName) : List (Path FileName) :=
  -- of anything but a directory `os.walk` reports nothing
  if fs.isDirAt root then
    (fs.osWalk root).flatMap fun v =>
      ((v.dirs ++ v.files).map (· :: (v.rel ++ root))).filter fun p => !fs.islink (textOf p)
  else []

/-- The lines for the roots, none of which is a link or reached through one. -/
def retrieve (fs : FileSystem FileName) (roots : List (Path FileName)) : List (List Char) :=
  roots.flatMap fun root => (visited fs root).flatMap (retrieveOne fs)

end GnomeBuildMeta.Perms
