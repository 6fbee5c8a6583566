import GnomeBuildMeta.Perms.SavePerms

/-!
# Reading the lines back

`systemd-tmpfiles --create` takes the path of a line through three stages: the
escapes are undone, the specifiers are expanded, and the rest is a pattern for
the paths whose mode is set.
-/

namespace GnomeBuildMeta.Perms

open GnomeBuildMeta.Posix

/-! ## C-style escapes -/

/-- Where the reading of a field is; the digits still to come make a byte or a code point. -/
inductive Unescape where
  | plain
  | backslash
  | digits (base left value : Nat) (asByte : Bool)
  deriving DecidableEq, Repr

def digitValue (base : Nat) (c : Char) : Option Nat :=
  let value :=
    if c.isDigit then c.toNat - 0x30
    else if 'a' ≤ c ∧ c ≤ 'f' then c.toNat - 0x57
    else if 'A' ≤ c ∧ c ≤ 'F' then c.toNat - 0x37
    else base
  if value < base then some value else none

/-- The bytes of a number that was escaped; null bytes, surrogates and larger numbers are refused. -/
def escapedBytes (value : Nat) (asByte : Bool) : Option Bytes :=
  if value = 0 then none
  else if asByte then (if value < 256 then some [UInt8.ofNat value] else none)
  else if valid : value.isValidChar then some (String.utf8EncodeChar (Char.ofNatAux value valid))
  else none

/-- The bytes of the escapes that are one letter. -/
def letterByte (c : Char) : Option UInt8 :=
  match c with
  | 'a' => some 7
  | 'b' => some 8
  | 't' => some 9
  | 'n' => some 10
  | 'v' => some 11
  | 'f' => some 12
  | 'r' => some 13
  | 's' => some 32
  | '"' => some 34
  | '\u0027' => some 39
  | '\\' => some 92
  | _ => none

def unescapeFrom : Unescape → List Char → Option Bytes
  | .plain, [] => some []
  | .backslash, [] => none
  | .digits _ _ _ _, [] => none
  | .plain, c :: rest =>
      if c = '\\' then unescapeFrom .backslash rest
      else (unescapeFrom .plain rest).map (String.utf8EncodeChar c ++ ·)
  | .backslash, c :: rest =>
      if c = 'x' then unescapeFrom (.digits 16 2 0 true) rest
      else if c = 'u' then unescapeFrom (.digits 16 4 0 false) rest
      else if c = 'U' then unescapeFrom (.digits 16 8 0 false) rest
      else
        match letterByte c, digitValue 8 c with
        | some byte, _ => (unescapeFrom .plain rest).map (byte :: ·)
        | none, some d => unescapeFrom (.digits 8 2 d true) rest
        | none, none => none
  | .digits base left value asByte, c :: rest =>
      match digitValue base c with
      | none => none
      | some d =>
          if left ≤ 1 then
            match escapedBytes (base * value + d) asByte with
            | none => none
            | some bytes => (unescapeFrom .plain rest).map (bytes ++ ·)
          else unescapeFrom (.digits base (left - 1) (base * value + d) asByte) rest

def cunescape (field : List Char) : Option Bytes := unescapeFrom .plain field

/-! ## Lines -/

/-- A number in octal digits. -/
def parseMode (field : List Char) : Option Nat :=
  field.foldl (fun value c => do return 8 * (← value) + (← digitValue 8 c)) (some 0)

/-- The path and the mode of a `z` line. -/
def readLine (line : List Char) : Option (Bytes × Nat) :=
  match line.splitOn ' ' with
  | [['z'], path, mode] => do return (← cunescape path, ← parseMode mode)
  | _ => none

/-! ## Paths -/

/-- What `systemd-tmpfiles` and the C library under it do with a path. -/
structure Tmpfiles where
  /-- The text for `%` and a letter, if there is such a specifier and it can be found out. -/
  specifier : UInt8 → Option (Option Bytes)
  /-- The patterns that braces stand for. -/
  braces : Bytes → List Bytes
  /-- Whether a pattern matches a name. -/
  fnmatch : Bytes → Bytes → Bool

namespace Tmpfiles

def percent : UInt8 := 0x25

def expand (t : Tmpfiles) : Bytes → Option Bytes
  | [] => some []
  | [byte] => some [byte]
  | byte :: next :: rest =>
      if byte = percent then
        if next = percent then (t.expand rest).map (percent :: ·)
        else
          match t.specifier next with
          | none => (t.expand rest).map (percent :: next :: ·)
          | some none => none
          | some (some text) => (t.expand rest).map (text ++ ·)
      else (t.expand (next :: rest)).map (byte :: ·)

def patternPiece (bytes : Bytes) : Piece Bytes :=
  if bytes = [] then .empty
  else if bytes = [0x2e] then .cur
  else if bytes = [0x2e, 0x2e] then .up
  else .name bytes

/-- The locations that a pattern finds; a link at its end is not followed. -/
def glob (t : Tmpfiles) (fs : FileSystem FileName) :
    Path FileName → PathText Bytes → List (Path FileName)
  | cwd, [] => [cwd]
  | cwd, .empty :: rest => t.glob fs cwd rest
  | cwd, .cur :: rest => t.glob fs cwd rest
  | cwd, .up :: rest => t.glob fs cwd.tail rest
  | cwd, .name pattern :: rest =>
      ((fs.listdir cwd).filter fun n => t.fnmatch pattern n.bytes).flatMap fun n =>
        if rest.isEmpty then [n :: cwd]
        else
          match fs.locate true (textOf (n :: cwd)) with
          | .ok dir => t.glob fs dir rest
          | .error _ => []

/-- The locations that the path of a line stands for. -/
def reached (t : Tmpfiles) (fs : FileSystem FileName) (path : Bytes) : List (Path FileName) :=
  match t.expand path with
  | none => []
  | some text =>
      if text.head? = some slash then
        (t.braces text).flatMap fun pattern =>
          t.glob fs [] ((pattern.splitOn slash).map patternPiece)
      else []

/-- A line that cannot be read is passed over. -/
def applyLine (t : Tmpfiles) (fs : FileSystem FileName) (line : List Char) :
    FileSystem FileName :=
  match readLine line with
  | none => fs
  | some (path, mode) => (t.reached fs path).foldl (fun fs p => fs.chmodAt p mode) fs

def create (t : Tmpfiles) (lines : List (List Char)) (fs : FileSystem FileName) :
    FileSystem FileName :=
  lines.foldl t.applyLine fs

end Tmpfiles

end GnomeBuildMeta.Perms
