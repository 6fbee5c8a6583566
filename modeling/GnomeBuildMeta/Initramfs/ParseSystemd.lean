import GnomeBuildMeta.Control.Except
import Mathlib.Data.List.DropRight
import Mathlib.Logic.Function.Basic

/-!
# Parsing unit files

The loop keeps the section, the key and the value that it is at.  A key that is
kept makes the next line a continuation, and only an empty line takes it back.
-/

namespace GnomeBuildMeta.Initramfs

abbrev Chars := List Char

/-- Where `str.splitlines` ends a line. -/
def lineBoundaries : List Char :=
  ['\n', '\r', '\x0b', '\x0c', '\x1c', '\x1d', '\x1e', '\x85', '\u2028', '\u2029']

def splitlines : Chars → List Chars
  | [] => []
  | '\r' :: '\n' :: rest => [] :: splitlines rest
  | c :: rest =>
      if c ∈ lineBoundaries then [] :: splitlines rest
      else
        match splitlines rest with
        | [] => [[c]]
        | line :: lines => (c :: line) :: lines

/-- The exceptions of `parse_systemd`. -/
inductive Unparsed where
  | parseError
  | keyError
  | typeError
  deriving DecidableEq, Repr

/-- The dictionary of a section; Python's `None` is a value like others. -/
abbrev Entries := Chars → Option (List (Option Chars))

abbrev Data := Chars → Option Entries

/-- `data[section][key]` after the value, where there is such a section -/
def setValue (data : Data) (name : Option Chars) (key : Chars) (value : Option Chars) :
    Except Unparsed Data :=
  match name with
  | none => .error .keyError
  | some name =>
      match data name with
      | none => .error .keyError
      | some entries =>
          let values := if value = some [] then [] else (entries key).getD [] ++ [value]
          .ok (Function.update data name (some (Function.update entries key (some values))))

/-- The variables of the loop. -/
structure Parsing where
  data : Data
  currentSection : Option Chars
  currentKey : Option Chars
  currentValue : Option Chars

/-- `line.split("=", 1)`, where it has two parts -/
def splitOnce (line : Chars) : Option (Chars × Chars) :=
  if '=' ∈ line then some (line.takeWhile (· ≠ '='), (line.dropWhile (· ≠ '=')).tail) else none

def endsWithBackslash (line : Chars) : Bool := line.getLast? = some '\\'

def emptyLine (s : Parsing) : Except Unparsed Parsing :=
  match s.currentKey with
  | none => .ok s
  | some key => do
      let data ← setValue s.data s.currentSection key s.currentValue
      return { s with data := data, currentKey := none, currentValue := none }

def headerLine (s : Parsing) (line : Chars) : Except Unparsed Parsing :=
  if line.getLast? ≠ some ']' then .error .parseError
  else
    let name := line.tail.dropLast
    .ok { s with
      data := Function.update s.data name (some fun _ => none)
      currentSection := some name }

def continuationLine (s : Parsing) (key line : Chars) : Except Unparsed Parsing :=
  match s.currentValue with
  -- None += line
  | none => .error .typeError
  | some value =>
      if endsWithBackslash line then
        .ok { s with currentValue := some (value ++ line.dropLast ++ [' ']) }
      else do
        let data ← setValue s.data s.currentSection key (some (value ++ line))
        return { s with data := data, currentValue := none }

def assignmentLine (s : Parsing) (line : Chars) : Except Unparsed Parsing :=
  match splitOnce line with
  | none => .error .parseError
  | some (key, value) =>
      if endsWithBackslash value then
        .ok { s with currentKey := some key, currentValue := some (value.dropLast ++ [' ']) }
      else do
        let data ← setValue s.data s.currentSection key (some value)
        return { s with data := data }

def startsComment (line : Chars) : Bool := line.head? = some '#' || line.head? = some ';'

/-- One round of the loop. -/
def parseLine (s : Parsing) (line : Chars) : Except Unparsed Parsing :=
  if line = [] then emptyLine s
  else if startsComment line then .ok s
  else if line.head? = some '[' then headerLine s line
  else
    match s.currentKey with
    | some key => continuationLine s key line
    | none => assignmentLine s line

def parseStart : Parsing := ⟨fun _ => none, none, none, none⟩

/-- `parse_systemd` of a file with that content -/
def parseSystemd (content : Chars) : Except Unparsed Data := do
  let s ← (splitlines content).foldlM parseLine parseStart
  return s.data

end GnomeBuildMeta.Initramfs
