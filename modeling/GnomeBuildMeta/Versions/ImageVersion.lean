import GnomeBuildMeta.Versions.Calendar
import Mathlib.Data.String.Basic

/-!
# export-image-version.sh

The version of an image, from the days of the commits that `git log` lists, and
the check of global-before-script.sh that it rests on.
-/

namespace GnomeBuildMeta.Versions

abbrev Text := List Char

/-- `sort --check --reverse --numeric-sort` -/
def timestampCheck : List Nat → Bool
  | first :: second :: rest => decide (second ≤ first) && timestampCheck (second :: rest)
  | _ => true

/-- `uniq -c`: the lines that follow each other, with their numbers in front. -/
def uniqCount : List Nat → List (Nat × Nat)
  | [] => []
  | line :: lines =>
      match uniqCount lines with
      | [] => [(1, line)]
      | (count, first) :: rest =>
          if first = line then (count + 1, line) :: rest else (1, line) :: (count, first) :: rest

/-- The day and the counter of the first line. -/
def nightly (days : List Nat) : Option (Nat × Nat) :=
  (uniqCount days).head?.map fun line => (line.2, line.1 - 1)

/-- What the script finds in its environment, and what git prints. -/
structure Environment where
  commitBranch : Option Text
  refProtected : Option Text
  mergeRequestTarget : Option Text
  days : List Nat
  describe : Text

def versionNum (days : List Nat) : Text :=
  match nightly days with
  | some (day, counter) => (toString day ++ "." ++ toString counter).toList
  | none => []

/-- The version, unless it is too long for a label. -/
def exportImageVersion (e : Environment) : Option Text :=
  let version :=
    if e.commitBranch = some "master".toList then "nightly.".toList ++ versionNum e.days
    else if e.refProtected = some "true".toList then
      ['-'].intercalate ((e.describe.splitOn '-').take 2)
    else
      let target := e.mergeRequestTarget.getD "unknown".toList
      let target := if target = "master".toList then "nightly".toList else target
      (target ++ "-branch".toList).map fun c => if c = '-' then '_' else c
  if 22 < version.length then none else some version

/-- The script goes on only if the check passes. -/
def globalBeforeScript (times : List Nat) (e : Environment) : Option Text :=
  if timestampCheck times then exportImageVersion { e with days := times.map dayOf } else none

end GnomeBuildMeta.Versions
