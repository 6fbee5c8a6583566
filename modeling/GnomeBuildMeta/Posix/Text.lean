import GnomeBuildMeta.Posix.Operations

/-!
# Path texts from strings

A string is split at its slashes; the pieces `.` and `..` have their meaning.
-/

namespace GnomeBuildMeta.Posix

def pieceOf (chars : List Char) : Piece String :=
  if chars = [] then .empty
  else if chars = ['.'] then .cur
  else if chars = ['.', '.'] then .up
  else .name (String.ofList chars)

def pathText (s : String) : PathText String := (s.toList.splitOn '/').map pieceOf

/-- The last component of a path, as `Path::file_name` of Rust finds it. -/
def fileName (text : PathText String) : Option String :=
  match (text.reverse.dropWhile fun piece => piece = .empty || piece = .cur).head? with
  | some (.name n) => some n
  | _ => none

/-- The only name in a text that has nothing but that name and pieces that lead nowhere. -/
def entryName {α : Type} : PathText α → Option α
  | [] => none
  | .empty :: rest => entryName rest
  | .cur :: rest => entryName rest
  | .up :: _ => none
  | [.name n] => some n
  | .name _ :: _ :: _ => none

namespace FileSystem

variable {α : Type} [DecidableEq α]

section Entry

variable {fs : FileSystem α} {d : Path α}

/-- A text with one name leads to that entry, missing or not, unless it is a link. -/
theorem scan_entryName_of_not_link {n : α} (noLink : ∀ target, fs.get (n :: d) ≠ some (.symlink target))
    {text : PathText α} (named : entryName text = some n) :
    scan fs.get true d text = .done (.ok (n :: d)) := by
  induction text using entryName.induct with
  | case1 => cases named
  | case2 rest ih => exact ih named
  | case3 rest ih => exact ih named
  | case4 rest => cases named
  | case6 m next rest => cases named
  | case5 m =>
      cases named
      cases found : fs.get (n :: d) with
      | none => simp [scan, found]
      | some node =>
          cases node with
          | file _ _ | chardev _ _ | dir _ => simp [scan, found]
          | symlink target => exact absurd found (noLink target)

/-- In a directory of regular files a text with one name leads to that entry. -/
theorem scan_entryName (files : ∀ n node, fs.get (n :: d) = some node → node.isFile = true)
    {text : PathText α} {n : α} (named : entryName text = some n) :
    scan fs.get true d text = .done (.ok (n :: d)) := by
  refine scan_entryName_of_not_link (fun target link => ?_) named
  cases files n _ link

/-- In a directory of regular files any other text leads to the directory itself or nowhere. -/
theorem scan_entryName_none (files : ∀ n node, fs.get (n :: d) = some node → node.isFile = true)
    {text : PathText α} (noUp : Piece.up ∉ text) (unnamed : entryName text = none) :
    scan fs.get true d text = .done (.ok d) ∨ ∃ e, scan fs.get true d text = .done (.error e) := by
  induction text using entryName.induct with
  | case1 => exact Or.inl rfl
  | case2 rest ih => exact ih (fun later => noUp (List.mem_cons_of_mem _ later)) unnamed
  | case3 rest ih => exact ih (fun later => noUp (List.mem_cons_of_mem _ later)) unnamed
  | case4 rest => exact absurd List.mem_cons_self noUp
  | case5 m => cases unnamed
  | case6 m next rest =>
      right
      cases found : fs.get (m :: d) with
      | none => exact ⟨.enoent, by simp [scan, found]⟩
      | some node =>
          have file := files m node found
          cases node with
          | file stat data => exact ⟨.enotdir, by simp [scan, found]⟩
          | dir _ | symlink _ | chardev _ _ => cases file

end Entry

end FileSystem

end GnomeBuildMeta.Posix
