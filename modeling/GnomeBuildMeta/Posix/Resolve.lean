import GnomeBuildMeta.Posix.FileSystem

/-!
# Path resolution

A path text is read from the left.  A symbolic link met on the way is replaced
by its target, and the link at the end of the text only when the caller
follows it.  A resolution follows at most `maxSymlinks` links.
-/

namespace GnomeBuildMeta.Posix

variable {α : Type} [DecidableEq α]

/-- Where one reading of a text stops: at a result, or at a link to expand. -/
inductive Scan (α : Type) where
  | done (result : Except Errno (Path α))
  | link (cwd : Path α) (target rest : PathText α)

/-- Read a text from the directory `cwd` up to the first link to expand. -/
def scan (look : Tree α) (follow : Bool) : Path α → PathText α → Scan α
  | cwd, [] => .done (.ok cwd)
  | cwd, .empty :: rest => scan look follow cwd rest
  | cwd, .cur :: rest => scan look follow cwd rest
  | cwd, .up :: rest => scan look follow cwd.tail rest
  | cwd, .name n :: rest =>
      match look (n :: cwd) with
      | some (.dir _) => scan look follow (n :: cwd) rest
      | some (.symlink target) =>
          if rest.isEmpty && !follow then .done (.ok (n :: cwd)) else .link cwd target rest
      | some _ => .done (if rest.isEmpty then .ok (n :: cwd) else .error .enotdir)
      -- a missing last name is a location where an entry can be made
      | none => .done (if rest.isEmpty then .ok (n :: cwd) else .error .enoent)

/-- The directory from which a link target is read. -/
def linkStart (cwd : Path α) (target : PathText α) : Path α :=
  if target.head? = some .empty then [] else cwd

/-- Read a text, expanding at most as many links as the budget allows. -/
def walk (look : Tree α) (follow : Bool) :
    Nat → Path α → PathText α → Except Errno (Path α)
  | 0, cwd, text =>
      match scan look follow cwd text with
      | .done result => result
      | .link _ _ _ => .error .eloop
  | budget + 1, cwd, text =>
      match scan look follow cwd text with
      | .done result => result
      | .link dir target rest =>
          walk look follow budget (linkStart dir target) (target ++ rest)

/-- The number of links that one resolution may follow. -/
def maxSymlinks : Nat := 40

theorem walk_of_scan_done {look : Tree α} {follow : Bool} {budget : Nat}
    {cwd : Path α} {text : PathText α} {result : Except Errno (Path α)}
    (stopped : scan look follow cwd text = .done result) :
    walk look follow budget cwd text = result := by
  cases budget <;> simp [walk, stopped]

/-- A tree that is reached through directories, like that of a file system. -/
structure Grounded (look : Tree α) : Prop where
  root : (look []).any Node.isDir = true
  parent : ∀ {n : α} {p : Path α} {node : Node α}, look (n :: p) = some node →
    (look p).any Node.isDir = true

/-- The node that a text names in a tree, the last link not followed. -/
def lookPath (look : Tree α) (text : PathText α) : Option (Node α) :=
  match walk look false maxSymlinks [] text with
  | .ok p => look p
  | .error _ => none

namespace Grounded

variable {look : Tree α}

omit [DecidableEq α] in
/-- Reading the text of a directory arrives in it. -/
theorem scan_textOf (grounded : Grounded look) (follow : Bool) {p : Path α}
    (dir : (look p).any Node.isDir = true) (rest : PathText α) :
    scan look follow [] (textOf p ++ rest) = scan look follow p rest := by
  induction p generalizing rest with
  | nil => rfl
  | cons n p ih =>
      obtain ⟨node, found, isDir⟩ := (Option.any_eq_true _ _).mp dir
      obtain ⟨perm, rfl⟩ := Node.isDir_iff.mp isDir
      rw [textOf_cons, List.append_assoc, ih (grounded.parent found)]
      simp [scan, found]

omit [DecidableEq α] in
/-- A text that goes on below something that is neither a directory nor a link fails. -/
theorem scan_textOf_error (grounded : Grounded look) (follow : Bool) {p : Path α}
    (missing : (look p).any Node.isDir = false)
    (plain : ∀ q, q <:+ p → ∀ target, look q ≠ some (.symlink target))
    (rest : PathText α) (more : rest ≠ []) :
    ∃ e, scan look follow [] (textOf p ++ rest) = .done (.error e) := by
  induction p generalizing rest with
  | nil =>
      rw [grounded.root] at missing
      cases missing
  | cons n p ih =>
      rw [textOf_cons, List.append_assoc]
      have above : ∀ q, q <:+ p → ∀ target, look q ≠ some (.symlink target) :=
        fun q suffix => plain q (suffix.trans (List.suffix_cons n p))
      by_cases dir : (look p).any Node.isDir = true
      · rw [grounded.scan_textOf follow dir]
        cases found : look (n :: p) with
        | none => simp [scan, found, more]
        | some node =>
            cases node with
            | dir perm => simp [found, Node.isDir] at missing
            | symlink target => exact absurd found (plain _ List.suffix_rfl target)
            | file stat data => simp [scan, found, more]
            | chardev major minor => simp [scan, found, more]
      · exact ih (Bool.eq_false_iff.mpr dir) above _ (List.cons_ne_nil _ _)

omit [DecidableEq α] in
/-- Reading a location that lies under no link arrives there, or there is nothing. -/
theorem scan_textOf_plain (grounded : Grounded look) {p : Path α} (plain : ¬ UnderLink look p) :
    ∃ result, scan look false [] (textOf p) = .done result ∧
      (result = .ok p ∨ look p = none ∧ ∃ e, result = .error e) := by
  cases p with
  | nil => exact ⟨_, rfl, Or.inl rfl⟩
  | cons n p =>
      have noLink : ∀ q, q <:+ p → ∀ target, look q ≠ some (.symlink target) := by
        intro q suffix target link
        refine plain ⟨q, suffix.trans (List.suffix_cons n p), ?_, target, link⟩
        intro same
        have lengths := suffix.length_le
        simp only [same, List.length_cons] at lengths
        omega
      by_cases dir : (look p).any Node.isDir = true
      · refine ⟨.ok (n :: p), ?_, Or.inl rfl⟩
        rw [textOf_cons, grounded.scan_textOf false dir]
        cases found : look (n :: p) with
        | none => simp [scan, found]
        | some node => cases node <;> simp [scan, found]
      · have absent : look (n :: p) = none := by
          cases found : look (n :: p) with
          | none => rfl
          | some node => exact absurd (grounded.parent found) dir
        obtain ⟨e, failed⟩ := grounded.scan_textOf_error false (Bool.eq_false_iff.mpr dir) noLink
          [.name n] (List.cons_ne_nil _ _)
        exact ⟨.error e, by rw [textOf_cons, failed], Or.inr ⟨absent, e, rfl⟩⟩

/-- A location that lies under no link is looked up as it stands. -/
theorem lookPath_textOf (grounded : Grounded look) {p : Path α} (plain : ¬ UnderLink look p) :
    lookPath look (textOf p) = look p := by
  obtain ⟨result, stopped, arrived | ⟨absent, e, failed⟩⟩ := grounded.scan_textOf_plain plain
  · simp [lookPath, walk_of_scan_done stopped, arrived]
  · simp [lookPath, walk_of_scan_done stopped, failed, absent]

/-- A text that starts with the way to a directory is read from there. -/
theorem walk_textOf (grounded : Grounded look) (follow : Bool) (budget : Nat) {p : Path α}
    (dir : (look p).any Node.isDir = true) (rest : PathText α) :
    walk look follow budget [] (textOf p ++ rest) = walk look follow budget p rest := by
  cases budget with
  | zero => simp only [walk, grounded.scan_textOf follow dir]
  | succ budget => simp only [walk, grounded.scan_textOf follow dir]

end Grounded

namespace FileSystem

/-- The location that a text names, counted from the root. -/
def locate (fs : FileSystem α) (follow : Bool) (text : PathText α) : Except Errno (Path α) :=
  walk fs.get follow maxSymlinks [] text

/-- The node that a text names, the last link not followed. -/
def lstat (fs : FileSystem α) (text : PathText α) : Option (Node α) :=
  match fs.locate false text with
  | .ok p => fs.get p
  | .error _ => none

/-- The node that a text names, every link followed. -/
def stat (fs : FileSystem α) (text : PathText α) : Option (Node α) :=
  match fs.locate true text with
  | .ok p => fs.get p
  | .error _ => none

def lexists (fs : FileSystem α) (text : PathText α) : Bool := (fs.lstat text).isSome

def islink (fs : FileSystem α) (text : PathText α) : Bool := (fs.lstat text).any Node.isSymlink

def isdir (fs : FileSystem α) (text : PathText α) : Bool := (fs.stat text).any Node.isDir

def isfile (fs : FileSystem α) (text : PathText α) : Bool := (fs.stat text).any Node.isFile

/-- The target of the link that a text names. -/
def readlink (fs : FileSystem α) (text : PathText α) : Option (PathText α) :=
  (fs.lstat text).bind Node.target

/-- No directory on the way to `p` is reached through a symbolic link. -/
def Plain (fs : FileSystem α) (p : Path α) : Prop :=
  ∀ q, q <:+ p → q ≠ p → ∀ target, fs.get q ≠ some (.symlink target)

theorem Plain.tail {fs : FileSystem α} {n : α} {p : Path α} (plain : fs.Plain (n :: p)) :
    fs.Plain p := by
  intro q suffix proper
  refine plain q (suffix.trans (List.suffix_cons n p)) ?_
  intro same
  have lengths := suffix.length_le
  simp only [same, List.length_cons] at lengths
  omega

/-- The parent of a plain location is not a symbolic link. -/
theorem Plain.parent {fs : FileSystem α} {n : α} {p : Path α} (plain : fs.Plain (n :: p))
    (target : PathText α) : fs.get p ≠ some (.symlink target) :=
  plain p (List.suffix_cons n p) (by simp) target

/-- Whatever exists is reached through directories only. -/
theorem plain_of_get {fs : FileSystem α} {p : Path α} {node : Node α}
    (found : fs.get p = some node) : fs.Plain p := by
  intro q suffix proper target link
  obtain ⟨perm, dir⟩ := (fs.isDirAt_iff q).mp (fs.ancestor_isDirAt found suffix proper)
  rw [dir] at link
  cases link

/-- The children of a directory are plain. -/
theorem plain_cons_of_isDirAt {fs : FileSystem α} {n : α} {p : Path α}
    (dir : fs.isDirAt p = true) : fs.Plain (n :: p) := by
  obtain ⟨perm, found⟩ := (fs.isDirAt_iff p).mp dir
  intro q suffix proper target link
  rcases List.suffix_cons_iff.mp suffix with same | inner
  · exact proper same
  · by_cases same : q = p
    · rw [same, found] at link
      cases link
    · exact plain_of_get found q inner same target link

/-- A location of a tree that is under no link of the tree is plain. -/
theorem plain_append {fs : FileSystem α} {base rel : Path α} (dir : fs.isDirAt base = true)
    (noLink : ¬ UnderLink (fs.below base) rel) : fs.Plain (rel ++ base) := by
  obtain ⟨perm, found⟩ := (fs.isDirAt_iff base).mp dir
  intro q suffix proper target link
  rcases suffix_append_cases suffix with outside | ⟨inner, above, rfl⟩
  · by_cases same : q = base
    · rw [same, found] at link
      cases link
    · exact plain_of_get found q outside same target link
  · refine noLink ⟨inner, above, ?_, target, link⟩
    intro same
    exact proper (congrArg (· ++ base) same)

/-- What a tree has lies under no link of the tree. -/
theorem not_underLink_of_get {fs : FileSystem α} {base rel : Path α} {node : Node α}
    (found : fs.get (rel ++ base) = some node) : ¬ UnderLink (fs.below base) rel := by
  rintro ⟨q, ⟨stem, rfl⟩, proper, target, link⟩
  refine plain_of_get found (q ++ base) ⟨stem, (List.append_assoc _ _ _).symm⟩ ?_ target link
  intro same
  exact proper (List.append_cancel_right same)

theorem grounded (fs : FileSystem α) : Grounded fs.get :=
  ⟨fs.root, fun found => fs.parent_isDirAt found⟩

theorem Plain.not_underLink {fs : FileSystem α} {p : Path α} (plain : fs.Plain p) :
    ¬ UnderLink fs.get p := by
  rintro ⟨q, suffix, proper, target, link⟩
  exact plain q suffix proper target link

/-- Reading the text of a directory arrives in it. -/
theorem scan_textOf (fs : FileSystem α) (follow : Bool) {p : Path α}
    (dir : fs.isDirAt p = true) (rest : PathText α) :
    scan fs.get follow [] (textOf p ++ rest) = scan fs.get follow p rest :=
  fs.grounded.scan_textOf follow dir rest

/-- A text that goes on below something that is neither a directory nor a link fails. -/
theorem scan_textOf_error (fs : FileSystem α) (follow : Bool) {p : Path α}
    (missing : fs.isDirAt p = false) (plain : fs.Plain p)
    (noLink : ∀ target, fs.get p ≠ some (.symlink target))
    (rest : PathText α) (more : rest ≠ []) :
    ∃ e, scan fs.get follow [] (textOf p ++ rest) = .done (.error e) := by
  refine fs.grounded.scan_textOf_error follow missing (fun q suffix target link => ?_) rest more
  by_cases same : q = p
  · subst same
    exact noLink target link
  · exact plain q suffix same target link

theorem locate_textOf (fs : FileSystem α) {n : α} {p : Path α} (dir : fs.isDirAt p = true) :
    fs.locate false (textOf (n :: p)) = .ok (n :: p) := by
  apply walk_of_scan_done
  rw [textOf_cons, fs.scan_textOf false dir]
  cases found : fs.get (n :: p) with
  | none => simp [scan, found]
  | some node => cases node <;> simp [scan, found]

/-- On a plain location `lstat` is the lookup in the table. -/
theorem lstat_textOf (fs : FileSystem α) {p : Path α} (plain : fs.Plain p) :
    fs.lstat (textOf p) = fs.get p :=
  fs.grounded.lookPath_textOf plain.not_underLink

/-- On a plain location that is no link itself `stat` is the lookup in the table. -/
theorem stat_textOf (fs : FileSystem α) {p : Path α} (plain : fs.Plain p)
    (noLink : ∀ target, fs.get p ≠ some (.symlink target)) :
    fs.stat (textOf p) = fs.get p := by
  cases p with
  | nil =>
      have arrived : fs.locate true (textOf []) = .ok [] := walk_of_scan_done rfl
      simp [stat, arrived]
  | cons n p =>
      by_cases dir : fs.isDirAt p = true
      · have located : fs.locate true (textOf (n :: p)) = .ok (n :: p) := by
          apply walk_of_scan_done
          rw [textOf_cons, fs.scan_textOf true dir]
          cases found : fs.get (n :: p) with
          | none => simp [scan, found]
          | some node =>
              cases node with
              | symlink target => exact absurd found (noLink target)
              | dir _ | file _ _ | chardev _ _ => simp [scan, found]
        simp [stat, located]
      · have absent : fs.get (n :: p) = none := by
          cases found : fs.get (n :: p) with
          | none => rfl
          | some node => exact absurd (fs.parent_isDirAt found) dir
        obtain ⟨e, failed⟩ := fs.scan_textOf_error true (Bool.eq_false_iff.mpr dir) plain.tail
          plain.parent [.name n] (List.cons_ne_nil _ _)
        have located : fs.locate true (textOf (n :: p)) = .error e := by
          rw [textOf_cons]
          exact walk_of_scan_done failed
        simp [stat, located, absent]

theorem lexists_textOf (fs : FileSystem α) {p : Path α} (plain : fs.Plain p) :
    fs.lexists (textOf p) = (fs.get p).isSome := by
  rw [lexists, fs.lstat_textOf plain]

theorem islink_textOf (fs : FileSystem α) {p : Path α} (plain : fs.Plain p) :
    fs.islink (textOf p) = (fs.get p).any Node.isSymlink := by
  rw [islink, fs.lstat_textOf plain]

theorem readlink_textOf (fs : FileSystem α) {p : Path α} (plain : fs.Plain p) :
    fs.readlink (textOf p) = (fs.get p).bind Node.target := by
  rw [readlink, fs.lstat_textOf plain]

/-- `isdir` and not `islink` together ask for a directory at the location itself. -/
theorem isdir_and_not_islink_textOf (fs : FileSystem α) {p : Path α} (plain : fs.Plain p) :
    (fs.isdir (textOf p) && !fs.islink (textOf p)) = fs.isDirAt p := by
  rw [fs.islink_textOf plain]
  cases found : fs.get p with
  | none =>
      rw [isdir, fs.stat_textOf plain (by simp [found])]
      simp [isDirAt, found]
  | some node =>
      cases node with
      | symlink target => simp [isDirAt, found, Node.isSymlink, Node.isDir]
      | dir _ | file _ _ | chardev _ _ =>
          rw [isdir, fs.stat_textOf plain (by simp [found])]
          simp [isDirAt, found, Node.isSymlink]

end FileSystem

end GnomeBuildMeta.Posix
