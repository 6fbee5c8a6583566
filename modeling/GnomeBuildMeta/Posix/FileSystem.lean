import Mathlib.Data.List.Basic
import Mathlib.Data.List.Nodup
import Mathlib.Data.List.Infix

/-!
# Finite file systems

A file system is a finite table from locations to nodes.  A location is the
list of names from the innermost one outwards, so the parent directory of
`n :: p` is `p` and the ancestors of a location are its suffixes.  The table
carries the proof that every entry lies in a directory.
-/

namespace GnomeBuildMeta.Posix

/-- What stands between two slashes of a path text. -/
inductive Piece (α : Type) where
  | empty
  | cur
  | up
  | name (n : α)
  deriving DecidableEq, Repr

/--
A path text split at its slashes, outermost piece first.  The split loses
nothing: an absolute text starts with an empty piece, a trailing slash is a
trailing empty piece.
-/
abbrev PathText (α : Type) := List (Piece α)

/-- A location in the tree, innermost name first. -/
abbrev Path (α : Type) := List α

/-- The text that names a location from the root. -/
def textOf {α : Type} (p : Path α) : PathText α := p.reverse.map Piece.name

theorem textOf_cons {α : Type} (n : α) (p : Path α) :
    textOf (n :: p) = textOf p ++ [.name n] := by
  simp [textOf]

theorem textOf_append {α : Type} (p base : Path α) : textOf (p ++ base) = textOf base ++ textOf p := by
  simp [textOf]

/-- A proper ancestor has a child on the way to the descendant. -/
theorem exists_child_suffix {α : Type} {rel sub : Path α} (suffix : rel <:+ sub) (proper : rel ≠ sub) :
    ∃ n, n :: rel <:+ sub := by
  obtain ⟨stem, rfl⟩ := suffix
  rcases List.eq_nil_or_concat stem with rfl | ⟨init, n, rfl⟩
  · exact absurd rfl proper
  · exact ⟨n, init, by simp⟩

/-- An ancestor of a location below `base` is one of `base`, or lies below `base` itself. -/
theorem suffix_append_cases {α : Type} {r q base : Path α} (suffix : r <:+ q ++ base) :
    r <:+ base ∨ ∃ q', q' <:+ q ∧ r = q' ++ base := by
  induction q with
  | nil => exact Or.inl suffix
  | cons n q ih =>
      rcases List.suffix_cons_iff.mp suffix with rfl | inner
      · exact Or.inr ⟨n :: q, List.suffix_rfl, rfl⟩
      · rcases ih inner with outside | ⟨q', below, same⟩
        · exact Or.inl outside
        · exact Or.inr ⟨q', below.trans (List.suffix_cons n q), same⟩

/-- The attributes of a regular file that a directory entry carries. -/
structure Stat where
  perm : Nat
  mtime : Nat
  uid : Nat
  gid : Nat
  deriving DecidableEq, Repr

inductive Node (α : Type) where
  | dir (perm : Nat)
  | file (stat : Stat) (data : List UInt8)
  | symlink (target : PathText α)
  | chardev (major minor : Nat)
  deriving DecidableEq, Repr

namespace Node

variable {α : Type}

def isDir : Node α → Bool
  | .dir _ => true
  | _ => false

def isFile : Node α → Bool
  | .file _ _ => true
  | _ => false

def isSymlink : Node α → Bool
  | .symlink _ => true
  | _ => false

/-- The target of a symbolic link. -/
def target : Node α → Option (PathText α)
  | .symlink text => some text
  | _ => none

/-- The permission bits become `perm`; a symbolic link has none of its own. -/
def setPerm (perm : Nat) : Node α → Node α
  | .dir _ => .dir perm
  | .file stat data => .file { stat with perm := perm } data
  | .symlink target => .symlink target
  | .chardev major minor => .chardev major minor

@[simp] theorem setPerm_isDir (perm : Nat) (node : Node α) :
    (node.setPerm perm).isDir = node.isDir := by
  cases node <;> rfl

def mapData (change : List UInt8 → List UInt8) : Node α → Node α
  | .file stat data => .file stat (change data)
  | node => node

@[simp] theorem mapData_isDir (change : List UInt8 → List UInt8) (node : Node α) :
    (node.mapData change).isDir = node.isDir := by
  cases node <;> rfl

theorem isDir_iff {node : Node α} : node.isDir = true ↔ ∃ perm, node = .dir perm := by
  cases node <;> simp [isDir]

theorem isSymlink_iff {node : Node α} :
    node.isSymlink = true ↔ ∃ target, node = .symlink target := by
  cases node <;> simp [isSymlink]

end Node

/-- A tree as the lookup from its top. -/
abbrev Tree (α : Type) := Path α → Option (Node α)

/-- A location strictly below a symbolic link of a tree. -/
def UnderLink {α : Type} (tree : Tree α) (rel : Path α) : Prop :=
  ∃ q, q <:+ rel ∧ q ≠ rel ∧ ∃ target, tree q = some (.symlink target)

/-- The kinds of error a file operation can end in. -/
inductive Errno where
  | enoent
  | enotdir
  | eexist
  | eisdir
  | eloop
  | einval
  deriving DecidableEq, Repr

/--
A finite file system.  Every location has at most one entry, the root is a
directory, and so is the parent of every other entry.
-/
structure FileSystem (α : Type) [DecidableEq α] where
  entries : List (Path α × Node α)
  nodup : (entries.map Prod.fst).Nodup
  root : (entries.lookup []).any Node.isDir = true
  parents : ∀ e ∈ entries, e.1 = [] ∨ (entries.lookup e.1.tail).any Node.isDir = true

namespace FileSystem

variable {α : Type} [DecidableEq α]

def get (fs : FileSystem α) (p : Path α) : Option (Node α) := fs.entries.lookup p

def isDirAt (fs : FileSystem α) (p : Path α) : Bool := (fs.get p).any Node.isDir

/-- The directory `p` and everything below it, as a tree of its own. -/
def below (fs : FileSystem α) (root : Path α) : Tree α :=
  fun rel => fs.get (rel ++ root)

/-- The names in the directory `p`, in the order in which it lists them. -/
def listdir (fs : FileSystem α) (p : Path α) : List α :=
  fs.entries.filterMap fun e =>
    match e.1 with
    | [] => none
    | n :: q => if q = p then some n else none

/-- A file system that holds an empty root directory and nothing else. -/
def bare (perm : Nat) : FileSystem α where
  entries := [([], .dir perm)]
  nodup := by simp
  root := by simp [Node.isDir]
  parents := by simp

theorem isDirAt_iff (fs : FileSystem α) (p : Path α) :
    fs.isDirAt p = true ↔ ∃ perm, fs.get p = some (.dir perm) := by
  unfold isDirAt
  cases fs.get p with
  | none => simp
  | some node => simp [Node.isDir_iff]

theorem isDirAt_root (fs : FileSystem α) : fs.isDirAt [] = true := fs.root

theorem get_root (fs : FileSystem α) : ∃ perm, fs.get [] = some (.dir perm) :=
  (fs.isDirAt_iff []).mp fs.root

/-- The entry at a location is the one the table lists for it. -/
theorem mem_entries_iff (fs : FileSystem α) (p : Path α) (node : Node α) :
    (p, node) ∈ fs.entries ↔ fs.get p = some node := by
  have general : ∀ entries : List (Path α × Node α), (entries.map Prod.fst).Nodup →
      ((p, node) ∈ entries ↔ entries.lookup p = some node) := by
    intro entries nodup
    induction entries with
    | nil => simp
    | cons first rest ih =>
        obtain ⟨q, other⟩ := first
        simp only [List.map_cons, List.nodup_cons] at nodup
        by_cases same : p = q
        · subst same
          have fresh : ∀ value, (p, value) ∉ rest := fun value inside =>
            nodup.1 (List.mem_map.mpr ⟨(p, value), inside, rfl⟩)
          simp [fresh node, eq_comm]
        · have differ : (p == q) = false := by simpa using same
          simp [List.lookup_cons, differ, same, ih nodup.2]
  exact general fs.entries fs.nodup

/-- The parent of an existing entry is a directory. -/
theorem parent_isDirAt (fs : FileSystem α) {n : α} {p : Path α} {node : Node α}
    (found : fs.get (n :: p) = some node) : fs.isDirAt p = true := by
  rcases fs.parents _ ((fs.mem_entries_iff _ _).mpr found) with impossible | parent
  · cases impossible
  · exact parent

/-- Every proper ancestor of an existing entry is a directory. -/
theorem ancestor_isDirAt (fs : FileSystem α) {p q : Path α} {node : Node α}
    (found : fs.get p = some node) (ancestor : q <:+ p) (proper : q ≠ p) :
    fs.isDirAt q = true := by
  induction p generalizing node with
  | nil => exact absurd (List.suffix_nil.mp ancestor) proper
  | cons n p ih =>
      have parent := fs.parent_isDirAt found
      rcases List.suffix_cons_iff.mp ancestor with same | inner
      · exact absurd same proper
      · by_cases same : q = p
        · exact same ▸ parent
        · obtain ⟨perm, dir⟩ := (fs.isDirAt_iff p).mp parent
          exact ih dir inner same

/-- What lies properly above an entry below `base`, itself below `base`, is a directory. -/
theorem isDirAt_above (fs : FileSystem α) {base rel q : Path α} {node : Node α}
    (found : fs.get (rel ++ base) = some node) (above : q <:+ rel) (proper : q ≠ rel) :
    fs.isDirAt (q ++ base) = true := by
  refine fs.ancestor_isDirAt found ?_ fun equal => proper (List.append_cancel_right equal)
  obtain ⟨stem, rfl⟩ := above
  exact ⟨stem, (List.append_assoc _ _ _).symm⟩

theorem isDirAt_upward (fs : FileSystem α) {base rel q : Path α}
    (dir : fs.isDirAt (rel ++ base) = true) (above : q <:+ rel) :
    fs.isDirAt (q ++ base) = true := by
  by_cases same : q = rel
  · rw [same]
    exact dir
  · obtain ⟨perm, found⟩ := (fs.isDirAt_iff _).mp dir
    exact fs.isDirAt_above found above same

theorem mem_listdir_iff (fs : FileSystem α) (p : Path α) (n : α) :
    n ∈ fs.listdir p ↔ ∃ node, fs.get (n :: p) = some node := by
  simp only [listdir, List.mem_filterMap]
  constructor
  · rintro ⟨⟨q, node⟩, inside, named⟩
    refine ⟨node, (fs.mem_entries_iff _ _).mp ?_⟩
    cases q with
    | nil => cases named
    | cons m q =>
        simp only at named
        split at named
        · rename_i same
          cases named
          exact same ▸ inside
        · cases named
  · rintro ⟨node, found⟩
    exact ⟨(n :: p, node), (fs.mem_entries_iff _ _).mpr found, by simp⟩

/-! ## Updates -/

/-- Add one entry in a directory where its name is free. -/
def insert (fs : FileSystem α) (n : α) (p : Path α) (node : Node α)
    (parent : fs.isDirAt p = true) (free : fs.get (n :: p) = none) : FileSystem α where
  entries := (n :: p, node) :: fs.entries
  nodup := by
    refine List.nodup_cons.mpr ⟨?_, fs.nodup⟩
    intro inside
    obtain ⟨⟨q, other⟩, member, same⟩ := List.mem_map.mp inside
    subst same
    rw [(fs.mem_entries_iff _ _).mp member] at free
    cases free
  root := by simpa [List.lookup_cons] using fs.root
  parents := by
    have kept : ∀ q : Path α, (fs.entries.lookup q).any Node.isDir = true →
        (((n :: p, node) :: fs.entries).lookup q).any Node.isDir = true := by
      intro q dir
      by_cases same : q = n :: p
      · subst same
        change fs.entries.lookup (n :: p) = none at free
        rw [free] at dir
        cases dir
      · have differ : (q == n :: p) = false := by simpa using same
        simpa [List.lookup_cons, differ] using dir
    intro e member
    rcases List.mem_cons.mp member with rfl | inside
    · exact Or.inr (kept p parent)
    · rcases fs.parents e inside with atRoot | dir
      · exact Or.inl atRoot
      · exact Or.inr (kept _ dir)

theorem get_insert (fs : FileSystem α) {n : α} {p : Path α} {node : Node α}
    (parent : fs.isDirAt p = true) (free : fs.get (n :: p) = none) (q : Path α) :
    (fs.insert n p node parent free).get q = if q = n :: p then some node else fs.get q := by
  unfold insert get
  by_cases same : q = n :: p
  · simp [same]
  · have differ : (q == n :: p) = false := by simpa using same
    simp [List.lookup_cons, differ, same]

theorem lookup_mapValue {f : Path α → Node α → Node α} (entries : List (Path α × Node α))
    (q : Path α) :
    (entries.map fun e => (e.1, f e.1 e.2)).lookup q = (entries.lookup q).map (f q) := by
  induction entries with
  | nil => rfl
  | cons first rest ih =>
      obtain ⟨p, node⟩ := first
      by_cases same : q = p
      · subst same
        simp
      · have differ : (q == p) = false := by simpa using same
        simp [List.lookup_cons, differ, ih]

/-- Rewrite every node in place by a function that keeps directories directories. -/
def mapNodes (fs : FileSystem α) (f : Path α → Node α → Node α)
    (kept : ∀ p node, (f p node).isDir = node.isDir) : FileSystem α where
  entries := fs.entries.map fun e => (e.1, f e.1 e.2)
  nodup := by simpa [List.map_map, Function.comp_def] using fs.nodup
  root := by
    rw [lookup_mapValue]
    simpa [Option.any_map, Function.comp_def, kept] using fs.root
  parents := by
    intro e member
    obtain ⟨source, inside, rfl⟩ := List.mem_map.mp member
    rcases fs.parents source inside with atRoot | dir
    · exact Or.inl atRoot
    · right
      rw [lookup_mapValue]
      simpa [Option.any_map, Function.comp_def, kept] using dir

theorem get_mapNodes (fs : FileSystem α) {f : Path α → Node α → Node α}
    (kept : ∀ p node, (f p node).isDir = node.isDir) (q : Path α) :
    (fs.mapNodes f kept).get q = (fs.get q).map (f q) :=
  lookup_mapValue fs.entries q

/-- Set the permission bits of the entry at one location. -/
def chmodAt (fs : FileSystem α) (p : Path α) (perm : Nat) : FileSystem α :=
  fs.mapNodes (fun q node => if q = p then node.setPerm perm else node) fun q node => by
    split <;> simp

theorem get_chmodAt (fs : FileSystem α) (p q : Path α) (perm : Nat) :
    (fs.chmodAt p perm).get q =
      if q = p then (fs.get q).map (Node.setPerm perm) else fs.get q := by
  unfold chmodAt
  rw [get_mapNodes]
  by_cases same : q = p
  · simp [same]
  · simp [same]

/-- Replace the content and the attributes of a regular file. -/
def writeAt (fs : FileSystem α) (p : Path α) (stat : Stat) (data : List UInt8) : FileSystem α :=
  fs.mapNodes (fun q node => if q = p ∧ node.isFile = true then .file stat data else node)
    fun q node => by
      cases node with
      | file old bytes => by_cases same : q = p <;> simp [same, Node.isDir, Node.isFile]
      | dir _ | symlink _ | chardev _ _ => simp [Node.isFile]

theorem get_writeAt (fs : FileSystem α) (p q : Path α) (stat : Stat) (data : List UInt8) :
    (fs.writeAt p stat data).get q =
      (fs.get q).map fun node =>
        if q = p ∧ node.isFile = true then .file stat data else node :=
  fs.get_mapNodes _ q

/-- Change the content of a regular file. -/
def editAt (fs : FileSystem α) (p : Path α) (change : List UInt8 → List UInt8) : FileSystem α :=
  fs.mapNodes (fun q node => if q = p then node.mapData change else node) fun q node => by
    split <;> simp

theorem get_editAt (fs : FileSystem α) (p q : Path α) (change : List UInt8 → List UInt8) :
    (fs.editAt p change).get q = if q = p then (fs.get q).map (Node.mapData change) else fs.get q := by
  unfold editAt
  rw [get_mapNodes]
  by_cases same : q = p
  · simp [same]
  · simp [same]

end FileSystem

end GnomeBuildMeta.Posix
