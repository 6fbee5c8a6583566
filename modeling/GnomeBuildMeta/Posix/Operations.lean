import GnomeBuildMeta.Posix.Resolve

/-!
# Operations that create entries

Each operation resolves the text it is given and then changes one location.
On a location whose parent is a directory the result is stated outright; on a
location that is taken every exclusive creation fails.
-/

namespace GnomeBuildMeta.Posix

/--
One directory as `os.walk` reports it: its path relative to the top, the names
that are directories once links are followed, and the other names.
-/
structure Visit (α : Type) where
  rel : Path α
  dirs : List α
  files : List α

namespace FileSystem

variable {α : Type} [DecidableEq α]

/-- Add an entry at a location that a resolution has found. -/
def createAt (fs : FileSystem α) (p : Path α) (node : Node α) : Except Errno (FileSystem α) :=
  match p with
  | [] => .error .eexist
  | n :: q =>
      if free : fs.get (n :: q) = none then
        if parent : fs.isDirAt q = true then .ok (fs.insert n q node parent free)
        else .error .enoent
      else .error .eexist

/-- Create an entry exclusively; a link at the end of the text is not followed. -/
def create (fs : FileSystem α) (text : PathText α) (node : Node α) :
    Except Errno (FileSystem α) := do
  let p ← fs.locate false text
  fs.createAt p node

def mkdir (fs : FileSystem α) (text : PathText α) (perm : Nat) : Except Errno (FileSystem α) :=
  fs.create text (.dir perm)

def symlink (fs : FileSystem α) (target text : PathText α) : Except Errno (FileSystem α) :=
  fs.create text (.symlink target)

def mknod (fs : FileSystem α) (text : PathText α) (major minor : Nat) :
    Except Errno (FileSystem α) :=
  fs.create text (.chardev major minor)

/-- Open for writing, truncating or creating, and store `data` with `stat`. -/
def writeFile (fs : FileSystem α) (text : PathText α) (stat : Stat) (data : List UInt8) :
    Except Errno (FileSystem α) := do
  let p ← fs.locate true text
  match fs.get p with
  | none => fs.createAt p (.file stat data)
  | some (.file _ _) => .ok (fs.writeAt p stat data)
  | some (.dir _) => .error .eisdir
  | some _ => .error .einval

/--
Open for writing, creating or truncating, and write `data`.  A file that was
there keeps its attributes, a new one has those of `stat`.
-/
def openWrite (fs : FileSystem α) (text : PathText α) (stat : Stat) (data : List UInt8) :
    Except Errno (FileSystem α) := do
  let p ← fs.locate true text
  match fs.get p with
  | none => fs.createAt p (.file stat data)
  | some (.file old _) => .ok (fs.writeAt p old data)
  | some (.dir _) => .error .eisdir
  | some _ => .error .einval

/-- `create_dir_all` on the text whose pieces are given last one first. -/
def createDirAll (fs : FileSystem α) (perm : Nat) : PathText α → Except Errno (FileSystem α)
  | [] => .ok fs
  | piece :: parent =>
      let text := (piece :: parent).reverse
      match fs.mkdir text perm with
      | .ok fs' => .ok fs'
      | .error .enoent => do
          let fs ← createDirAll fs perm parent
          match fs.mkdir text perm with
          | .ok fs' => .ok fs'
          | .error e => if fs.isdir text then .ok fs else .error e
      | .error e => if fs.isdir text then .ok fs else .error e

/-- Set the permission bits of what a text names, links followed. -/
def chmod (fs : FileSystem α) (text : PathText α) (perm : Nat) : Except Errno (FileSystem α) := do
  let p ← fs.locate true text
  if (fs.get p).isSome then .ok (fs.chmodAt p perm) else .error .enoent

/-- The status of what a text names, the last link not followed; `none` if there is nothing. -/
def symlinkStatus (fs : FileSystem α) (text : PathText α) : Except Errno (Option (Node α)) :=
  match fs.locate false text with
  | .ok p => .ok (fs.get p)
  | .error .enoent => .ok none
  | .error .enotdir => .ok none
  | .error e => .error e

theorem lstat_of_symlinkStatus {fs : FileSystem α} {text : PathText α} {node : Node α}
    (status : fs.symlinkStatus text = .ok (some node)) : fs.lstat text = some node := by
  unfold symlinkStatus at status
  unfold lstat
  cases located : fs.locate false text with
  | ok p =>
      rw [located] at status
      exact Except.ok.inj status
  | error e =>
      rw [located] at status
      cases e <;> cases status

theorem symlinkStatus_textOf (fs : FileSystem α) {n : α} {p : Path α} {node : Node α}
    (found : fs.get (n :: p) = some node) :
    fs.symlinkStatus (textOf (n :: p)) = .ok (some node) := by
  rw [symlinkStatus, fs.locate_textOf (fs.parent_isDirAt found)]
  exact congrArg Except.ok found

/-- In a directory where the name is free an exclusive creation succeeds. -/
theorem create_ok (fs : FileSystem α) {n : α} {p : Path α} (node : Node α)
    (parent : fs.isDirAt p = true) (free : fs.get (n :: p) = none) :
    fs.create (textOf (n :: p)) node = .ok (fs.insert n p node parent free) := by
  simp only [create, fs.locate_textOf parent, bind, Except.bind, createAt, free, parent,
    ↓reduceDIte]

/-- An exclusive creation fails on a location that is taken. -/
theorem create_taken (fs : FileSystem α) {p : Path α} {node : Node α} (other : Node α)
    (taken : fs.get p = some node) : fs.create (textOf p) other = .error .eexist := by
  cases p with
  | nil =>
      have arrived : fs.locate false (textOf []) = .ok [] := walk_of_scan_done rfl
      simp only [create, arrived, bind, Except.bind, createAt]
  | cons n p =>
      simp only [create, fs.locate_textOf (fs.parent_isDirAt taken), bind, Except.bind, createAt,
        taken, reduceCtorEq, ↓reduceDIte]

/-- Whatever an exclusive creation at a plain location returns is one new entry there. -/
theorem create_inv (fs fs' : FileSystem α) {n : α} {p : Path α} {node : Node α}
    (parent : fs.isDirAt p = true) (made : fs.create (textOf (n :: p)) node = .ok fs') :
    fs.get (n :: p) = none ∧ ∀ q, fs'.get q = if q = n :: p then some node else fs.get q := by
  cases taken : fs.get (n :: p) with
  | some old =>
      rw [fs.create_taken node taken] at made
      cases made
  | none =>
      rw [fs.create_ok node parent taken] at made
      cases made
      exact ⟨rfl, fs.get_insert parent taken⟩

/-- Where no link is in the way, nothing is found below what is no directory. -/
theorem locate_plain_error (fs : FileSystem α) (follow : Bool) {n : α} {p : Path α}
    (plain : fs.Plain (n :: p)) (noDir : fs.isDirAt p = false) :
    ∃ e, fs.locate follow (textOf (n :: p)) = .error e := by
  obtain ⟨e, failed⟩ := fs.scan_textOf_error follow noDir plain.tail plain.parent [.name n]
    (List.cons_ne_nil _ _)
  refine ⟨e, ?_⟩
  rw [textOf_cons]
  exact walk_of_scan_done failed

/-- Where no link is in the way, an exclusive creation succeeds only in a directory. -/
theorem create_plain_inv (fs fs' : FileSystem α) {n : α} {p : Path α} {node : Node α}
    (plain : fs.Plain (n :: p)) (made : fs.create (textOf (n :: p)) node = .ok fs') :
    fs.isDirAt p = true ∧ fs.get (n :: p) = none ∧
      ∀ q, fs'.get q = if q = n :: p then some node else fs.get q := by
  by_cases dir : fs.isDirAt p = true
  · exact ⟨dir, fs.create_inv fs' dir made⟩
  · obtain ⟨e, located⟩ := fs.locate_plain_error false plain (Bool.eq_false_iff.mpr dir)
    simp only [create, located, bind, Except.bind, reduceCtorEq] at made

theorem locate_follow_textOf (fs : FileSystem α) {n : α} {p : Path α}
    (dir : fs.isDirAt p = true) (noLink : ∀ target, fs.get (n :: p) ≠ some (.symlink target)) :
    fs.locate true (textOf (n :: p)) = .ok (n :: p) := by
  apply walk_of_scan_done
  rw [textOf_cons, fs.scan_textOf true dir]
  cases found : fs.get (n :: p) with
  | none => simp [scan, found]
  | some node =>
      cases node with
      | symlink target => exact absurd found (noLink target)
      | dir _ | file _ _ | chardev _ _ => simp [scan, found]

/-- Writing to a free name in a directory creates the file. -/
theorem writeFile_new (fs : FileSystem α) {n : α} {p : Path α} (stat : Stat)
    (data : List UInt8) (parent : fs.isDirAt p = true) (free : fs.get (n :: p) = none) :
    fs.writeFile (textOf (n :: p)) stat data =
      .ok (fs.insert n p (.file stat data) parent free) := by
  have noLink : ∀ target, fs.get (n :: p) ≠ some (.symlink target) := by
    intro target link
    rw [free] at link
    cases link
  have located := fs.locate_follow_textOf parent noLink
  simp only [writeFile, located, bind, Except.bind, free, createAt, parent, ↓reduceDIte]

/-- Whatever a write at a location that is no link returns is the written file there. -/
theorem writeFile_inv (fs fs' : FileSystem α) {n : α} {p : Path α} {stat : Stat}
    {data : List UInt8} (parent : fs.isDirAt p = true)
    (noLink : ∀ target, fs.get (n :: p) ≠ some (.symlink target))
    (written : fs.writeFile (textOf (n :: p)) stat data = .ok fs') (q : Path α) :
    fs'.get q = if q = n :: p then some (.file stat data) else fs.get q := by
  have located := fs.locate_follow_textOf parent noLink
  cases found : fs.get (n :: p) with
  | none =>
      rw [fs.writeFile_new stat data parent found] at written
      cases written
      exact fs.get_insert parent found q
  | some node =>
      cases node with
      | file old bytes =>
          simp only [writeFile, located, bind, Except.bind, found, Except.ok.injEq] at written
          subst written
          rw [get_writeAt]
          by_cases same : q = n :: p
          · simp [same, found, Node.isFile]
          · simp [same]
      | dir _ | symlink _ | chardev _ _ =>
          simp only [writeFile, located, bind, Except.bind, found, reduceCtorEq] at written

/-- Where no link is in the way, a file is written only into a directory. -/
theorem writeFile_plain_inv (fs fs' : FileSystem α) {n : α} {p : Path α} {stat : Stat}
    {data : List UInt8} (plain : fs.Plain (n :: p)) (free : fs.get (n :: p) = none)
    (written : fs.writeFile (textOf (n :: p)) stat data = .ok fs') (q : Path α) :
    fs'.get q = if q = n :: p then some (.file stat data) else fs.get q := by
  by_cases dir : fs.isDirAt p = true
  · exact fs.writeFile_inv fs' dir (by simp [free]) written q
  · obtain ⟨e, located⟩ := fs.locate_plain_error true plain (Bool.eq_false_iff.mpr dir)
    simp only [writeFile, located, bind, Except.bind, reduceCtorEq] at written

/-- Opening for writing at a location that is free or a regular file stores the data there. -/
theorem openWrite_ok (fs : FileSystem α) {text : PathText α} {n : α} {p : Path α}
    (located : fs.locate true text = .ok (n :: p)) (parent : fs.isDirAt p = true)
    (file : ∀ node, fs.get (n :: p) = some node → node.isFile = true) (stat : Stat)
    (data : List UInt8) :
    ∃ fs' stat', fs.openWrite text stat data = .ok fs' ∧
      ∀ q, fs'.get q = if q = n :: p then some (.file stat' data) else fs.get q := by
  cases found : fs.get (n :: p) with
  | none =>
      refine ⟨fs.insert n p (.file stat data) parent found, stat, ?_, fs.get_insert parent found⟩
      simp only [openWrite, located, bind, Except.bind, found, createAt, parent, ↓reduceDIte]
  | some node =>
      cases node with
      | file old bytes =>
          refine ⟨fs.writeAt (n :: p) old data, old, ?_, fun q => ?_⟩
          · simp only [openWrite, located, bind, Except.bind, found]
          · rw [get_writeAt]
            by_cases same : q = n :: p
            · simp [same, found, Node.isFile]
            · simp [same]
      | dir _ | symlink _ | chardev _ _ => exact absurd (file _ found) (by simp [Node.isFile])

/-- `create_dir_all` in a directory, where the name is free or a directory already. -/
theorem createDirAll_ok (fs : FileSystem α) {n : α} {p : Path α} (perm : Nat)
    (parent : fs.isDirAt p = true) (free : fs.get (n :: p) = none ∨ fs.isDirAt (n :: p) = true) :
    ∃ fs', fs.createDirAll perm (Piece.empty :: textOf (n :: p)).reverse = .ok fs' ∧
      fs'.isDirAt (n :: p) = true ∧ ∀ q, q ≠ n :: p → fs'.get q = fs.get q := by
  have pieces : (Piece.empty :: textOf (n :: p)).reverse =
      .name n :: (Piece.empty :: textOf p).reverse := by simp [textOf_cons]
  have text : (.name n :: (Piece.empty :: textOf p).reverse).reverse =
      Piece.empty :: textOf (n :: p) := by simp [textOf_cons]
  have absolute : ∀ node, fs.create (Piece.empty :: textOf (n :: p)) node =
      fs.create (textOf (n :: p)) node := fun _ => rfl
  rw [pieces]
  simp only [createDirAll, text, mkdir, absolute]
  rcases free with none' | dir
  · rw [fs.create_ok _ parent none']
    refine ⟨_, rfl, ?_, fun q apart => ?_⟩
    · rw [isDirAt, fs.get_insert parent none', if_pos rfl]
      rfl
    · rw [fs.get_insert parent none', if_neg apart]
  · obtain ⟨old, found⟩ := (fs.isDirAt_iff _).mp dir
    have isdir : fs.isdir (Piece.empty :: textOf (n :: p)) = true := by
      change (fs.stat (textOf (n :: p))).any Node.isDir = true
      rw [fs.stat_textOf (plain_of_get found) (by simp [found]), found]
      rfl
    rw [fs.create_taken _ found]
    simp only [isdir, ↓reduceIte]
    exact ⟨fs, rfl, dir, fun _ _ => rfl⟩

/-- On an existing directory `chmod` changes its permission bits in place. -/
theorem chmod_dir (fs : FileSystem α) {n : α} {p : Path α} {old : Nat} (perm : Nat)
    (found : fs.get (n :: p) = some (.dir old)) :
    fs.chmod (textOf (n :: p)) perm = .ok (fs.chmodAt (n :: p) perm) := by
  have noLink : ∀ target, fs.get (n :: p) ≠ some (.symlink target) := by
    intro target link
    rw [found] at link
    cases link
  have located := fs.locate_follow_textOf (fs.parent_isDirAt found) noLink
  simp only [chmod, located, bind, Except.bind, found, Option.isSome_some, ↓reduceIte]

/-! ## Nothing is removed -/

/-- Whatever exists in the first file system exists in the second. -/
def Grows (fs fs' : FileSystem α) : Prop := ∀ p, (fs.get p).isSome = true → (fs'.get p).isSome = true

theorem Grows.refl (fs : FileSystem α) : fs.Grows fs := fun _ exists' => exists'

theorem Grows.trans {first second third : FileSystem α} (one : first.Grows second)
    (two : second.Grows third) : first.Grows third :=
  fun p exists' => two p (one p exists')

/-- What exists stays, a directory as a directory and anything else as no directory. -/
def KeepsKinds (fs fs' : FileSystem α) : Prop :=
  ∀ p, (fs.get p).isSome = true → (fs'.get p).map Node.isDir = (fs.get p).map Node.isDir

namespace KeepsKinds

variable {first second third : FileSystem α}

theorem refl (fs : FileSystem α) : fs.KeepsKinds fs := fun _ _ => rfl

theorem grows (keeps : first.KeepsKinds second) : first.Grows second := by
  intro p here
  have kinds := congrArg Option.isSome (keeps p here)
  rw [Option.isSome_map, Option.isSome_map] at kinds
  exact kinds.trans here

theorem trans (one : first.KeepsKinds second) (two : second.KeepsKinds third) :
    first.KeepsKinds third :=
  fun p here => (two p (one.grows p here)).trans (one p here)

end KeepsKinds

theorem createAt_keepsKinds {fs fs' : FileSystem α} {p : Path α} {node : Node α}
    (made : fs.createAt p node = .ok fs') : fs.KeepsKinds fs' := by
  cases p with
  | nil => cases made
  | cons n p =>
      simp only [createAt] at made
      split at made
      · rename_i free
        split at made
        · rename_i parent
          cases made
          intro q here
          rw [fs.get_insert parent free]
          split
          · rename_i same
            rw [same, free] at here
            cases here
          · rfl
        · cases made
      · cases made

theorem create_keepsKinds {fs fs' : FileSystem α} {text : PathText α} {node : Node α}
    (made : fs.create text node = .ok fs') : fs.KeepsKinds fs' := by
  cases located : fs.locate false text with
  | error e =>
      simp only [create, located, bind, Except.bind, reduceCtorEq] at made
  | ok p =>
      simp only [create, located, bind, Except.bind] at made
      exact createAt_keepsKinds made

theorem writeFile_keepsKinds {fs fs' : FileSystem α} {text : PathText α} {stat : Stat}
    {data : List UInt8} (written : fs.writeFile text stat data = .ok fs') : fs.KeepsKinds fs' := by
  cases located : fs.locate true text with
  | error e =>
      simp only [writeFile, located, bind, Except.bind, reduceCtorEq] at written
  | ok p =>
      simp only [writeFile, located, bind, Except.bind] at written
      split at written
      · exact createAt_keepsKinds written
      · cases written
        intro q _
        rw [get_writeAt, Option.map_map]
        refine congrArg (fun f => (fs.get q).map f) (funext fun node => ?_)
        cases node with
        | file stat' data' => by_cases same : q = p <;> simp [same, Node.isFile, Node.isDir]
        | dir _ | symlink _ | chardev _ _ => simp [Node.isFile]
      · cases written
      · cases written

theorem chmod_keepsKinds {fs fs' : FileSystem α} {text : PathText α} {perm : Nat}
    (changed : fs.chmod text perm = .ok fs') : fs.KeepsKinds fs' := by
  cases located : fs.locate true text with
  | error e =>
      simp only [chmod, located, bind, Except.bind, reduceCtorEq] at changed
  | ok p =>
      simp only [chmod, located, bind, Except.bind] at changed
      split at changed
      · cases changed
        intro q _
        rw [get_chmodAt]
        split
        · rw [Option.map_map]
          exact congrArg (fun f => (fs.get q).map f) (funext fun node => node.setPerm_isDir perm)
        · rfl
      · cases changed

/-! ## Walking a tree -/

theorem listdir_nodup (fs : FileSystem α) (p : Path α) : (fs.listdir p).Nodup := by
  let name : Path α → Option α := fun
    | [] => none
    | n :: q => if q = p then some n else none
  have listed : fs.listdir p = (fs.entries.map Prod.fst).filterMap name := by
    rw [List.filterMap_map]
    rfl
  rw [listed]
  refine fs.nodup.filterMap fun a b n one two => ?_
  have named : ∀ q : Path α, n ∈ name q → q = n :: p := by
    intro q named
    cases q with
    | nil => cases named
    | cons m q =>
        change (if q = p then some m else none) = some n at named
        split at named
        · rename_i same
          rw [same, Option.some.inj named]
        · cases named
  exact (named a one).trans (named b two).symm

/-- The length of the longest location. -/
def depth (fs : FileSystem α) : Nat := (fs.entries.map fun e => e.1.length).foldr max 0

theorem length_le_depth (fs : FileSystem α) {p : Path α} {node : Node α}
    (found : fs.get p = some node) : p.length ≤ fs.depth := by
  have member := (fs.mem_entries_iff p node).mpr found
  have general : ∀ entries : List (Path α × Node α), (p, node) ∈ entries →
      p.length ≤ (entries.map fun e => e.1.length).foldr max 0 := by
    intro entries inside
    induction entries with
    | nil => cases inside
    | cons first rest ih =>
        rcases List.mem_cons.mp inside with rfl | later
        · exact Nat.le_max_left _ _
        · exact (ih later).trans (Nat.le_max_right _ _)
  exact general fs.entries member

/-- The names in the directory `rel` below `top`, told apart the way `os.walk` does. -/
def visit (fs : FileSystem α) (top rel : Path α) : Visit α where
  rel := rel
  dirs := (fs.listdir (rel ++ top)).filter fun n => fs.isdir (textOf (n :: (rel ++ top)))
  files := (fs.listdir (rel ++ top)).filter fun n => !fs.isdir (textOf (n :: (rel ++ top)))

/--
`os.walk`, top down and without following links, from the directory `rel`
below `top`.  The fuel bounds the depth of the tree.
-/
def osWalkFrom (fs : FileSystem α) (top : Path α) : Nat → Path α → List (Visit α)
  | 0, _ => []
  | fuel + 1, rel =>
      let here := fs.visit top rel
      here :: (here.dirs.filter fun n => !fs.islink (textOf (n :: (rel ++ top)))).flatMap
        fun n => osWalkFrom fs top fuel (n :: rel)

def osWalk (fs : FileSystem α) (top : Path α) : List (Visit α) :=
  fs.osWalkFrom top (fs.depth + 1) []

/-- The walk descends into exactly the names that are directories themselves. -/
theorem mem_descend_iff (fs : FileSystem α) {top rel : Path α} {n : α}
    (dir : fs.isDirAt (rel ++ top) = true) :
    n ∈ ((fs.visit top rel).dirs.filter fun m => !fs.islink (textOf (m :: (rel ++ top)))) ↔
      fs.isDirAt (n :: (rel ++ top)) = true := by
  have split := fs.isdir_and_not_islink_textOf (fs.plain_cons_of_isDirAt (n := n) dir)
  rw [← split]
  simp only [visit, List.mem_filter, Bool.and_eq_true]
  constructor
  · rintro ⟨⟨_, isdir⟩, islink⟩
    exact ⟨isdir, islink⟩
  · rintro ⟨isdir, islink⟩
    refine ⟨⟨?_, isdir⟩, islink⟩
    rw [isdir, islink, Bool.and_true] at split
    obtain ⟨perm, found⟩ := (fs.isDirAt_iff _).mp split.symm
    exact (fs.mem_listdir_iff _ _).mpr ⟨_, found⟩

/-- Everything a walk reports is a directory below its start, with its listing. -/
theorem of_mem_osWalkFrom (fs : FileSystem α) {top : Path α} {fuel : Nat} {rel : Path α}
    (dir : fs.isDirAt (rel ++ top) = true) {v : Visit α} (member : v ∈ fs.osWalkFrom top fuel rel) :
    fs.isDirAt (v.rel ++ top) = true ∧ v = fs.visit top v.rel := by
  induction fuel generalizing rel with
  | zero => cases member
  | succ fuel ih =>
      rcases List.mem_cons.mp member with rfl | later
      · exact ⟨dir, rfl⟩
      · obtain ⟨n, descend, inside⟩ := List.mem_flatMap.mp later
        exact ih ((fs.mem_descend_iff dir).mp descend) inside

/-- With enough fuel a walk reports every directory below its start. -/
theorem mem_osWalkFrom (fs : FileSystem α) {top : Path α} {fuel : Nat} {rel sub : Path α}
    (suffix : rel <:+ sub) (dir : fs.isDirAt (sub ++ top) = true)
    (enough : sub.length < rel.length + fuel) : fs.visit top sub ∈ fs.osWalkFrom top fuel rel := by
  induction fuel generalizing rel with
  | zero => exact absurd suffix.length_le (by omega)
  | succ fuel ih =>
      by_cases same : rel = sub
      · subst same
        exact List.mem_cons_self
      · obtain ⟨n, child⟩ := exists_child_suffix suffix same
        refine List.mem_cons_of_mem _ (List.mem_flatMap.mpr ⟨n, ?_, ?_⟩)
        · have here := fs.isDirAt_upward dir suffix
          exact (fs.mem_descend_iff here).mpr (fs.isDirAt_upward dir child)
        · exact ih child (by simp only [List.length_cons]; omega)

/-- `os.walk` reports every directory of the tree. -/
theorem mem_osWalk (fs : FileSystem α) {top sub : Path α}
    (dir : fs.isDirAt (sub ++ top) = true) : fs.visit top sub ∈ fs.osWalk top := by
  obtain ⟨perm, found⟩ := (fs.isDirAt_iff _).mp dir
  have bound := fs.length_le_depth found
  rw [List.length_append] at bound
  exact fs.mem_osWalkFrom List.nil_suffix dir (by simp only [List.length_nil]; omega)

/-- A walk stays below its start. -/
theorem suffix_of_mem_osWalkFrom (fs : FileSystem α) {top : Path α} {fuel : Nat} {rel : Path α}
    {v : Visit α} (member : v ∈ fs.osWalkFrom top fuel rel) : rel <:+ v.rel := by
  induction fuel generalizing rel with
  | zero => cases member
  | succ fuel ih =>
      rcases List.mem_cons.mp member with rfl | later
      · exact List.suffix_rfl
      · obtain ⟨n, _, inside⟩ := List.mem_flatMap.mp later
        exact (List.suffix_cons n rel).trans (ih inside)

/-- A walk reports no directory twice. -/
theorem osWalkFrom_nodup (fs : FileSystem α) {top : Path α} {fuel : Nat} {rel : Path α} :
    ((fs.osWalkFrom top fuel rel).map Visit.rel).Nodup := by
  induction fuel generalizing rel with
  | zero => exact List.nodup_nil
  | succ fuel ih =>
      rw [osWalkFrom, List.map_cons, List.map_flatMap]
      have below : ∀ {n : α} {q : Path α},
          q ∈ (fs.osWalkFrom top fuel (n :: rel)).map Visit.rel → n :: rel <:+ q := by
        intro n q inside
        obtain ⟨v, member, rfl⟩ := List.mem_map.mp inside
        exact fs.suffix_of_mem_osWalkFrom member
      refine List.nodup_cons.mpr ⟨fun inside => ?_, List.nodup_flatMap.mpr ⟨fun _ _ => ih, ?_⟩⟩
      · obtain ⟨n, _, inside⟩ := List.mem_flatMap.mp inside
        have length := (below inside).length_le
        change (n :: rel).length ≤ rel.length at length
        rw [List.length_cons] at length
        omega
      · refine ((fs.listdir_nodup _).filter _).filter _ |>.imp fun {n m} differ q one two => ?_
        have same := List.suffix_or_suffix_of_suffix (below one) (below two)
        refine differ ?_
        rcases same with inner | inner
        · exact (List.cons.inj (inner.eq_of_length rfl)).1
        · exact (List.cons.inj (inner.eq_of_length rfl)).1.symm

/-- What `os.walk` reports is a directory of the tree with its listing. -/
theorem of_mem_osWalk (fs : FileSystem α) {top : Path α} (dir : fs.isDirAt top = true)
    {v : Visit α} (member : v ∈ fs.osWalk top) :
    fs.isDirAt (v.rel ++ top) = true ∧ v = fs.visit top v.rel :=
  fs.of_mem_osWalkFrom (show fs.isDirAt ([] ++ top) = true from dir) member

/-- The entries below `rel`, each directory before what it holds; no link is followed. -/
def recursiveEntriesFrom (fs : FileSystem α) (top : Path α) : Nat → Path α → List (Path α)
  | 0, _ => []
  | fuel + 1, rel =>
      (fs.listdir (rel ++ top)).flatMap fun n =>
        (n :: rel) ::
          if fs.isDirAt (n :: (rel ++ top)) then recursiveEntriesFrom fs top fuel (n :: rel) else []

/-- What a recursive directory iterator visits. -/
def recursiveEntries (fs : FileSystem α) (top : Path α) : List (Path α) :=
  fs.recursiveEntriesFrom top (fs.depth + 1) []

/-- With enough fuel every entry below a directory is visited, and nothing else. -/
theorem mem_recursiveEntriesFrom (fs : FileSystem α) {top : Path α} {fuel : Nat} {rel sub : Path α}
    (enough : fs.depth < (rel ++ top).length + fuel) :
    sub ∈ fs.recursiveEntriesFrom top fuel rel ↔
      rel <:+ sub ∧ rel ≠ sub ∧ (fs.get (sub ++ top)).isSome = true := by
  induction fuel generalizing rel with
  | zero =>
      refine iff_of_false (fun member => nomatch member) ?_
      rintro ⟨suffix, proper, exists'⟩
      obtain ⟨node, found⟩ := Option.isSome_iff_exists.mp exists'
      have bound := fs.length_le_depth found
      have length := suffix.length_le
      simp only [List.length_append] at enough bound
      omega
  | succ fuel ih =>
      simp only [recursiveEntriesFrom, List.mem_flatMap, fs.mem_listdir_iff, List.mem_cons]
      have deeper : ∀ n : α, fs.depth < (n :: rel ++ top).length + fuel := by
        intro n
        simp only [List.length_append, List.length_cons] at enough ⊢
        omega
      constructor
      · rintro ⟨n, ⟨node, found⟩, rfl | below⟩
        · exact ⟨List.suffix_cons n rel, by simp, by rw [List.cons_append, found]; rfl⟩
        · split at below
          · obtain ⟨suffix, proper, exists'⟩ := (ih (deeper n)).mp below
            refine ⟨(List.suffix_cons n rel).trans suffix, ?_, exists'⟩
            rintro rfl
            have length := suffix.length_le
            rw [List.length_cons] at length
            omega
          · cases below
      · rintro ⟨suffix, proper, exists'⟩
        obtain ⟨n, child⟩ := exists_child_suffix suffix proper
        obtain ⟨node, found⟩ := Option.isSome_iff_exists.mp exists'
        by_cases same : n :: rel = sub
        · subst same
          exact ⟨n, ⟨node, found⟩, Or.inl rfl⟩
        · have dir : fs.isDirAt (n :: rel ++ top) = true := fs.isDirAt_above found child same
          obtain ⟨perm, found'⟩ := (fs.isDirAt_iff _).mp dir
          refine ⟨n, ⟨_, found'⟩, Or.inr ?_⟩
          rw [if_pos (by exact dir)]
          exact (ih (deeper n)).mpr ⟨child, same, exists'⟩

theorem suffix_of_mem_recursiveEntriesFrom (fs : FileSystem α) {top : Path α} {fuel : Nat}
    {rel sub : Path α} (member : sub ∈ fs.recursiveEntriesFrom top fuel rel) :
    ∃ n, n :: rel <:+ sub := by
  induction fuel generalizing rel with
  | zero => cases member
  | succ fuel ih =>
      obtain ⟨n, _, inside⟩ := List.mem_flatMap.mp member
      refine ⟨n, ?_⟩
      rcases List.mem_cons.mp inside with rfl | below
      · exact List.suffix_rfl
      · split at below
        · obtain ⟨m, suffix⟩ := ih below
          exact (List.suffix_cons m _).trans suffix
        · cases below

/-- No entry is visited twice. -/
theorem recursiveEntriesFrom_nodup (fs : FileSystem α) {top : Path α} {fuel : Nat} {rel : Path α} :
    (fs.recursiveEntriesFrom top fuel rel).Nodup := by
  induction fuel generalizing rel with
  | zero => exact List.nodup_nil
  | succ fuel ih =>
      rw [recursiveEntriesFrom]
      have below : ∀ {n : α} {q : Path α}, q ∈ (n :: rel) ::
          (if fs.isDirAt (n :: (rel ++ top)) then fs.recursiveEntriesFrom top fuel (n :: rel) else []) →
          n :: rel <:+ q := by
        intro n q inside
        rcases List.mem_cons.mp inside with rfl | later
        · exact List.suffix_rfl
        · split at later
          · obtain ⟨m, suffix⟩ := fs.suffix_of_mem_recursiveEntriesFrom later
            exact (List.suffix_cons m _).trans suffix
          · cases later
      refine List.nodup_flatMap.mpr ⟨fun n _ => List.nodup_cons.mpr ⟨fun inside => ?_, ?_⟩, ?_⟩
      · split at inside
        · obtain ⟨m, suffix⟩ := fs.suffix_of_mem_recursiveEntriesFrom inside
          have length := suffix.length_le
          rw [List.length_cons] at length
          omega
        · cases inside
      · split
        · exact ih
        · exact List.nodup_nil
      · refine (fs.listdir_nodup _).imp fun {n m} differ q one two => differ ?_
        rcases List.suffix_or_suffix_of_suffix (below one) (below two) with inner | inner
        · exact (List.cons.inj (inner.eq_of_length rfl)).1
        · exact (List.cons.inj (inner.eq_of_length rfl)).1.symm

theorem mem_recursiveEntries (fs : FileSystem α) {top sub : Path α} :
    sub ∈ fs.recursiveEntries top ↔ sub ≠ [] ∧ (fs.get (sub ++ top)).isSome = true := by
  rw [recursiveEntries, fs.mem_recursiveEntriesFrom (by simp only [List.length_append]; omega)]
  constructor
  · rintro ⟨_, proper, exists'⟩
    exact ⟨Ne.symm proper, exists'⟩
  · rintro ⟨proper, exists'⟩
    exact ⟨List.nil_suffix, Ne.symm proper, exists'⟩

end FileSystem

end GnomeBuildMeta.Posix
