import GnomeBuildMeta.Posix.Operations
import GnomeBuildMeta.Posix.Reaches

/-!
# Removed entries

`unlink` takes away an entry that is no directory.  A text that led to it leads
there still, to make a new one, unless its way went through the entry.
-/

namespace GnomeBuildMeta.Posix

variable {α : Type} [DecidableEq α]

/-- A resolution that ends elsewhere does not notice a file, or that it is gone. -/
theorem Reaches.congr_off {look look' : Tree α} {follow : Bool} {cwd p q : Path α} {text : PathText α} {k : Nat}
    (file : ∀ node, look p = some node → node.isDir = false ∧ node.isSymlink = false)
    (same : ∀ r node, r ≠ p → look r = some node → look' r = some node)
    (reaches : Reaches look follow cwd text k q) (other : q ≠ p) : Reaches look' follow cwd text k q := by
  induction reaches with
  | done => exact .done
  | empty _ ih => exact (ih other).empty
  | cur _ ih => exact (ih other).cur
  | up _ ih => exact (ih other).up
  | @dir cwd _ n _ _ isDir _ ih =>
      obtain ⟨node, found, dir⟩ := (Option.any_eq_true _ _).mp isDir
      refine (ih other).dir ?_
      rw [same (n :: cwd) node ?_ found]
      · exact dir
      · rintro rfl
        rw [(file node found).1] at dir
        cases dir
  | leaf found noDir last => exact .leaf (same _ _ other found) noDir last
  | @link cwd _ n target _ _ found more _ ih =>
      refine (ih other).link (same _ _ ?_ found) more
      rintro rfl
      cases (file _ found).2

namespace FileSystem

/-! ## One entry less -/

theorem lookup_filter_ne (entries : List (Path α × Node α)) (p q : Path α) :
    (entries.filter fun e => e.1 ≠ p).lookup q = if q = p then none else entries.lookup q := by
  induction entries with
  | nil => simp
  | cons first rest ih =>
      obtain ⟨r, node⟩ := first
      by_cases gone : r = p
      · rw [List.filter_cons_of_neg (by simp [gone]), ih]
        by_cases here : q = p
        · rw [if_pos here, if_pos here]
        · rw [if_neg here, if_neg here, List.lookup_cons, show (q == r) = false by simp [gone, here]]
      · rw [List.filter_cons_of_pos (by simp [gone]), List.lookup_cons, List.lookup_cons, ih]
        by_cases here : q = p
        · rw [if_pos here, if_pos here, show (q == r) = false by simp [here, Ne.symm gone]]
        · rw [if_neg here, if_neg here]

/-- Take away an entry that is no directory. -/
def removeAt (fs : FileSystem α) (p : Path α) (leaf : fs.isDirAt p = false) : FileSystem α where
  entries := fs.entries.filter fun e => e.1 ≠ p
  nodup := fs.nodup.sublist (List.Sublist.map _ List.filter_sublist)
  root := by
    rw [lookup_filter_ne, if_neg]
    · exact fs.root
    · rintro rfl
      rw [fs.isDirAt_root] at leaf
      cases leaf
  parents := by
    intro e member
    rcases fs.parents e (List.mem_of_mem_filter member) with atRoot | dir
    · exact Or.inl atRoot
    · right
      rw [lookup_filter_ne, if_neg]
      · exact dir
      · intro same
        rw [same] at dir
        rw [FileSystem.isDirAt, FileSystem.get, dir] at leaf
        cases leaf

theorem get_removeAt (fs : FileSystem α) {p : Path α} (leaf : fs.isDirAt p = false) (q : Path α) :
    (fs.removeAt p leaf).get q = if q = p then none else fs.get q := lookup_filter_ne _ _ _

/-- `unlink`, which does not follow a link at the end of the text. -/
def unlink (fs : FileSystem α) (text : PathText α) : Except Errno (FileSystem α) := do
  let p ← fs.locate false text
  if (fs.get p).isNone then .error .enoent
  else if leaf : fs.isDirAt p = false then .ok (fs.removeAt p leaf)
  else .error .eisdir

theorem unlink_inv {fs fs' : FileSystem α} {text : PathText α} (removed : fs.unlink text = .ok fs') :
    ∃ p, fs.locate false text = .ok p ∧ (fs.get p).isSome = true ∧ fs.isDirAt p = false ∧
      ∀ q, fs'.get q = if q = p then none else fs.get q := by
  cases located : fs.locate false text with
  | error e =>
      simp only [unlink, located, bind, Except.bind, reduceCtorEq] at removed
  | ok p =>
      simp only [unlink, located, bind, Except.bind] at removed
      split at removed
      · cases removed
      · rename_i there
        split at removed
        · rename_i leaf
          cases removed
          exact ⟨p, rfl, Option.isSome_iff_ne_none.mpr fun none' => there (by rw [none']; rfl), leaf,
            fs.get_removeAt leaf⟩
        · cases removed

/-- Where the entry was that a text led to, it leads still, or nowhere. -/
theorem locate_of_removed {fs fs' : FileSystem α} {text : PathText α} {p q : Path α}
    (located : fs.locate false text = .ok p) (there : (fs.get p).isSome = true)
    (same : ∀ r, fs'.get r = if r = p then none else fs.get r) (located' : fs'.locate false text = .ok q) :
    q = p := by
  by_contra other
  obtain ⟨k, _, reaches⟩ := Reaches.of_walk located there
  -- a file where the text leads now is met by both resolutions
  let look : Tree α := fun r => if fs.get r = none ∧ r = q then some (.file ⟨0, 0, 0, 0⟩ []) else fs.get r
  have more : ∀ r node, fs.get r = some node → look r = some node := by
    intro r node found
    simp only [look]
    rw [if_neg (fun h => by rw [h.1] at found; cases found), found]
  have before : ∀ r node, fs'.get r = some node → fs.get r = some node := by
    intro r node found
    rw [same] at found
    split at found
    · cases found
    · exact found
  have extends' : ∀ r node, fs'.get r = some node → look r = some node :=
    fun r node found => more r node (before r node found)
  obtain ⟨k', _, reaches'⟩ := Reaches.of_walk_extended extends' (fun missing => by
      rw [same, if_neg other] at missing
      exact ⟨.file ⟨0, 0, 0, 0⟩ [], by simp [look, missing], rfl, rfl⟩) located'
  exact other ((reaches.mono (Covers.of_extends more)).unique reaches').2.symm

/-! ## A new entry -/

theorem createAt_inv {fs fs' : FileSystem α} {p : Path α} {node : Node α} (made : fs.createAt p node = .ok fs') :
    fs.get p = none ∧ ∀ q, fs'.get q = if q = p then some node else fs.get q := by
  cases p with
  | nil => cases made
  | cons n p =>
      simp only [createAt] at made
      split at made
      · rename_i free
        split at made
        · rename_i parent
          cases made
          exact ⟨free, fs.get_insert parent free⟩
        · cases made
      · cases made

/-- The location of a new file is found by its text, whether links are followed or not. -/
theorem locate_of_created {fs fs' : FileSystem α} {text : PathText α} {p : Path α} {stat : Stat}
    {data : List UInt8} (located : fs.locate false text = .ok p) (free : fs.get p = none)
    (same : ∀ r, fs'.get r = if r = p then some (.file stat data) else fs.get r) :
    fs'.locate true text = .ok p ∧ fs'.locate false text = .ok p := by
  have extends' : ∀ r node, fs.get r = some node → fs'.get r = some node := by
    intro r node found
    rw [same, if_neg, found]
    rintro rfl
    rw [free] at found
    cases found
  obtain ⟨k, enough, reaches⟩ := Reaches.of_walk_extended extends'
    (fun _ => ⟨.file stat data, by rw [same, if_pos rfl], rfl, rfl⟩) located
  have noLink : ∀ target, fs'.get p ≠ some (.symlink target) := by
    intro target link
    rw [same, if_pos rfl] at link
    cases link
  exact ⟨(reaches.follow_of_not_link noLink).walk_eq enough, reaches.walk_eq enough⟩

/-- Changing contents moves nothing. -/
theorem locate_editAt {fs : FileSystem α} {follow : Bool} {text : PathText α} {p q : Path α}
    {change : List UInt8 → List UInt8} (located : fs.locate follow text = .ok p)
    (there : (fs.get p).isSome = true) : (fs.editAt q change).locate follow text = .ok p := by
  obtain ⟨k, enough, reaches⟩ := Reaches.of_walk located there
  refine (reaches.mono fun r node found => ?_).walk_eq enough
  rw [get_editAt, found]
  split
  · exact ⟨node.mapData change, rfl, node.mapData_isDir change, by cases node <;> rfl⟩
  · exact ⟨node, rfl, rfl, rfl⟩

/-! ## New directories -/

/-- The location is as it was, but for a directory where there was nothing. -/
def Unchanged (fs fs' : FileSystem α) (p : Path α) : Prop :=
  fs'.get p = fs.get p ∨ (fs.get p = none ∧ fs'.isDirAt p = true)

theorem Unchanged.trans {first second third : FileSystem α} {p : Path α} (one : first.Unchanged second p)
    (two : second.Unchanged third p) : first.Unchanged third p := by
  rcases two with same | ⟨missing, made⟩
  · rcases one with same' | ⟨missing, made⟩
    · exact Or.inl (same.trans same')
    · refine Or.inr ⟨missing, ?_⟩
      rw [isDirAt, same]
      exact made
  · rcases one with same' | ⟨_, made'⟩
    · exact Or.inr ⟨same'.symm.trans missing, made⟩
    · rw [isDirAt, missing] at made'
      cases made'

/-- What there was is there still. -/
theorem Unchanged.get {fs fs' : FileSystem α} {p : Path α} {node : Node α} (unchanged : fs.Unchanged fs' p)
    (found : fs.get p = some node) : fs'.get p = some node := by
  rcases unchanged with same | ⟨missing, _⟩
  · exact same.trans found
  · rw [missing] at found
    cases found

/-- Everything is as it was, but for new directories. -/
def MoreDirs (fs fs' : FileSystem α) : Prop := ∀ p, fs.Unchanged fs' p

theorem MoreDirs.refl (fs : FileSystem α) : fs.MoreDirs fs := fun _ => Or.inl rfl

theorem MoreDirs.trans {first second third : FileSystem α} (one : first.MoreDirs second)
    (two : second.MoreDirs third) : first.MoreDirs third := fun p => (one p).trans (two p)

theorem mkdir_moreDirs {fs fs' : FileSystem α} {text : PathText α} {perm : Nat}
    (made : fs.mkdir text perm = .ok fs') : fs.MoreDirs fs' := by
  cases located : fs.locate false text with
  | error e =>
      simp only [mkdir, create, located, bind, Except.bind, reduceCtorEq] at made
  | ok p =>
      simp only [mkdir, create, located, bind, Except.bind] at made
      obtain ⟨free, content⟩ := createAt_inv made
      intro q
      by_cases here : q = p
      · right
        rw [here, isDirAt, content, if_pos rfl]
        exact ⟨free, rfl⟩
      · left
        rw [content, if_neg here]

theorem createDirAll_moreDirs {fs fs' : FileSystem α} {perm : Nat} {text : PathText α}
    (made : fs.createDirAll perm text = .ok fs') : fs.MoreDirs fs' := by
  induction text generalizing fs fs' with
  | nil =>
      cases made
      exact .refl _
  | cons piece parent ih =>
      rw [createDirAll] at made
      -- a directory that is there is not made again
      have last : ∀ {fs} {e : Errno}, (if FileSystem.isdir fs (piece :: parent).reverse then .ok fs else .error e) =
          Except.ok fs' → fs.MoreDirs fs' := by
        intro fs e kept
        split at kept
        · cases kept
          exact .refl _
        · cases kept
      split at made
      · rename_i above one
        cases made
        exact mkdir_moreDirs one
      · cases first : fs.createDirAll perm parent with
        | error e =>
            rw [first] at made
            cases made
        | ok middle =>
            rw [first] at made
            simp only [bind, Except.bind] at made
            refine (ih first).trans ?_
            split at made
            · rename_i two
              cases made
              exact mkdir_moreDirs two
            · exact last made
      · exact last made

/-! ## Directories that exist -/

theorem isdir_iff {fs : FileSystem α} {text : PathText α} :
    fs.isdir text = true ↔ ∃ p, fs.locate true text = .ok p ∧ fs.isDirAt p = true := by
  unfold isdir stat
  cases located : fs.locate true text with
  | error e =>
      constructor
      · intro impossible
        cases impossible
      · rintro ⟨p, impossible, _⟩
        cases impossible
  | ok p =>
      constructor
      · intro dir
        exact ⟨p, rfl, dir⟩
      · rintro ⟨q, same, dir⟩
        cases same
        exact dir

theorem isSome_of_isDirAt {fs : FileSystem α} {p : Path α} (dir : fs.isDirAt p = true) :
    (fs.get p).isSome = true := by
  obtain ⟨perm, found⟩ := (fs.isDirAt_iff p).mp dir
  rw [found]
  rfl

/-- Each beginning of the text of a directory leads to a directory. -/
theorem isdir_of_append {fs : FileSystem α} {first rest : PathText α} (isdir : fs.isdir (first ++ rest) = true) :
    fs.isdir first = true := by
  by_cases more : rest = []
  · rw [more, List.append_nil] at isdir
    exact isdir
  obtain ⟨p, located, dir⟩ := isdir_iff.mp isdir
  obtain ⟨k, enough, reaches⟩ := Reaches.of_walk located (isSome_of_isDirAt dir)
  obtain ⟨k₁, q, k₂, one, isDir, _, sum⟩ := reaches.split fs.grounded more fs.root
  exact isdir_iff.mpr ⟨q, one.walk_eq (by omega), isDir⟩

/-- A directory is not made where a text leads to one. -/
theorem mkdir_of_isdir {fs : FileSystem α} {text : PathText α} {perm : Nat} (isdir : fs.isdir text = true) :
    fs.mkdir text perm = .error .eexist := by
  obtain ⟨p, located, dir⟩ := isdir_iff.mp isdir
  obtain ⟨k, enough, reaches⟩ := Reaches.of_walk located (isSome_of_isDirAt dir)
  obtain ⟨k', q, fewer, unfollowed⟩ := reaches.unfollow
  have located' : fs.locate false text = .ok q := unfollowed.walk_eq (fewer.trans enough)
  have there := unfollowed.exists_node fs.grounded fs.root
  simp only [mkdir, create, located', bind, Except.bind]
  cases q with
  | nil => rfl
  | cons n q =>
      rw [createAt, dif_neg]
      intro missing
      rw [missing] at there
      cases there

theorem createDirAll_of_isdir {fs : FileSystem α} {text : PathText α} {perm : Nat}
    (isdir : fs.isdir text.reverse = true) : fs.createDirAll perm text = .ok fs := by
  cases text with
  | nil => rfl
  | cons piece parent =>
      simp only [createDirAll, mkdir_of_isdir isdir, isdir, if_true]

end FileSystem

end GnomeBuildMeta.Posix
