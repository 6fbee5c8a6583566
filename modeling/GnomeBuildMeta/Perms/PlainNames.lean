import GnomeBuildMeta.Perms.SavePermsRun

/-!
# Plain names

A path whose names could be decoded and have no percent signs, wildcards or
braces leads to itself only.  A tree where all paths with a line are like that
gets its modes back.
-/

namespace GnomeBuildMeta.Perms

open GnomeBuildMeta.Posix

variable {t : Tmpfiles} {fs : FileSystem FileName} {roots : List (Path FileName)}

/-- The bytes that one of the stages takes for something else: percent, wildcards and braces. -/
def special : Bytes := [0x25, 0x2a, 0x3f, 0x5b, 0x5c, 0x7b]

/-- What is documented of patterns without these bytes. -/
structure Documented (t : Tmpfiles) : Prop where
  braces : ∀ pattern, (∀ byte ∈ pattern, byte ∉ special) → t.braces pattern = [pattern]
  fnmatch : ∀ pattern name, (∀ byte ∈ pattern, byte ∉ special) →
    (t.fnmatch pattern name = true ↔ pattern = name)

example : Documented literal :=
  ⟨fun _ _ => rfl, fun _ _ _ => by simp [literal]⟩

/-- A name that could be decoded and has none of these bytes. -/
def PlainName (n : FileName) : Prop :=
  (fsdecode n.bytes).all PyChar.isScalar = true ∧ ∀ byte ∈ n.bytes, byte ∉ special

theorem expand_plain {bytes : Bytes} (plain : ∀ byte ∈ bytes, byte ∉ special) :
    t.expand bytes = some bytes := by
  induction bytes with
  | nil => rfl
  | cons byte rest ih =>
      have later := ih fun other inside => plain other (List.mem_cons_of_mem _ inside)
      cases rest with
      | nil => rfl
      | cons next rest =>
          have noPercent : byte ≠ Tmpfiles.percent := by
            rintro rfl
            exact plain _ List.mem_cons_self (by decide)
          rw [Tmpfiles.expand, if_neg noPercent, later, Option.map_some]

theorem plain_pathBytes {p : Path FileName} (plain : ∀ n ∈ p, PlainName n) :
    ∀ byte ∈ pathBytes p, byte ∉ special := by
  intro byte member
  rcases List.mem_cons.mp member with rfl | inside
  · decide
  · rcases Words.of_mem_intercalate inside with rfl | ⟨name, listed, here⟩
    · decide
    · obtain ⟨n, among, rfl⟩ := List.mem_map.mp listed
      exact (plain n (List.mem_reverse.mp among)).2 byte here

theorem patternPiece_bytes (n : FileName) : Tmpfiles.patternPiece n.bytes = .name n.bytes := by
  rw [Tmpfiles.patternPiece, if_neg n.nonempty, if_neg n.notCur, if_neg n.notUp]

theorem pieces_pathBytes (n : FileName) (p : Path FileName) :
    ((pathBytes (n :: p)).splitOn slash).map Tmpfiles.patternPiece =
      .empty :: (n :: p).reverse.map fun m => .name m.bytes := by
  have names : (n :: p).reverse.map FileName.bytes ≠ [] := by simp
  obtain ⟨first, rest, listed⟩ := List.exists_cons_of_ne_nil names
  have whole : pathBytes (n :: p) =
      List.intercalate [slash] ([] :: (n :: p).reverse.map FileName.bytes) := by
    rw [pathBytes, listed, List.intercalate_cons_cons]
    rfl
  have noSlash : ∀ name ∈ [] :: (n :: p).reverse.map FileName.bytes, slash ∉ name := by
    intro name member
    rcases List.mem_cons.mp member with rfl | inside
    · exact List.not_mem_nil
    · obtain ⟨m, _, rfl⟩ := List.mem_map.mp inside
      exact m.noSlash
  rw [whole, List.splitOn_intercalate slash noSlash (List.cons_ne_nil _ _), List.map_cons,
    List.map_map]
  congr 1
  exact List.map_congr_left fun m _ => patternPiece_bytes m

/-- Names without special bytes lead to the entry of these names. -/
theorem mem_glob_plain (documented : Documented t) {names : List FileName}
    (plain : ∀ n ∈ names, PlainName n) {cwd p : Path FileName}
    (exists' : (fs.get (names.reverse ++ cwd)).isSome = true) :
    p ∈ t.glob fs cwd (names.map fun n => .name n.bytes) ↔ p = names.reverse ++ cwd := by
  induction names generalizing cwd with
  | nil => exact List.mem_singleton
  | cons n names ih =>
      rw [List.reverse_cons, List.append_assoc, List.singleton_append] at exists' ⊢
      obtain ⟨node, found⟩ := Option.isSome_iff_exists.mp exists'
      have only : ∀ m : FileName, t.fnmatch n.bytes m.bytes = true ↔ m = n := by
        intro m
        rw [documented.fnmatch n.bytes m.bytes (plain n List.mem_cons_self).2]
        constructor
        · intro same
          cases n
          cases m
          cases same
          rfl
        · rintro rfl
          rfl
      have listed : n ∈ fs.listdir cwd := by
        have suffix : n :: cwd <:+ names.reverse ++ n :: cwd := ⟨names.reverse, rfl⟩
        rw [fs.mem_listdir_iff]
        by_cases last : n :: cwd = names.reverse ++ n :: cwd
        · exact ⟨node, last ▸ found⟩
        · obtain ⟨perm, dir⟩ := (fs.isDirAt_iff _).mp (fs.ancestor_isDirAt found suffix last)
          exact ⟨_, dir⟩
      have matched : ∀ m, m ∈ (fs.listdir cwd).filter (fun m => t.fnmatch n.bytes m.bytes) ↔
          m = n := by
        intro m
        rw [List.mem_filter, only]
        exact and_iff_right_of_imp fun same => same ▸ listed
      simp only [List.map_cons, Tmpfiles.glob, List.mem_flatMap, matched, exists_eq_left]
      cases names with
      | nil => exact List.mem_singleton
      | cons next names =>
          have dir : fs.isDirAt (n :: cwd) = true := by
            refine fs.ancestor_isDirAt found ⟨(next :: names).reverse, rfl⟩ fun same => ?_
            have lengths := congrArg List.length same
            simp only [List.length_append, List.length_reverse, List.length_cons] at lengths
            omega
          obtain ⟨perm, isDir⟩ := (fs.isDirAt_iff _).mp dir
          rw [if_neg (by simp), fs.locate_follow_textOf (fs.parent_isDirAt isDir) (by simp [isDir])]
          exact ih (fun m member => plain m (List.mem_cons_of_mem _ member)) exists'

/-- A path of plain names leads to itself only. -/
theorem mem_reached_plain (documented : Documented t) {n : FileName} {q p : Path FileName}
    (plain : ∀ m ∈ n :: q, PlainName m) (exists' : (fs.get (n :: q)).isSome = true) :
    p ∈ t.reached fs (pathBytes (n :: q)) ↔ p = n :: q := by
  have bytes := plain_pathBytes plain
  have names : ∀ m ∈ (n :: q).reverse, PlainName m :=
    fun m member => plain m (List.mem_reverse.mp member)
  have found : p ∈ t.glob fs [] ((n :: q).reverse.map fun m => .name m.bytes) ↔
      p = (n :: q).reverse.reverse ++ [] :=
    mem_glob_plain documented names (by rwa [List.reverse_reverse, List.append_nil])
  rw [List.reverse_reverse, List.append_nil] at found
  rw [Tmpfiles.reached, expand_plain bytes]
  simp only [pathBytes, List.head?_cons, ↓reduceIte]
  rw [← pathBytes, documented.braces _ bytes, List.flatMap_singleton, pieces_pathBytes]
  exact found

theorem lastMode_own {p : Path FileName} {entries : List (Path FileName × Nat)}
    (itself : ∀ q mode, (q, mode) ∈ entries →
      (Decodable q ∧ p ∈ t.reached fs (pathBytes q) ↔ p = q)) :
    (∀ mode, lastMode t fs p entries = some mode → (p, mode) ∈ entries) ∧
      ∀ mode, (p, mode) ∈ entries → (lastMode t fs p entries).isSome = true := by
  induction entries with
  | nil => exact ⟨fun _ last => (nomatch last), fun _ member => nomatch member⟩
  | cons entry rest ih =>
      obtain ⟨q, kept⟩ := entry
      obtain ⟨later, isSome⟩ := ih fun q' mode inside => itself q' mode (List.mem_cons_of_mem _ inside)
      have here := itself q kept List.mem_cons_self
      simp only [lastMode, here]
      constructor
      · intro mode last
        rcases Option.or_eq_some_iff.mp last with inRest | ⟨_, now⟩
        · exact List.mem_cons_of_mem _ (later mode inRest)
        · split at now
          · rename_i same
            cases now
            rw [same]
            exact List.mem_cons_self
          · cases now
      · intro mode member
        rw [Option.isSome_or]
        rcases List.mem_cons.mp member with same | inside
        · cases same
          simp
        · rw [isSome mode inside]
          rfl

/-- Paths of plain names read back, in every tree. -/
theorem readsBack_of_plain (documented : Documented t)
    (plain : ∀ p mode, (p, mode) ∈ saved fs roots → ∀ n ∈ p, PlainName n) :
    ReadsBack t fs roots := by
  have itself : ∀ p q mode, (q, mode) ∈ saved fs roots →
      (Decodable q ∧ p ∈ t.reached fs (pathBytes q) ↔ p = q) := by
    intro p q mode member
    obtain ⟨⟨root, _, suffix, proper⟩, here⟩ := mem_saved.mp member
    obtain ⟨node, found, _⟩ := Option.bind_eq_some_iff.mp here
    have names := plain q mode member
    rcases q with _ | ⟨n, q⟩
    · exact absurd (List.suffix_nil.mp suffix) proper
    · rw [mem_reached_plain documented names (by rw [found]; rfl)]
      exact and_iff_right fun m inside => (names m inside).1
  constructor
  · intro p mode member
    obtain ⟨isSaved, isSome⟩ := lastMode_own (itself p)
    obtain ⟨mode', last⟩ := Option.isSome_iff_exists.mp (isSome mode member)
    have kept := (mem_saved.mp member).2
    rw [(mem_saved.mp (isSaved mode' last)).2] at kept
    rw [last, kept]
  · intro p node usual found unsaved reset' mode last
    exact absurd ((lastMode_own (itself p)).1 mode last) (unsaved mode)

end GnomeBuildMeta.Perms
