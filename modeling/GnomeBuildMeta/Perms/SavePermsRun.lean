import GnomeBuildMeta.Perms.RoundTrip
import GnomeBuildMeta.Posix.Permissions

/-!
# Saving and restoring modes

Applied to the tree as BuildStream leaves it, the lines restore the modes below
the roots exactly if every path that has a line is last reached, when paths are
read as patterns, by one of its own mode, and nothing else by one of another.
-/

namespace GnomeBuildMeta.Perms

open GnomeBuildMeta.Posix

variable {t : Tmpfiles} {fs fs' : FileSystem FileName} {roots : List (Path FileName)}

/-! ## The tree that BuildStream leaves -/

def resetNode : Node FileName → Node FileName
  | .dir _ => .dir 0o755
  | .file stat data =>
      -- only whether the owner may execute the file is kept
      .file { stat with perm := if stat.perm / 0o100 % 2 = 1 then 0o755 else 0o644 } data
  | node => node

def reset (fs : FileSystem FileName) : FileSystem FileName :=
  fs.mapNodes (fun _ node => resetNode node) fun _ node => by cases node <;> rfl

/-- The twelve permission bits of a directory or regular file. -/
def modeOf : Node FileName → Option Nat
  | .dir perm => some (imode perm)
  | .file stat _ => some (imode stat.perm)
  | _ => none

/-- Strictly below a root. -/
def Below (roots : List (Path FileName)) (p : Path FileName) : Prop :=
  ∃ root ∈ roots, root <:+ p ∧ root ≠ p

/-- What the lines have made of the tree. -/
def restored (t : Tmpfiles) (fs : FileSystem FileName) (roots : List (Path FileName)) :
    FileSystem FileName :=
  t.create (retrieve fs roots) (reset fs)

/-- The modes below the roots are restored, and nothing else is changed. -/
structure Restores (t : Tmpfiles) (fs : FileSystem FileName) (roots : List (Path FileName)) :
    Prop where
  below : ∀ p, Below roots p → ((restored t fs roots).get p).bind modeOf = (fs.get p).bind modeOf
  others : ∀ p, ¬ Below roots p → (restored t fs roots).get p = (reset fs).get p

/-! ## The paths that have a line -/

/-- The mode that a line keeps. -/
def savedMode : Node FileName → Option Nat
  | .file stat _ =>
      if imode stat.perm ≠ 0o755 ∧ imode stat.perm ≠ 0o644 then some (imode stat.perm) else none
  | .dir perm => if imode perm ≠ 0o755 then some (imode perm) else none
  | _ => none

/-- The paths that have a line and their modes, in the order of the lines. -/
def saved (fs : FileSystem FileName) (roots : List (Path FileName)) :
    List (Path FileName × Nat) :=
  roots.flatMap fun root =>
    (visited fs root).filterMap fun p => ((fs.get p).bind savedMode).map fun mode => (p, mode)

/-- The mode of the last of these paths that reaches a location when it is read as a pattern. -/
def lastMode (t : Tmpfiles) (fs : FileSystem FileName) (p : Path FileName) :
    List (Path FileName × Nat) → Option Nat
  | [] => none
  | (q, mode) :: rest =>
      (lastMode t fs p rest).or
        (if Decodable q ∧ p ∈ t.reached fs (pathBytes q) then some mode else none)

/-- Read as patterns, the paths that have a line reach each other only if their modes agree. -/
structure ReadsBack (t : Tmpfiles) (fs : FileSystem FileName) (roots : List (Path FileName)) :
    Prop where
  own : ∀ p mode, (p, mode) ∈ saved fs roots → lastMode t fs p (saved fs roots) = some mode
  others : ∀ p node usual, fs.get p = some node → (∀ mode, (p, mode) ∉ saved fs roots) →
    modeOf (resetNode node) = some usual →
    ∀ mode, lastMode t fs p (saved fs roots) = some mode → mode = usual

theorem retrieveOne_eq (fs : FileSystem FileName) (p : Path FileName) :
    retrieveOne fs p = ((fs.get p).bind savedMode).toList.map (zLine p) := by
  cases found : fs.get p with
  | none => simp [retrieveOne, found]
  | some node =>
      cases node with
      | dir perm =>
          simp only [retrieveOne, found, Option.bind_some, savedMode]
          split <;> rfl
      | file stat data =>
          simp only [retrieveOne, found, Option.bind_some, savedMode]
          split <;> rfl
      | symlink _ | chardev _ _ => simp [retrieveOne, found, savedMode]

theorem retrieve_eq (fs : FileSystem FileName) (roots : List (Path FileName)) :
    retrieve fs roots = (saved fs roots).map fun entry => zLine entry.1 entry.2 := by
  rw [retrieve, saved, List.map_flatMap]
  congr 1
  funext root
  induction visited fs root with
  | nil => rfl
  | cons p rest ih =>
      rw [List.flatMap_cons, ih, retrieveOne_eq, List.filterMap_cons]
      cases (fs.get p).bind savedMode <;> rfl

/-- The walk below a root sees everything there that is no link. -/
theorem mem_visited {root p : Path FileName} :
    p ∈ visited fs root ↔
      root <:+ p ∧ root ≠ p ∧ ∃ node, fs.get p = some node ∧ node.isSymlink = false := by
  have linked : ∀ {n : FileName} {q : Path FileName}, fs.isDirAt q = true →
      fs.islink (textOf (n :: q)) = (fs.get (n :: q)).any Node.isSymlink :=
    fun dir => fs.islink_textOf (FileSystem.plain_cons_of_isDirAt dir)
  constructor
  · intro member
    rw [visited] at member
    split at member
    · rename_i top
      obtain ⟨v, walked, inside⟩ := List.mem_flatMap.mp member
      obtain ⟨dir, listing⟩ := fs.of_mem_osWalk top walked
      obtain ⟨named, noLink⟩ := List.mem_filter.mp inside
      obtain ⟨n, listed, rfl⟩ := List.mem_map.mp named
      have child : n ∈ fs.listdir (v.rel ++ root) := by
        rw [listing, List.mem_append] at listed
        rcases listed with inDirs | inFiles
        · exact (List.mem_filter.mp inDirs).1
        · exact (List.mem_filter.mp inFiles).1
      obtain ⟨node, found⟩ := (fs.mem_listdir_iff _ _).mp child
      rw [linked dir, found] at noLink
      refine ⟨⟨n :: v.rel, rfl⟩, fun same => ?_, node, found, by simpa using noLink⟩
      have lengths := congrArg List.length same
      simp only [List.length_cons, List.length_append] at lengths
      omega
    · cases member
  · rintro ⟨⟨stem, rfl⟩, proper, node, found, noLink⟩
    rcases stem with _ | ⟨n, rel⟩
    · exact absurd rfl proper
    · have dir : fs.isDirAt (rel ++ root) = true := fs.parent_isDirAt found
      have top : fs.isDirAt root = true :=
        fs.ancestor_isDirAt found ⟨n :: rel, rfl⟩ proper
      have child : n ∈ fs.listdir (rel ++ root) := (fs.mem_listdir_iff _ _).mpr ⟨node, found⟩
      rw [visited, if_pos top]
      refine List.mem_flatMap.mpr ⟨fs.visit root rel, fs.mem_osWalk dir, ?_⟩
      refine List.mem_filter.mpr ⟨List.mem_map.mpr ⟨n, ?_, rfl⟩, ?_⟩
      · by_cases isdir : fs.isdir (textOf (n :: (rel ++ root))) = true
        · exact List.mem_append_left _ (List.mem_filter.mpr ⟨child, isdir⟩)
        · exact List.mem_append_right _ (List.mem_filter.mpr ⟨child, by simpa using isdir⟩)
      · change (!fs.islink (textOf (n :: (rel ++ root)))) = true
        rw [linked dir, show fs.get (n :: (rel ++ root)) = some node from found]
        simp [noLink]

/-- The paths that have a line lie below a root and have a mode to keep. -/
theorem mem_saved {p : Path FileName} {mode : Nat} :
    (p, mode) ∈ saved fs roots ↔ Below roots p ∧ (fs.get p).bind savedMode = some mode := by
  constructor
  · intro member
    obtain ⟨root, among, inside⟩ := List.mem_flatMap.mp member
    obtain ⟨q, seen, same⟩ := List.mem_filterMap.mp inside
    obtain ⟨kept, here, equal⟩ := Option.map_eq_some_iff.mp same
    cases equal
    obtain ⟨suffix, proper, _⟩ := mem_visited.mp seen
    exact ⟨⟨root, among, suffix, proper⟩, here⟩
  · rintro ⟨⟨root, among, suffix, proper⟩, here⟩
    obtain ⟨node, found, kept⟩ := Option.bind_eq_some_iff.mp here
    have noLink : node.isSymlink = false := by
      cases node with
      | symlink target => cases kept
      | dir _ | file _ _ | chardev _ _ => rfl
    refine List.mem_flatMap.mpr ⟨root, among, List.mem_filterMap.mpr ⟨p, ?_, ?_⟩⟩
    · exact mem_visited.mpr ⟨suffix, proper, node, found, noLink⟩
    · rw [here]
      rfl

theorem imode_lt (perm : Nat) : imode perm < 0o10000 := Nat.mod_lt _ (by decide)

theorem savedMode_lt {node : Node FileName} {mode : Nat} (kept : savedMode node = some mode) :
    mode < 0o10000 := by
  cases node with
  | dir perm =>
      rw [savedMode] at kept
      split at kept
      · cases kept
        exact imode_lt perm
      · cases kept
  | file stat data =>
      rw [savedMode] at kept
      split at kept
      · cases kept
        exact imode_lt stat.perm
      · cases kept
  | symlink _ | chardev _ _ => cases kept

/-! ## What the lines do -/

/-- Which locations a path stands for does not depend on the modes. -/
theorem mem_glob_sameShape (same : fs.SameShape fs') {cwd p : Path FileName}
    {pieces : PathText Bytes} : p ∈ t.glob fs cwd pieces ↔ p ∈ t.glob fs' cwd pieces := by
  induction pieces generalizing cwd with
  | nil => rfl
  | cons piece rest ih =>
      cases piece with
      | empty | cur | up => exact ih
      | name pattern =>
          simp only [Tmpfiles.glob, List.mem_flatMap, List.mem_filter, same.mem_listdir]
          refine exists_congr fun n => and_congr_right fun _ => ?_
          split
          · rfl
          · rw [same.locate]
            split
            · exact ih
            · rfl

theorem mem_reached_sameShape (same : fs.SameShape fs') {path : Bytes} {p : Path FileName} :
    p ∈ t.reached fs path ↔ p ∈ t.reached fs' path := by
  rw [Tmpfiles.reached, Tmpfiles.reached]
  split
  · rfl
  · split
    · simp only [List.mem_flatMap]
      exact exists_congr fun pattern => and_congr_right fun _ => mem_glob_sameShape same
    · rfl

/-- One line sets the mode wherever its path leads, if it can be read. -/
theorem get_applyLine (same : fs.SameShape fs') {q : Path FileName} {mode : Nat}
    (bits : mode < 0o10000) :
    fs.SameShape (t.applyLine fs' (zLine q mode)) ∧ ∀ p,
      (t.applyLine fs' (zLine q mode)).get p =
        if Decodable q ∧ p ∈ t.reached fs (pathBytes q) then (fs'.get p).map (Node.setPerm mode)
        else fs'.get p := by
  rw [Tmpfiles.applyLine, readLine_zLine q bits]
  by_cases decodable : Decodable q
  · simp only [decodable, ↓reduceIte, true_and]
    refine ⟨same.trans (fs'.sameShape_chmodAll _ _), fun p => ?_⟩
    rw [FileSystem.get_chmodAll]
    simp only [mem_reached_sameShape same]
  · simp only [decodable, ↓reduceIte, false_and]
    exact ⟨same, fun _ => trivial⟩

/-- All lines together set the mode that the last of them sets. -/
theorem get_create {entries : List (Path FileName × Nat)}
    (bits : ∀ entry ∈ entries, entry.2 < 0o10000) (same : fs.SameShape fs') (p : Path FileName) :
    (t.create (entries.map fun entry => zLine entry.1 entry.2) fs').get p =
      match lastMode t fs p entries with
      | some mode => (fs'.get p).map (Node.setPerm mode)
      | none => fs'.get p := by
  induction entries generalizing fs' with
  | nil => rfl
  | cons entry rest ih =>
      obtain ⟨q, mode⟩ := entry
      obtain ⟨same', here⟩ := get_applyLine (t := t) same (bits _ List.mem_cons_self)
      have later := ih (fun other inside => bits other (List.mem_cons_of_mem _ inside)) same'
      rw [List.map_cons, Tmpfiles.create, List.foldl_cons]
      rw [Tmpfiles.create] at later
      rw [later, here p, lastMode]
      cases lastMode t fs p rest with
      | some last =>
          simp only [Option.some_or]
          split
          · cases fs'.get p <;> simp
          · rfl
      | none =>
          simp only [Option.none_or]
          split <;> rfl

theorem sameShape_reset (fs : FileSystem FileName) : fs.SameShape (reset fs) := by
  funext p
  rw [Tree.shape, Tree.shape, reset, FileSystem.get_mapNodes]
  cases fs.get p with
  | none => rfl
  | some node => cases node <;> rfl

/-- The mode of a restored entry is that of the last line that reaches it. -/
theorem get_restored (p : Path FileName) :
    (restored t fs roots).get p =
      match lastMode t fs p (saved fs roots) with
      | some mode => (fs.get p).map (Node.setPerm mode ∘ resetNode)
      | none => (fs.get p).map resetNode := by
  have bits : ∀ entry ∈ saved fs roots, entry.2 < 0o10000 := by
    rintro ⟨q, mode⟩ member
    obtain ⟨_, here⟩ := mem_saved.mp member
    obtain ⟨node, _, kept⟩ := Option.bind_eq_some_iff.mp here
    exact savedMode_lt kept
  rw [restored, retrieve_eq, get_create bits (sameShape_reset fs), reset, FileSystem.get_mapNodes]
  split
  · rw [Option.map_map]
  · rfl

theorem lastMode_mem {p : Path FileName} {entries : List (Path FileName × Nat)} {mode : Nat}
    (last : lastMode t fs p entries = some mode) : ∃ q, (q, mode) ∈ entries := by
  induction entries with
  | nil => cases last
  | cons entry rest ih =>
      obtain ⟨q, kept⟩ := entry
      rw [lastMode] at last
      rcases Option.or_eq_some_iff.mp last with later | ⟨_, here⟩
      · obtain ⟨q', inside⟩ := ih later
        exact ⟨q', List.mem_cons_of_mem _ inside⟩
      · split at here
        · cases here
          exact ⟨q, List.mem_cons_self⟩
        · cases here

/-! ## Modes -/

theorem imode_of_last {p : Path FileName} {mode : Nat}
    (last : lastMode t fs p (saved fs roots) = some mode) : imode mode = mode := by
  obtain ⟨q, member⟩ := lastMode_mem last
  obtain ⟨_, here⟩ := mem_saved.mp member
  obtain ⟨node, _, kept⟩ := Option.bind_eq_some_iff.mp here
  exact Nat.mod_eq_of_lt (savedMode_lt kept)

theorem modeOf_setPerm (mode : Nat) (node : Node FileName) :
    modeOf ((resetNode node).setPerm mode) = (modeOf node).map fun _ => imode mode := by
  cases node <;> rfl

/-- A mode that has a line is not the one that BuildStream leaves. -/
theorem modeOf_of_saved {node : Node FileName} {mode : Nat} (kept : savedMode node = some mode) :
    modeOf node = some mode ∧ modeOf (resetNode node) ≠ some mode := by
  cases node with
  | dir perm =>
      rw [savedMode] at kept
      split at kept
      · rename_i unusual
        cases kept
        exact ⟨rfl, fun same => unusual (Option.some.inj same).symm⟩
      · cases kept
  | file stat data =>
      rw [savedMode] at kept
      split at kept
      · rename_i unusual
        cases kept
        refine ⟨rfl, fun same => ?_⟩
        have equal := Option.some.inj same
        split at equal
        · exact unusual.1 equal.symm
        · exact unusual.2 equal.symm
      · cases kept
  | symlink _ | chardev _ _ => cases kept

/-- A mode that has no line is the one that BuildStream leaves. -/
theorem modeOf_of_not_saved {node : Node FileName} (usual : savedMode node = none) :
    modeOf (resetNode node) = modeOf node := by
  cases node with
  | dir perm =>
      rw [savedMode] at usual
      split at usual
      · cases usual
      · rename_i same
        exact congrArg some (not_not.mp same).symm
  | file stat data =>
      rw [savedMode] at usual
      split at usual
      · cases usual
      · rename_i same
        refine congrArg some ?_
        rw [imode] at same ⊢
        split
        · rename_i executable
          change 0o755 % 0o10000 = stat.perm % 0o10000
          by_contra differs
          have other : stat.perm % 0o10000 = 0o644 := by
            by_contra differs'
            exact same ⟨fun equal => differs equal.symm, differs'⟩
          omega
        · rename_i notExecutable
          change 0o644 % 0o10000 = stat.perm % 0o10000
          by_contra differs
          have other : stat.perm % 0o10000 = 0o755 := by
            by_contra differs'
            exact same ⟨differs', fun equal => differs equal.symm⟩
          omega
  | symlink _ | chardev _ _ => rfl

theorem setPerm_usual {node : Node FileName} {mode : Nat}
    (usual : ∀ mode', modeOf (resetNode node) = some mode' → mode = mode') :
    (resetNode node).setPerm mode = resetNode node := by
  cases node with
  | dir perm =>
      rw [usual 0o755 rfl]
      rfl
  | file stat data =>
      rw [usual _ rfl]
      simp only [resetNode, Node.setPerm]
      split <;> rfl
  | symlink _ | chardev _ _ => rfl

/-! ## The round trip -/

/-- What has no line below a root has the mode that BuildStream leaves. -/
theorem savedMode_eq_none_iff {fs : FileSystem FileName} {roots : List (Path FileName)}
    {p : Path FileName} {node : Node FileName} (below : Below roots p) (found : fs.get p = some node) :
    savedMode node = none ↔ ∀ mode, (p, mode) ∉ saved fs roots := by
  have listed : ∀ mode, (p, mode) ∈ saved fs roots ↔ savedMode node = some mode := by
    intro mode
    rw [mem_saved, found, Option.bind_some]
    exact and_iff_right below
  rw [Option.eq_none_iff_forall_not_mem]
  exact forall_congr' fun mode => not_congr (listed mode).symm

/-- A line that reaches an entry without a line of its own sets the mode that is there. -/
theorem ReadsBack.unchanged {t : Tmpfiles} {fs : FileSystem FileName} {roots : List (Path FileName)}
    (readsBack : ReadsBack t fs roots) {p : Path FileName} {node : Node FileName} {mode : Nat}
    (found : fs.get p = some node) (unsaved : ∀ mode, (p, mode) ∉ saved fs roots)
    (last : lastMode t fs p (saved fs roots) = some mode) :
    (resetNode node).setPerm mode = resetNode node :=
  setPerm_usual fun mode' reset' => readsBack.others p node mode' found unsaved reset' mode last

theorem Restores.readsBack {t : Tmpfiles} {fs : FileSystem FileName} {roots : List (Path FileName)}
    (restores : Restores t fs roots) : ReadsBack t fs roots := by
  constructor
  · intro p mode member
    obtain ⟨below, here⟩ := mem_saved.mp member
    obtain ⟨node, found, kept⟩ := Option.bind_eq_some_iff.mp here
    obtain ⟨own, notUsual⟩ := modeOf_of_saved kept
    have ends := restores.below p below
    rw [get_restored, found, Option.bind_some, own] at ends
    cases last : lastMode t fs p (saved fs roots) with
    | none =>
        rw [last] at ends
        exact absurd ends notUsual
    | some mode' =>
        rw [last] at ends
        simp only [Option.map_some, Option.bind_some, Function.comp_apply, modeOf_setPerm, own,
          imode_of_last last] at ends
        exact ends
  · intro p node usual found unsaved reset' mode last
    have ends : modeOf ((resetNode node).setPerm mode) = some usual := by
      by_cases below : Below roots p
      · have kept := (savedMode_eq_none_iff below found).mpr unsaved
        have ends := restores.below p below
        rw [get_restored, last, found] at ends
        exact ends.trans ((modeOf_of_not_saved kept).symm.trans reset')
      · have ends := restores.others p below
        rw [get_restored, last, reset, FileSystem.get_mapNodes, found] at ends
        rw [← reset']
        exact congrArg modeOf (Option.some.inj ends)
    rw [modeOf_setPerm] at ends
    cases own : modeOf node with
    | none => simp [own] at ends
    | some old =>
        rw [own, Option.map_some, imode_of_last last] at ends
        exact Option.some.inj ends

theorem ReadsBack.restores {t : Tmpfiles} {fs : FileSystem FileName} {roots : List (Path FileName)}
    (readsBack : ReadsBack t fs roots) : Restores t fs roots := by
  constructor
  · intro p below
    rw [get_restored]
    cases found : fs.get p with
    | none =>
        cases lastMode t fs p (saved fs roots) <;> rfl
    | some node =>
        cases kept : savedMode node with
        | some mode =>
            have member := mem_saved.mpr ⟨below, by rw [found, Option.bind_some, kept]⟩
            rw [readsBack.own p mode member]
            change modeOf ((resetNode node).setPerm mode) = modeOf node
            rw [modeOf_setPerm, (modeOf_of_saved kept).1, Option.map_some, imode]
            exact congrArg some (Nat.mod_eq_of_lt (savedMode_lt kept))
        | none =>
            have unsaved := (savedMode_eq_none_iff below found).mp kept
            cases last : lastMode t fs p (saved fs roots) with
            | none => exact modeOf_of_not_saved kept
            | some mode =>
                change modeOf ((resetNode node).setPerm mode) = modeOf node
                rw [readsBack.unchanged found unsaved last]
                exact modeOf_of_not_saved kept
  · intro p outside
    rw [get_restored, reset, FileSystem.get_mapNodes]
    cases last : lastMode t fs p (saved fs roots) with
    | none => rfl
    | some mode =>
        cases found : fs.get p with
        | none => rfl
        | some node =>
            have unsaved : ∀ mode, (p, mode) ∉ saved fs roots :=
              fun mode member => outside (mem_saved.mp member).1
            change some ((resetNode node).setPerm mode) = some (resetNode node)
            rw [readsBack.unchanged found unsaved last]

/-- Without specifiers, and with patterns that have no wildcards. -/
def literal : Tmpfiles := ⟨fun _ => none, fun pattern => [pattern], fun pattern name => pattern = name⟩

end GnomeBuildMeta.Perms
