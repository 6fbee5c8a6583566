import GnomeBuildMeta.Containers.Unmarked
import GnomeBuildMeta.Initramfs.CopyInitramfsRun

/-!
# The analysis of dependencies

What a path depends on is told by the entry of the host that it leads to.  So the
analyses of all paths together report finitely many paths, however many spellings
there are.
-/

namespace GnomeBuildMeta.Initramfs

open GnomeBuildMeta.Containers GnomeBuildMeta.Control GnomeBuildMeta.Posix

/--
The analysis of a file looks at the end of its name and at its content, and not
at the way that the path takes to it.
-/
structure Env.ByLocation (env : Env) : Prop where
  same : ∀ t t' node, env.host.lstat t = some node → env.host.lstat t' = some node →
    node.isDir = false → reallinkpath env.host t = reallinkpath env.host t' →
      env.fileDependencies t = env.fileDependencies t'
  /-- It raises or returns. -/
  ends : ∀ t, env.fileDependencies t ≠ .error .outOfFuel

variable {env : Env} {t t' : Text}

theorem getDependencies_ends (byLocation : env.ByLocation) (t : Text) :
    getDependencies env t ≠ .error .outOfFuel := by
  rw [getDependencies]
  split
  · intro impossible
    cases impossible
  · split
    · intro impossible
      cases impossible
    · exact byLocation.ends t

/-- The last piece of a path to something other than a directory is a name. -/
theorem reallinkpath_of_leaf {node : Node String} (found : env.host.lstat t = some node)
    (leaf : node.isDir = false) :
    ∃ n, reallinkpath env.host t = n :: env.host.realpath (dirname t) := by
  obtain ⟨k, q, _, reaches, there⟩ := FileSystem.lstat_eq_some_iff.mp found
  obtain ⟨k', dir, reaches', isDir, location, same⟩ := reallinkpath_of_reaches reaches
  rw [env.host.realpath_of_reaches reaches', location]
  have noDir : ∀ p, env.host.isDirAt p = true → q ≠ p := by
    rintro p there' rfl
    obtain ⟨perm, dir'⟩ := (env.host.isDirAt_iff _).mp there'
    rw [there] at dir'
    cases dir'
    cases leaf
  cases last : basename t with
  | name n => exact ⟨n, rfl⟩
  | empty => exact absurd (same.trans (by rw [last]; rfl)) (noDir dir isDir)
  | cur => exact absurd (same.trans (by rw [last]; rfl)) (noDir dir isDir)
  | up => exact absurd (same.trans (by rw [last]; rfl)) (noDir dir.tail (env.host.grounded.tail isDir))

theorem isdir_of_lstat {node : Node String} (found : env.host.lstat t = some node)
    (noLink : node.isSymlink = false) : env.host.isdir t = node.isDir := by
  rw [FileSystem.isdir, FileSystem.stat_of_lstat found noLink]
  rfl

theorem getDependencies_of_dir {perm : Nat} (found : env.host.lstat t = some (.dir perm)) :
    getDependencies env t = .ok [] := by
  rw [getDependencies, found]
  exact if_pos (isdir_of_lstat found rfl)

theorem getDependencies_of_leaf {node : Node String} (found : env.host.lstat t = some node)
    (leaf : node.isDir = false) (noLink : node.isSymlink = false) :
    getDependencies env t = env.fileDependencies t := by
  rw [getDependencies, found]
  have noDir : ¬ env.host.isdir t = true := by
    rw [isdir_of_lstat found noLink, leaf]
    exact Bool.false_ne_true
  cases node with
  | symlink link => cases noLink
  | dir perm => cases leaf
  | file stat data => exact if_neg noDir
  | chardev major minor => exact if_neg noDir

/-- Two paths to one entry have the same dependencies. -/
theorem getDependencies_congr (byLocation : env.ByLocation) (found : env.host.lexists t = true)
    (found' : env.host.lexists t' = true)
    (same : reallinkpath env.host t = reallinkpath env.host t') :
    getDependencies env t = getDependencies env t' := by
  obtain ⟨node, there⟩ := Option.isSome_iff_exists.mp found
  obtain ⟨node', there'⟩ := Option.isSome_iff_exists.mp found'
  have equal : node = node' := by
    have one := get_reallinkpath there
    rw [same, get_reallinkpath there'] at one
    cases one
    rfl
  subst equal
  have leafLocation (leaf : node.isDir = false) :
      env.host.realpath (dirname t) = env.host.realpath (dirname t') := by
    obtain ⟨n, location⟩ := reallinkpath_of_leaf there leaf
    obtain ⟨n', location'⟩ := reallinkpath_of_leaf there' leaf
    rw [location, location'] at same
    exact (List.cons.inj same).2
  cases node with
  | symlink link =>
      rw [getDependencies, getDependencies, there, there']
      simp only [leafLocation rfl]
  | dir perm => rw [getDependencies_of_dir there, getDependencies_of_dir there']
  | file stat data =>
      rw [getDependencies_of_leaf there rfl rfl, getDependencies_of_leaf there' rfl rfl]
      exact byLocation.same t t' _ there there' rfl same
  | chardev major minor =>
      rw [getDependencies_of_leaf there rfl rfl, getDependencies_of_leaf there' rfl rfl]
      exact byLocation.same t t' _ there there' rfl same

/-! ## Finitely many paths -/

theorem dirname_settles (text : Text) :
    weight (dirname text) < weight text ∨ dirname (dirname text) = dirname text := by
  by_cases proper : ∃ piece ∈ text, piece ≠ .empty
  · exact Or.inl (weight_dirname_lt proper)
  · have empties : ∀ piece ∈ text, piece = .empty := fun piece member =>
      by_contra fun other => proper ⟨piece, member, other⟩
    right
    have rep : ∀ list : Text, (∀ piece ∈ list, piece = .empty) →
        dirname list = List.replicate (list.length - 1) .empty ++ [.empty] := by
      intro list all
      have front : list.dropLast = List.replicate (list.length - 1) .empty := by
        rw [List.eq_replicate_iff]
        exact ⟨List.length_dropLast, fun piece member => all piece (List.mem_of_mem_dropLast member)⟩
      rw [dirname, if_pos, front]
      rw [front]
      simp
    have again : ∀ piece ∈ dirname text, piece = .empty := by
      intro piece member
      rw [rep text empties] at member
      rcases List.mem_append.mp member with inside | last
      · exact List.eq_of_mem_replicate inside
      · exact List.mem_singleton.mp last
    rw [rep _ again, rep _ empties]
    simp

/-- The paths that an analysis at an entry of the host reports. -/
theorem exists_reports (byLocation : env.ByLocation) (p : Path String) :
    ∃ reports : List Text, ∀ t deps, env.host.lexists t = true → reallinkpath env.host t = p →
      getDependencies env t = .ok deps → ∀ d ∈ deps, d ∈ reports := by
  by_cases analysed : ∃ t deps, env.host.lexists t = true ∧ reallinkpath env.host t = p ∧
      getDependencies env t = .ok deps
  · obtain ⟨t, deps, found, location, reported⟩ := analysed
    refine ⟨deps, fun t' deps' found' location' reported' d inside => ?_⟩
    have same := getDependencies_congr byLocation found found' (location.trans location'.symm)
    cases reported.symm.trans (same.trans reported')
    exact inside
  · exact ⟨[], fun t deps found location reported =>
      absurd ⟨t, deps, found, location, reported⟩ analysed⟩

/-- All that a run can come to. -/
structure Closed (env : Env) (space : List Text) : Prop where
  directory : ∀ t ∈ space, dirname t ∈ space
  reported : ∀ t deps, env.host.lexists t = true → getDependencies env t = .ok deps →
    ∀ d ∈ deps, d ∈ space

theorem exists_closed_space (byLocation : env.ByLocation) (start : Text) :
    ∃ space, start ∈ space ∧ Closed env space := by
  have reports : ∀ places : List (Path String), ∃ list : List Text, ∀ t deps,
      env.host.lexists t = true → reallinkpath env.host t ∈ places →
        getDependencies env t = .ok deps → ∀ d ∈ deps, d ∈ list := by
    intro places
    induction places with
    | nil => exact ⟨[], fun _ _ _ impossible => (List.not_mem_nil impossible).elim⟩
    | cons p places ih =>
        obtain ⟨first, here⟩ := exists_reports byLocation p
        obtain ⟨rest, later⟩ := ih
        refine ⟨first ++ rest, fun t deps found location reported d inside => ?_⟩
        rcases List.mem_cons.mp location with same | there
        · exact List.mem_append_left _ (here t deps found same reported d inside)
        · exact List.mem_append_right _ (later t deps found there reported d inside)
  obtain ⟨list, all⟩ := reports (env.host.entries.map Prod.fst)
  obtain ⟨space, inside, closed⟩ := exists_closed_list dirname_settles (start :: list)
  refine ⟨space, inside start List.mem_cons_self, closed, fun t deps found reported d member => ?_⟩
  obtain ⟨node, there⟩ := Option.isSome_iff_exists.mp found
  refine inside d (List.mem_cons_of_mem _ (all t deps found ?_ reported d member))
  exact List.mem_map.mpr ⟨_, (env.host.mem_entries_iff _ _).mpr (get_reallinkpath there), rfl⟩

end GnomeBuildMeta.Initramfs
