import GnomeBuildMeta.Layer.MakeLayerContent

/-!
# When every creation succeeds

Below a directory of lower that upper has replaced by a file or a link, the
second walk still wants whiteouts.  They have no directory to lie in, and a run
that comes to one either stops or creates something through a link.
-/

namespace GnomeBuildMeta.Layer.MakeLayer

open GnomeBuildMeta.Posix GnomeBuildMeta.Control

variable {α : Type} [DecidableEq α]

theorem copy2_keepsKinds {args : Args α} {out out' : FileSystem α} {rel : Path α}
    (done : copy2 args out rel = .ok out') : out.KeepsKinds out' := by
  simp only [copy2] at done
  generalize (if out.isdir (args.outputText rel) = true then _ else _) = destination at done
  split at done
  · exact FileSystem.writeFile_keepsKinds done
  · exact FileSystem.create_keepsKinds done
  · cases done
  · cases done
  · cases done

theorem Step.run_keepsKinds {args : Args α} {out out' : FileSystem α} {t : Step α}
    (done : t.run args out = .ok out') : out.KeepsKinds out' := by
  unfold Step.run at done
  split at done
  · obtain ⟨kind, rel⟩ := t
    cases kind with
    | dir => exact copyParentDirs_keepsKinds done
    | link =>
        obtain ⟨parents, above, rest⟩ := bind_ok_iff.mp done
        split at rest
        · exact (copyParentDirs_keepsKinds above).trans (FileSystem.create_keepsKinds rest)
        · cases rest
    | file =>
        obtain ⟨parents, above, rest⟩ := bind_ok_iff.mp done
        exact (copyParentDirs_keepsKinds above).trans (copy2_keepsKinds rest)
    | white =>
        obtain ⟨parents, above, rest⟩ := bind_ok_iff.mp done
        exact (copyParentDirs_keepsKinds above).trans (FileSystem.create_keepsKinds rest)
  · cases done
    exact FileSystem.KeepsKinds.refl out

/-! ## What replaces a directory -/

/-- A whiteout with no directory of upper around it has a file or a link of upper above it. -/
theorem exists_leaf_above (job : Job α) {n : α} {p : Path α}
    (want : whiteoutWanted job.toArgs (n :: p) = true)
    (noDir : job.host.isDirAt (p ++ job.upper) = false) :
    ∃ q node, q <:+ p ∧ job.upperTree q = some node ∧ node.isDir = false := by
  by_cases under : UnderLink job.upperTree p
  · obtain ⟨q, above, _, target, link⟩ := under
    exact ⟨q, _, above, link, rfl⟩
  · have plain : job.host.Plain (p ++ job.upper) := FileSystem.plain_append job.upperDir under
    have present := (Bool.and_eq_true_iff.mp want).2
    rw [List.tail_cons, Args.upperText, job.host.lexists_textOf plain] at present
    obtain ⟨node, found⟩ := Option.isSome_iff_exists.mp present
    rw [FileSystem.isDirAt, found] at noDir
    exact ⟨p, node, List.suffix_rfl, found, noDir⟩

/-- After the walk over upper the output has that file or link, and keeps it. -/
theorem leaf_in_output (job : Job α) {base : FileSystem α} (sound : Sound job.toArgs base)
    (covers : Covers job.toArgs base) {q : Path α} {node : Node α} {perm : Nat}
    (lower : job.lowerTree q = some (.dir perm)) (upper : job.upperTree q = some node)
    (leaf : node.isDir = false) {out : FileSystem α} (keeps : base.KeepsKinds out) :
    out.isDirAt (q ++ [job.output]) = false := by
  have differ := differs_of_lower_dir lower upper leaf
  cases q with
  | nil =>
      obtain ⟨perm', root⟩ := (job.host.isDirAt_iff _).mp job.upperDir
      cases upper.symm.trans root
      cases leaf
  | cons m r =>
      have here := covers m r differ
      obtain ⟨made, found⟩ := Option.isSome_iff_exists.mp here
      have faithful := sound _ _ found
      have other : made.isDir = false := by
        cases made with
        | dir perm' =>
            obtain ⟨perm'', dir⟩ := (job.host.isDirAt_iff _).mp faithful.1
            cases upper.symm.trans dir
            cases leaf
        | file _ _ | symlink _ | chardev _ _ => rfl
      have kinds := keeps (m :: r ++ [job.output]) here
      rw [show base.get (m :: r ++ [job.output]) = some made from found, Option.map_some,
        Option.map_eq_some_iff] at kinds
      obtain ⟨kept, found', same⟩ := kinds
      rw [FileSystem.isDirAt, found', Option.any_some, same, other]

/--
A run completes and every directory, link, file and whiteout that it creates
finds a directory and a free name, exactly if every path that is to be whited
out lies in a directory of upper.
-/
theorem main_safe_iff (job : Job α) :
    ((∃ out, main job.toArgs job.start = .ok out) ∧
      ∀ c, Creates job.toArgs job.start c → c.Safe job.toArgs) ↔ WhiteoutsInDirs job.toArgs := by
  constructor
  · rintro ⟨⟨out, run⟩, safe⟩ n p node lower want
    by_contra noDir
    have noDir := Bool.eq_false_iff.mpr noDir
    obtain ⟨base, upperRun, lowerRun⟩ := bind_ok_iff.mp run
    obtain ⟨sound, covers⟩ := upperWalk_covers job upperRun
    rw [upperWalk_eq] at upperRun
    rw [lowerWalk_eq] at lowerRun
    have inside : (⟨.white, n :: p⟩ : Step α) ∈ lowerSteps job.toArgs :=
      (mem_lowerSteps_iff job).mpr ⟨rfl, n, p, node, rfl, lower⟩
    obtain ⟨done, middle, after, before, one, during⟩ := foldlM_during lowerRun inside
    -- the whiteout is made in a state that still has what the first walk left
    rw [Step.run, if_pos (show Step.wanted job.toArgs ⟨.white, n :: p⟩ = true from want)] at one
    obtain ⟨parents, above, _⟩ := bind_ok_iff.mp one
    have created : Creates job.toArgs job.start ⟨parents, n :: p⟩ :=
      (during _ ⟨want, Or.inr ⟨parents, above, rfl⟩⟩).append upperRun
    have keeps : base.KeepsKinds parents :=
      (foldlM_invariant (I := base.KeepsKinds)
        (fun _ _ _ _ keeps step => keeps.trans (Step.run_keepsKinds step))
        (FileSystem.KeepsKinds.refl base) before).trans (copyParentDirs_keepsKinds above)
    obtain ⟨q, leafNode, suffix, upper, leaf⟩ := exists_leaf_above job want noDir
    have lowerDir : job.host.isDirAt (q ++ job.lower) = true :=
      job.host.isDirAt_above lower (suffix.trans (List.suffix_cons n p)) (by
        rintro rfl
        exact absurd suffix.length_le (by simp))
    obtain ⟨perm, lowerDir⟩ := (job.host.isDirAt_iff _).mp lowerDir
    have blocked := leaf_in_output job sound covers lowerDir upper leaf keeps
    have parent : parents.isDirAt (p ++ [job.output]) = true := (safe _ created).1
    by_cases same : q = p
    · rw [same, parent] at blocked
      cases blocked
    · obtain ⟨perm', found⟩ := (parents.isDirAt_iff _).mp parent
      rw [parents.isDirAt_above found suffix same] at blocked
      cases blocked
  · intro inDirs
    obtain ⟨⟨out, run, _⟩, safe⟩ := main_content job inDirs
    exact ⟨⟨out, run⟩, safe⟩

/-! ## A directory replaced by a file -/

def replacedHost : FileSystem String where
  entries :=
    [([], .dir 0o755),
      (["l"], .dir 0o755),
      (["d", "l"], .dir 0o755),
      (["x", "d", "l"], .file ⟨0o644, 1, 0, 0⟩ [1]),
      (["u"], .dir 0o755),
      (["d", "u"], .file ⟨0o644, 1, 0, 0⟩ [2])]
  nodup := by simp
  root := rfl
  parents := by simp [List.lookup_cons, List.lookup_nil, Node.isDir]

def replacedJob : Job String where
  host := replacedHost
  lower := ["l"]
  upper := ["u"]
  output := "o"
  uid := 0
  gid := 0
  start := FileSystem.bare 0o755
  lowerDir := rfl
  upperDir := rfl
  kinds := by simp [replacedHost, Node.isDir, Node.isFile, Node.isSymlink]
  fresh := fresh_bare

/-- The second walk wants to make the directory that the file has replaced. -/
theorem replaced_aborts : ∃ job : Job String, main job.toArgs job.start = .error .eexist ∧
    ¬ ((∃ out, main job.toArgs job.start = .ok out) ∧
      ∀ c, Creates job.toArgs job.start c → c.Safe job.toArgs) := by
  have aborts : main replacedJob.toArgs replacedJob.start = .error .eexist := rfl
  refine ⟨replacedJob, aborts, ?_⟩
  rintro ⟨⟨out, run⟩, _⟩
  rw [aborts] at run
  cases run

end GnomeBuildMeta.Layer.MakeLayer
