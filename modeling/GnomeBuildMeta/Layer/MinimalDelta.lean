import GnomeBuildMeta.Layer.MakeLayerContent
import GnomeBuildMeta.Layer.MakeLayerOverlay

/-!
# The minimal delta

Where no path is a directory in one tree and something else in the other, the
script compares everything plainly, and its output is the smallest that is
needed over lower.
-/

namespace GnomeBuildMeta.Layer.MakeLayer

open GnomeBuildMeta.Posix

variable {α : Type} [DecidableEq α]

/-- No path is a directory in one tree and something else in the other. -/
def SameKinds (args : Args α) : Prop :=
  ∀ rel a b, args.lowerTree rel = some a → args.upperTree rel = some b → a.isDir = b.isDir

/--
The output has exactly the files and links that lower does not have in the same
way, a whiteout for what is gone from a directory of upper, and the directories
that are new or needed for these.
-/
structure MinimalDelta (args : Args α) (out : FileSystem α) : Prop where
  entry : ∀ n p node, args.outputTree out (n :: p) = some node → node = copied args (n :: p)
  /-- The same entry has the same kind, target, mode, size, times, owner and bytes. -/
  leaf : ∀ n p,
    (args.outputTree out (n :: p)).any (fun node => node.isFile || node.isSymlink) = true ↔
      ∃ node, args.upperTree (n :: p) = some node ∧ node.isDir = false ∧
        args.lowerTree (n :: p) ≠ some node
  white : ∀ n p, (args.outputTree out (n :: p)).any Node.isWhiteout = true ↔
    (args.lowerTree (n :: p)).isSome = true ∧ args.upperTree (n :: p) = none ∧
      args.host.isDirAt (p ++ args.upper) = true
  dir : ∀ n p, (args.outputTree out (n :: p)).any Node.isDir = true ↔
    (∃ perm, args.upperTree (n :: p) = some (.dir perm) ∧ args.lowerTree (n :: p) = none) ∨
      ∃ sub, n :: p <:+ sub ∧ n :: p ≠ sub ∧ (args.outputTree out sub).isSome = true
  apart : ∀ rel, (args.outputTree out rel).any Node.isWhiteout = true → args.upperTree rel = none

/-! ## Comparisons -/

section Compare

variable {args : Args α} {rel : Path α}

/-- An entry that both trees have in the same way is not copied. -/
theorem not_differs_of_same {node : Node α}
    (kind : (node.isDir || node.isFile || node.isSymlink) = true)
    (upper : args.upperTree rel = some node) (lower : args.lowerTree rel = some node) :
    differs args rel = false := by
  have lowerPlain := FileSystem.plain_of_get lower
  have upperPlain := FileSystem.plain_of_get upper
  have lowerLstat : args.host.lstat (args.lowerText rel) = some node :=
    (args.host.lstat_textOf lowerPlain).trans lower
  have upperLstat : args.host.lstat (args.upperText rel) = some node :=
    (args.host.lstat_textOf upperPlain).trans upper
  rw [differs, upper]
  cases node with
  | dir perm =>
      have both := args.host.isdir_and_not_islink_textOf lowerPlain
      rw [(args.host.isDirAt_iff _).mpr ⟨perm, lower⟩, Bool.and_eq_true, Bool.not_eq_true'] at both
      change (!args.host.isdir (args.lowerText rel) || args.host.islink (args.lowerText rel)) = false
      rw [show args.host.isdir (args.lowerText rel) = true from both.1,
        show args.host.islink (args.lowerText rel) = false from both.2]
      rfl
  | symlink target =>
      simp [linkDiffers, FileSystem.islink, FileSystem.readlink, lowerLstat, upperLstat,
        Node.isSymlink]
  | file stat data =>
      have isfile : args.host.isfile (args.lowerText rel) = true := by
        unfold FileSystem.isfile Args.lowerText
        rw [args.host.stat_textOf lowerPlain (by simp [show args.host.get _ = _ from lower]),
          show args.host.get (rel ++ args.lower) = _ from lower]
        rfl
      simp [fileDiffers, isfile, FileSystem.islink, compareFiles, lowerLstat, upperLstat, sameFile,
        Node.isSymlink]
  | chardev major minor => cases kind

end Compare

namespace SameKinds

variable {job : Job α} {rel : Path α}

/-- What lower has lies under no link of upper. -/
theorem upper_plain (sameKinds : SameKinds job.toArgs) {node : Node α}
    (lower : job.lowerTree rel = some node) : ¬ UnderLink job.upperTree rel := by
  rintro ⟨q, above, proper, target, link⟩
  obtain ⟨perm, found⟩ := (job.host.isDirAt_iff _).mp (job.host.isDirAt_above lower above proper)
  cases sameKinds q _ _ found link

theorem lower_plain (sameKinds : SameKinds job.toArgs) {node : Node α}
    (upper : job.upperTree rel = some node) : ¬ UnderLink job.lowerTree rel := by
  rintro ⟨q, above, proper, target, link⟩
  obtain ⟨perm, found⟩ := (job.host.isDirAt_iff _).mp (job.host.isDirAt_above upper above proper)
  cases sameKinds q _ _ link found

theorem whiteoutsInDirs (sameKinds : SameKinds job.toArgs) : WhiteoutsInDirs job.toArgs := by
  intro n p node lower want
  have lowerDir := job.host.parent_isDirAt lower
  obtain ⟨perm, lowerParent⟩ := (job.host.isDirAt_iff _).mp lowerDir
  have plain : job.host.Plain (p ++ job.upper) :=
    FileSystem.plain_append job.upperDir (sameKinds.upper_plain lowerParent)
  have present := (Bool.and_eq_true_iff.mp want).2
  rw [List.tail_cons, Args.upperText, job.host.lexists_textOf plain] at present
  obtain ⟨above, found⟩ := Option.isSome_iff_exists.mp present
  have isDir : above.isDir = true := (sameKinds p _ _ lowerParent found).symm
  obtain ⟨perm', rfl⟩ := Node.isDir_iff.mp isDir
  exact (job.host.isDirAt_iff _).mpr ⟨perm', found⟩

theorem differs_leaf_iff (sameKinds : SameKinds job.toArgs) {node : Node α}
    (upper : job.upperTree rel = some node) (leaf : node.isDir = false) :
    differs job.toArgs rel = true ↔ job.lowerTree rel ≠ some node := by
  have kind := job.kind_of_get (Or.inr (List.suffix_append rel job.upper)) upper
  have notUnder := sameKinds.lower_plain upper
  constructor
  · intro differ lower
    rw [not_differs_of_same kind upper lower] at differ
    cases differ
  · intro other
    by_contra same
    have same := Bool.eq_false_iff.mpr same
    cases node with
    | dir perm => cases leaf
    | symlink target => exact other (lower_link_of_not_differs job.lowerDir notUnder upper same)
    | file stat data => exact other (lower_file_of_not_differs job.lowerDir notUnder upper same)
    | chardev major minor => cases kind

theorem differs_dir_iff (sameKinds : SameKinds job.toArgs) {perm : Nat}
    (upper : job.upperTree rel = some (.dir perm)) :
    differs job.toArgs rel = true ↔ job.lowerTree rel = none := by
  have both := job.host.isdir_and_not_islink_textOf
    (FileSystem.plain_append job.lowerDir (sameKinds.lower_plain upper))
  have asked : differs job.toArgs rel = !job.host.isDirAt (rel ++ job.lower) := by
    rw [differs, upper, ← both, Bool.not_and, Bool.not_not]
    rfl
  rw [asked, Bool.not_eq_true']
  cases lower : job.lowerTree rel with
  | none => simp [FileSystem.isDirAt, show job.host.get (rel ++ job.lower) = none from lower]
  | some node =>
      obtain ⟨perm', rfl⟩ := Node.isDir_iff.mp (sameKinds rel _ _ lower upper)
      simp [FileSystem.isDirAt, show job.host.get (rel ++ job.lower) = _ from lower, Node.isDir]

end SameKinds

/-! ## The output -/

section Output

variable {job : Job α} {n : α} {p : Path α}

theorem kept_cons : Kept job (n :: p) ↔ ∃ sub, n :: p <:+ sub ∧ Changed job.toArgs sub := by
  rw [Kept, job.startTree_cons]
  simp

/-- What is no directory of upper is kept only on its own account. -/
theorem kept_leaf_iff (inDirs : WhiteoutsInDirs job.toArgs)
    (leaf : (job.upperTree (n :: p)).any Node.isDir = false) :
    Kept job (n :: p) ↔ Changed job.toArgs (n :: p) := by
  rw [kept_cons]
  constructor
  · rintro ⟨sub, suffix, changed⟩
    by_cases same : n :: p = sub
    · exact same ▸ changed
    · have dir : (job.upperTree (n :: p)).any Node.isDir = true :=
        upper_dir_above_changed job inDirs changed suffix same
      rw [leaf] at dir
      cases dir
  · exact fun changed => ⟨_, List.suffix_rfl, changed⟩

theorem changed_of_upper {rel : Path α} {node : Node α} (upper : job.upperTree rel = some node) :
    Changed job.toArgs rel ↔ differs job.toArgs rel = true := by
  refine ⟨fun changed => changed.resolve_right ?_, Or.inl⟩
  rintro ⟨_, want⟩
  have gone := (Bool.and_eq_true_iff.mp want).1
  rw [Bool.not_eq_true', Args.upperText,
    job.host.lexists_textOf (FileSystem.plain_of_get upper)] at gone
  rw [show job.host.get _ = _ from upper] at gone
  cases gone

theorem changed_of_absent (absent : job.upperTree (n :: p) = none) :
    Changed job.toArgs (n :: p) ↔
      (job.lowerTree (n :: p)).isSome = true ∧ whiteoutWanted job.toArgs (n :: p) = true := by
  refine ⟨fun changed => changed.resolve_left ?_, Or.inr⟩
  rw [differs, absent]
  exact Bool.false_ne_true

/-- The entry at a path that is kept, and nothing elsewhere. -/
theorem Content.output_cons {out : FileSystem α} (content : Content job (Kept job) out)
    {node : Node α} : job.outputTree out (n :: p) = some node ↔
      Kept job (n :: p) ∧ node = copied job.toArgs (n :: p) := by
  rw [← job.node_cons]
  constructor
  · intro found
    have kept := content.of_some found
    exact ⟨kept, Option.some.inj (found.symm.trans (content.present _ kept))⟩
  · rintro ⟨kept, rfl⟩
    exact content.present _ kept

variable {out : FileSystem α}

theorem white_iff (sameKinds : SameKinds job.toArgs) (content : Content job (Kept job) out) :
    (job.outputTree out (n :: p)).any Node.isWhiteout = true ↔
      (job.lowerTree (n :: p)).isSome = true ∧ job.upperTree (n :: p) = none ∧
        job.host.isDirAt (p ++ job.upper) = true := by
  have inDirs := sameKinds.whiteoutsInDirs
  constructor
  · intro isWhiteout
    obtain ⟨node, found, isWhiteout⟩ := (Option.any_eq_true _ _).mp isWhiteout
    obtain ⟨kept, rfl⟩ := content.output_cons.mp found
    cases upper : job.upperTree (n :: p) with
    | some node =>
        have kind := job.kind_of_get (Or.inr (List.suffix_append _ job.upper)) upper
        rw [copied, upper] at isWhiteout
        cases node with
        | dir _ | file _ _ | symlink _ => cases isWhiteout
        | chardev _ _ => cases kind
    | none =>
        obtain ⟨here, want⟩ :=
          (changed_of_absent upper).mp ((kept_leaf_iff inDirs (by simp [upper])).mp kept)
        obtain ⟨node, lower⟩ := Option.isSome_iff_exists.mp here
        exact ⟨here, rfl, inDirs n p node lower want⟩
  · rintro ⟨here, absent, dir⟩
    have changed := (changed_of_absent absent).mpr ⟨here, whiteoutWanted_of_absent absent dir⟩
    have kept := kept_cons.mpr ⟨_, List.suffix_rfl, changed⟩
    rw [content.output_cons.mpr ⟨kept, rfl⟩, copied, absent]
    rfl

theorem leaf_iff (sameKinds : SameKinds job.toArgs) (content : Content job (Kept job) out) :
    (job.outputTree out (n :: p)).any (fun node => node.isFile || node.isSymlink) = true ↔
      ∃ node, job.upperTree (n :: p) = some node ∧ node.isDir = false ∧
        job.lowerTree (n :: p) ≠ some node := by
  constructor
  · intro isLeaf
    obtain ⟨node, found, isLeaf⟩ := (Option.any_eq_true _ _).mp isLeaf
    obtain ⟨kept, rfl⟩ := content.output_cons.mp found
    cases upper : job.upperTree (n :: p) with
    | none =>
        rw [copied, upper] at isLeaf
        cases isLeaf
    | some node =>
        have leaf : node.isDir = false := by
          rw [copied, upper] at isLeaf
          cases node with
          | dir _ => cases isLeaf
          | file _ _ | symlink _ | chardev _ _ => rfl
        have changed :=
          (kept_leaf_iff sameKinds.whiteoutsInDirs (by simp [upper, leaf])).mp kept
        exact ⟨node, rfl, leaf, (sameKinds.differs_leaf_iff upper leaf).mp
          ((changed_of_upper upper).mp changed)⟩
  · rintro ⟨node, upper, leaf, other⟩
    have changed := (changed_of_upper upper).mpr ((sameKinds.differs_leaf_iff upper leaf).mpr other)
    have kept := kept_cons.mpr ⟨_, List.suffix_rfl, changed⟩
    have kind := job.kind_of_get (Or.inr (List.suffix_append _ job.upper)) upper
    rw [content.output_cons.mpr ⟨kept, rfl⟩, copied, upper]
    cases node with
    | dir _ => cases leaf
    | file _ _ | symlink _ => rfl
    | chardev _ _ => cases kind

theorem dir_iff (sameKinds : SameKinds job.toArgs) (content : Content job (Kept job) out) :
    (job.outputTree out (n :: p)).any Node.isDir = true ↔
      (∃ perm, job.upperTree (n :: p) = some (.dir perm) ∧ job.lowerTree (n :: p) = none) ∨
        ∃ sub, n :: p <:+ sub ∧ n :: p ≠ sub ∧ (job.outputTree out sub).isSome = true := by
  constructor
  · intro isDir
    obtain ⟨node, found, isDir⟩ := (Option.any_eq_true _ _).mp isDir
    obtain ⟨kept, rfl⟩ := content.output_cons.mp found
    obtain ⟨sub, suffix, changed⟩ := kept_cons.mp kept
    by_cases same : n :: p = sub
    · subst same
      rw [copied_isDir] at isDir
      obtain ⟨node, upper, upperDir⟩ := (Option.any_eq_true _ _).mp isDir
      obtain ⟨perm, rfl⟩ := Node.isDir_iff.mp upperDir
      exact Or.inl ⟨perm, upper, (sameKinds.differs_dir_iff upper).mp ((changed_of_upper upper).mp changed)⟩
    · refine Or.inr ⟨sub, suffix, same, ?_⟩
      have kept' : Kept job sub := Or.inr ⟨sub, List.suffix_rfl, changed⟩
      rw [content.present sub kept']
      rfl
  · rintro (⟨perm, upper, fresh⟩ | ⟨sub, suffix, proper, there⟩)
    · have changed := (changed_of_upper upper).mpr ((sameKinds.differs_dir_iff upper).mpr fresh)
      have kept := kept_cons.mpr ⟨_, List.suffix_rfl, changed⟩
      rw [content.output_cons.mpr ⟨kept, rfl⟩, copied, upper]
      rfl
    · obtain ⟨node, found⟩ := Option.isSome_iff_exists.mp there
      exact out.isDirAt_above found suffix proper

/-- The root of the output is no whiteout. -/
theorem white_absent (sameKinds : SameKinds job.toArgs) (content : Content job (Kept job) out)
    {rel : Path α} (isWhiteout : (job.outputTree out rel).any Node.isWhiteout = true) :
    job.upperTree rel = none := by
  cases rel with
  | cons n p => exact ((white_iff sameKinds content).mp isWhiteout).2.1
  | nil =>
      obtain ⟨node, found, isWhiteout⟩ := (Option.any_eq_true _ _).mp isWhiteout
      have top := content.present [] (content.of_some found)
      obtain ⟨perm, dir⟩ :=
        job.node_dir (show job.host.isDirAt ([] ++ job.upper) = true from job.upperDir)
      rw [dir] at top
      cases found.symm.trans top
      cases isWhiteout

end Output

/-- Where the kinds agree, a run completes with the minimal delta. -/
theorem main_minimalDelta (job : Job α) (sameKinds : SameKinds job.toArgs) :
    ∃ out, main job.toArgs job.start = .ok out ∧ MinimalDelta job.toArgs out := by
  obtain ⟨out, run, content⟩ := (main_content job sameKinds.whiteoutsInDirs).1
  exact ⟨out, run, {
    entry := fun _ _ _ found => (content.output_cons.mp found).2
    leaf := fun _ _ => leaf_iff sameKinds content
    white := fun _ _ => white_iff sameKinds content
    dir := fun _ _ => dir_iff sameKinds content
    apart := fun _ => white_absent sameKinds content }⟩

/-! ## A small update -/

/-- One file changed, one gone, one link new. -/
def smallHost : FileSystem String where
  entries :=
    [([], .dir 0o755),
      (["l"], .dir 0o755),
      (["d", "l"], .dir 0o755),
      (["f", "d", "l"], .file ⟨0o644, 1, 0, 0⟩ [1]),
      (["g", "l"], .file ⟨0o644, 1, 0, 0⟩ [1]),
      (["u"], .dir 0o755),
      (["d", "u"], .dir 0o755),
      (["f", "d", "u"], .file ⟨0o644, 1, 0, 0⟩ [2]),
      (["h", "u"], .symlink [.name "d"])]
  nodup := by simp
  root := rfl
  parents := by simp [List.lookup_cons, List.lookup_nil, Node.isDir]

def smallJob : Job String where
  host := smallHost
  lower := ["l"]
  upper := ["u"]
  output := "o"
  uid := 0
  gid := 0
  start := FileSystem.bare 0o755
  lowerDir := rfl
  upperDir := rfl
  kinds := by simp [smallHost, Node.isDir, Node.isFile, Node.isSymlink]
  fresh := fresh_bare

theorem small_minimalDelta :
    ∃ out, main smallJob.toArgs smallJob.start = .ok out ∧ MinimalDelta smallJob.toArgs out := by
  refine main_minimalDelta smallJob fun rel a b lower upper => ?_
  have inLower := (smallHost.mem_entries_iff _ _).mpr lower
  have inUpper := (smallHost.mem_entries_iff _ _).mpr upper
  rcases rel with _ | ⟨n, _ | ⟨m, _ | ⟨k, rel⟩⟩⟩ <;>
    simp [smallHost, smallJob] at inLower inUpper <;> grind [Node.isDir]

end GnomeBuildMeta.Layer.MakeLayer
