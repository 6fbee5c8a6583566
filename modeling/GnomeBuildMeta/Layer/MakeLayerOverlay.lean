import GnomeBuildMeta.Layer.MakeLayerRun
import GnomeBuildMeta.Posix.Overlay

/-!
# The layer laid over lower

A completed run is judged by the overlay of its output over lower.  Entries of
upper below a path that is a link in lower are compared through that link,
although the overlay never follows it; the overlay gives upper back as long as
each such comparison finds a difference and no whiteout is made through a link.
-/

namespace GnomeBuildMeta.Layer.MakeLayer

open GnomeBuildMeta.Posix

variable {α : Type} [DecidableEq α]

/--
The same kind, the same target of a link, the same bytes and permission bits of
a regular file.
-/
def SameNode : Option (Node α) → Option (Node α) → Prop
  | none, none => True
  | some (.dir _), some (.dir _) => True
  | some (.file a bytes), some (.file b bytes') => a.perm = b.perm ∧ bytes = bytes'
  | some (.symlink target), some (.symlink target') => target = target'
  | _, _ => False

omit [DecidableEq α] in
/-- Where one of two matching entries is a directory, so is the other. -/
theorem SameNode.isDir {one two : Option (Node α)} (same : SameNode one two)
    (dir : one.any Node.isDir = true) : two.any Node.isDir = true := by
  cases one with
  | none => cases dir
  | some node =>
      cases node with
      | dir perm =>
          cases two with
          | none => cases same
          | some other =>
              cases other with
              | dir _ => rfl
              | file _ _ | symlink _ | chardev _ _ => cases same
      | file _ _ | symlink _ | chardev _ _ => cases dir

/-- The output over lower shows upper. -/
def RestoresUpper (args : Args α) (out : FileSystem α) : Prop :=
  ∀ rel, SameNode (Overlay.lookup [args.outputTree out, args.lowerTree] rel) (args.upperTree rel)

/--
Every path of upper that lies under a link of lower is found different, or has
below it a path that is found different.
-/
def DiffersUnderLinks (args : Args α) : Prop :=
  ∀ rel node, args.upperTree rel = some node → UnderLink args.lowerTree rel →
    ∃ sub, rel <:+ sub ∧ differs args sub = true

/-! ## Paths that are not copied -/

section Unchanged

variable {args : Args α} {rel : Path α}

theorem lower_dir_of_not_differs (lowerDir : args.host.isDirAt args.lower = true)
    (notUnder : ¬ UnderLink args.lowerTree rel) {perm : Nat}
    (source : args.upperTree rel = some (.dir perm)) (same : differs args rel = false) :
    args.host.isDirAt (rel ++ args.lower) = true := by
  simp only [differs, source, dirIsNew, Bool.or_eq_false_iff, Bool.not_eq_false'] at same
  rw [← args.host.isdir_and_not_islink_textOf (FileSystem.plain_append lowerDir notUnder)]
  change (args.host.isdir (args.lowerText rel) && !args.host.islink (args.lowerText rel)) = true
  rw [same.1, same.2]
  rfl

theorem lower_link_of_not_differs (lowerDir : args.host.isDirAt args.lower = true)
    (notUnder : ¬ UnderLink args.lowerTree rel) {target : PathText α}
    (source : args.upperTree rel = some (.symlink target)) (same : differs args rel = false) :
    args.lowerTree rel = some (.symlink target) := by
  have plain : args.host.Plain (rel ++ args.lower) := FileSystem.plain_append lowerDir notUnder
  have lowerLink : args.host.islink (args.lowerText rel) =
      (args.lowerTree rel).any Node.isSymlink := args.host.islink_textOf plain
  have lowerTarget : args.host.readlink (args.lowerText rel) =
      (args.lowerTree rel).bind Node.target := args.host.readlink_textOf plain
  have upperTarget : args.host.readlink (args.upperText rel) =
      (args.upperTree rel).bind Node.target :=
    args.host.readlink_textOf (FileSystem.plain_of_get source)
  simp only [differs, source, linkDiffers, lowerLink, lowerTarget, upperTarget] at same
  cases found : args.lowerTree rel with
  | none => rw [found] at same; cases same
  | some node =>
      rw [found] at same
      cases node with
      | symlink other =>
          have equal : target = other := by simpa [Node.isSymlink, Node.target] using same
          rw [equal]
      | dir _ | file _ _ | chardev _ _ => cases same

theorem lower_file_of_not_differs (lowerDir : args.host.isDirAt args.lower = true)
    (notUnder : ¬ UnderLink args.lowerTree rel) {stat : Stat} {data : List UInt8}
    (source : args.upperTree rel = some (.file stat data)) (same : differs args rel = false) :
    args.lowerTree rel = some (.file stat data) := by
  have lowerNode : args.host.lstat (args.lowerText rel) = args.lowerTree rel :=
    args.host.lstat_textOf (FileSystem.plain_append lowerDir notUnder)
  have upperNode : args.host.lstat (args.upperText rel) = args.upperTree rel :=
    args.host.lstat_textOf (FileSystem.plain_of_get source)
  simp only [differs, source, fileDiffers] at same
  split at same
  · cases same
  · simp only [compareFiles, lowerNode, upperNode, source, Option.any_some] at same
    cases found : args.lowerTree rel with
    | none => rw [found] at same; cases same
    | some node =>
        rw [found] at same
        cases node with
        | file other bytes =>
            simp only [Option.any_some, sameFile, Bool.not_eq_false', Bool.and_eq_true,
              beq_iff_eq] at same
            rw [same.1.1, same.2]
        | dir _ | symlink _ | chardev _ _ => cases same

end Unchanged

/-! ## The overlay of a completed run -/

section Overlaid

variable {job : Job α} {out : FileSystem α}

/-- A path of upper without an entry in the output is compared plainly and found the same. -/
theorem unchanged_of_absent (covers : Covers job.toArgs out)
    (different : DiffersUnderLinks job.toArgs) {n : α} {p : Path α} {node : Node α}
    (source : job.upperTree (n :: p) = some node) (absent : job.outputTree out (n :: p) = none) :
    ¬ UnderLink job.lowerTree (n :: p) ∧ differs job.toArgs (n :: p) = false := by
  have blocked : ∀ sub, n :: p <:+ sub → differs job.toArgs sub = false := by
    intro sub below
    cases differ : differs job.toArgs sub with
    | false => rfl
    | true =>
        cases sub with
        | nil => exact absurd (List.suffix_nil.mp below) (List.cons_ne_nil n p)
        | cons m q =>
            obtain ⟨made, found⟩ := Option.isSome_iff_exists.mp (covers m q differ)
            by_cases same : n :: p = m :: q
            · rw [same] at absent
              exact absurd (absent.symm.trans found) (by simp)
            · obtain ⟨perm, dir⟩ := (out.isDirAt_iff _).mp (out.isDirAt_above found below same)
              exact absurd (absent.symm.trans dir) (by simp)
  refine ⟨?_, blocked _ List.suffix_rfl⟩
  intro under
  obtain ⟨sub, below, differ⟩ := different _ node source under
  rw [blocked sub below] at differ
  cases differ

/-- The layers merged at a directory of upper: the output if it has it, lower if it has it. -/
def mergedAt (args : Args α) (out : FileSystem α) (rel : Path α) : List (Posix.Tree α) :=
  (if (args.outputTree out rel).isSome then [args.outputTree out] else []) ++
    (if (args.lowerTree rel).any Node.isDir then [args.lowerTree] else [])

/-- A tree whose root directory is an entry of a file system has no entry below a gap. -/
theorem oneOf_below {fs : FileSystem α} {base : Path α} {n : α} {p : Path α} {here : Bool}
    (dir : here = false → fs.isDirAt (p ++ base) = false) :
    Overlay.OneOf (fs.below base) (if here then [fs.below base] else []) (n :: p) := by
  cases here with
  | true => exact Or.inl rfl
  | false =>
      refine Or.inr ⟨rfl, ?_⟩
      cases found : fs.below base (n :: p) with
      | none => rfl
      | some node =>
          have parent : fs.isDirAt (p ++ base) = true := fs.parent_isDirAt found
          rw [dir rfl] at parent
          cases parent

/-- The output has directories only where upper has a directory. -/
theorem outputTree_isDir (sound : Sound job.toArgs out) {rel : Path α}
    (dir : job.host.isDirAt (rel ++ job.upper) = true) (node : Node α)
    (found : job.outputTree out rel = some node) : node.isDir = true := by
  obtain ⟨perm, source⟩ := (job.host.isDirAt_iff _).mp dir
  have faithful := sound rel node found
  cases node with
  | dir _ => rfl
  | file stat data =>
      obtain ⟨⟨other, file, _⟩, _⟩ := faithful
      exact absurd (source.symm.trans file) (by simp)
  | symlink target => exact absurd (source.symm.trans faithful.1) (by simp)
  | chardev major minor => exact absurd (source.symm.trans faithful.2.2) (by simp)

/-- What the output and lower have at a child of a directory of upper amounts to upper's entry. -/
theorem child_same (sound : Sound job.toArgs out) (covers : Covers job.toArgs out)
    (whites : WhitesOut job.toArgs out) (different : DiffersUnderLinks job.toArgs) {n : α}
    {p : Path α} (dir : job.host.isDirAt (p ++ job.upper) = true) :
    SameNode
      (((job.outputTree out (n :: p)).or (job.lowerTree (n :: p))).filter
        fun node => !node.isWhiteout)
      (job.upperTree (n :: p)) := by
  cases source : job.upperTree (n :: p) with
  | none =>
      cases made : job.outputTree out (n :: p) with
      | some node =>
          have faithful := sound _ _ made
          cases node with
          | chardev major minor =>
              obtain ⟨rfl, rfl, _⟩ := faithful
              exact True.intro
          | dir perm =>
              obtain ⟨other, found⟩ := (job.host.isDirAt_iff _).mp faithful.1
              exact absurd (source.symm.trans found) (by simp)
          | file stat data =>
              obtain ⟨⟨other, found, _⟩, _⟩ := faithful
              exact absurd (source.symm.trans found) (by simp)
          | symlink target => exact absurd (source.symm.trans faithful.1) (by simp)
      | none =>
          cases beneath : job.lowerTree (n :: p) with
          | none => exact True.intro
          | some node =>
              -- the path is gone from a directory of upper, so it was whited out
              have here := whites n p node beneath (whiteoutWanted_of_absent source dir)
              rw [made] at here
              cases here
  | some node =>
      cases made : job.outputTree out (n :: p) with
      | none =>
          obtain ⟨notUnder, same⟩ := unchanged_of_absent covers different source made
          have kind := job.kind_of_get (Or.inr (List.suffix_append (n :: p) job.upper)) source
          cases node with
          | dir perm =>
              obtain ⟨other, found⟩ := (job.host.isDirAt_iff _).mp
                (lower_dir_of_not_differs job.lowerDir notUnder source same)
              rw [show job.lowerTree (n :: p) = _ from found]
              exact True.intro
          | file stat data =>
              rw [lower_file_of_not_differs job.lowerDir notUnder source same]
              exact ⟨rfl, rfl⟩
          | symlink target =>
              rw [lower_link_of_not_differs job.lowerDir notUnder source same]
              rfl
          | chardev major minor => cases kind
      | some copied =>
          have faithful := sound _ _ made
          cases copied with
          | dir perm =>
              obtain ⟨other, found⟩ := (job.host.isDirAt_iff _).mp faithful.1
              cases source.symm.trans found
              exact True.intro
          | file stat data =>
              obtain ⟨⟨other, found, perms⟩, _⟩ := faithful
              cases source.symm.trans found
              exact ⟨perms.symm, rfl⟩
          | symlink target =>
              cases source.symm.trans faithful.1
              rfl
          | chardev major minor => exact absurd (source.symm.trans faithful.2.2) (by simp)

theorem oneOf_output {n : α} {p : Path α} :
    Overlay.OneOf (job.outputTree out)
      (if (job.outputTree out p).isSome then [job.outputTree out] else []) (n :: p) := by
  refine oneOf_below fun absent => ?_
  have gone : job.outputTree out p = none := by simpa using absent
  exact congrArg (Option.any Node.isDir) gone

theorem oneOf_lower {n : α} {p : Path α} :
    Overlay.OneOf job.lowerTree
      (if (job.lowerTree p).any Node.isDir then [job.lowerTree] else []) (n :: p) :=
  oneOf_below fun absent => absent

/--
By induction on the path: the overlay shows what upper has, and at a directory
of upper it merges exactly `mergedAt`.
-/
theorem overlay_shows_upper (sound : Sound job.toArgs out) (covers : Covers job.toArgs out)
    (whites : WhitesOut job.toArgs out) (different : DiffersUnderLinks job.toArgs) (rel : Path α) :
    SameNode (Overlay.lookup [job.outputTree out, job.lowerTree] rel) (job.upperTree rel) ∧
      (job.host.isDirAt (rel ++ job.upper) = true →
        Overlay.stack [job.outputTree out, job.lowerTree] rel = mergedAt job.toArgs out rel) := by
  induction rel with
  | nil =>
      have dirs := fun node => outputTree_isDir sound (show job.host.isDirAt ([] ++ job.upper) = true from job.upperDir) node
      have merged : Overlay.stack [job.outputTree out, job.lowerTree] [] =
          mergedAt job.toArgs out [] :=
        Overlay.merge_pair (Or.inl (rfl : [job.outputTree out] = _))
          (Or.inl (rfl : [job.lowerTree] = _)) dirs
      refine ⟨?_, fun _ => merged⟩
      obtain ⟨upperPerm, upperRoot⟩ := (job.host.isDirAt_iff _).mp job.upperDir
      obtain ⟨lowerPerm, lowerRoot⟩ := (job.host.isDirAt_iff _).mp job.lowerDir
      have beneath : job.lowerTree [] = some (.dir lowerPerm) := lowerRoot
      rw [show job.upperTree [] = some (.dir upperPerm) from upperRoot]
      change SameNode (Overlay.top (Overlay.stack _ []) []) _
      rw [merged]
      cases made : job.outputTree out [] with
      | none =>
          simp only [mergedAt, made, beneath, Overlay.top, Option.isSome_none, Bool.false_eq_true,
            ↓reduceIte, Option.any_some, Node.isDir, List.nil_append, List.filterMap_cons,
            List.head?_cons, SameNode]
      | some node =>
          obtain ⟨perm, rfl⟩ := Node.isDir_iff.mp (dirs node made)
          simp only [mergedAt, made, beneath, Overlay.top, Option.isSome_some, ↓reduceIte,
            List.singleton_append, List.filterMap_cons, List.head?_cons, SameNode]
  | cons n p ih =>
      obtain ⟨shown, merged⟩ := ih
      by_cases dir : job.host.isDirAt (p ++ job.upper) = true
      · have lookup : Overlay.lookup [job.outputTree out, job.lowerTree] (n :: p) =
            ((job.outputTree out (n :: p)).or (job.lowerTree (n :: p))).filter
              fun node => !node.isWhiteout := by
          rw [Overlay.lookup, merged dir, mergedAt, Overlay.top_pair oneOf_output oneOf_lower]
        refine ⟨lookup ▸ child_same sound covers whites different dir, ?_⟩
        intro childDir
        rw [Overlay.stack, merged dir, mergedAt, Overlay.merge_pair oneOf_output oneOf_lower
          (outputTree_isDir sound (List.cons_append .. ▸ childDir))]
        rfl
      · -- upper has nothing there and the overlay merges nothing above
        have absent : job.upperTree (n :: p) = none := by
          cases found : job.upperTree (n :: p) with
          | none => rfl
          | some node => exact absurd (job.host.parent_isDirAt found) dir
        have closed : Overlay.stack [job.outputTree out, job.lowerTree] p = [] := by
          cases stacked : Overlay.stack [job.outputTree out, job.lowerTree] p with
          | nil => rfl
          | cons layer rest =>
              cases p with
              | nil => exact absurd job.upperDir dir
              | cons m q =>
                  have shownDir := Overlay.lookup_isDir_of_mem_stack
                    (stacked ▸ List.mem_cons_self : layer ∈ Overlay.stack _ (m :: q))
                  exact absurd (shown.isDir shownDir) dir
        refine ⟨?_, fun childDir => ?_⟩
        · rw [absent, Overlay.lookup_eq_none_of_stack (by rw [closed]; simp)]
          exact True.intro
        · obtain ⟨perm, found⟩ := (job.host.isDirAt_iff _).mp childDir
          exact absurd (absent.symm.trans found) (by simp)

/-- What lies under a link of lower is lost unless it, or something below it, is found different. -/
theorem differsUnderLinks_of_restoresUpper (sound : Sound job.toArgs out)
    (restores : RestoresUpper job.toArgs out) : DiffersUnderLinks job.toArgs := by
  intro rel node source under
  by_contra none'
  have blocked : ∀ sub, rel <:+ sub → differs job.toArgs sub ≠ true := fun sub below differ =>
    none' ⟨sub, below, differ⟩
  have noLower : job.lowerTree rel = none := by
    cases found : job.lowerTree rel with
    | none => rfl
    | some other => exact absurd under (FileSystem.not_underLink_of_get found)
  have noOutput : job.outputTree out rel = none := by
    cases made : job.outputTree out rel with
    | none => rfl
    | some other =>
        have faithful := sound rel other made
        cases other with
        | dir perm =>
            rcases faithful.2 with lowerDir | ⟨sub, below, differ⟩
            · obtain ⟨perm', found⟩ := (job.host.isDirAt_iff _).mp lowerDir
              exact absurd (noLower.symm.trans found) (by simp)
            · exact absurd differ (blocked sub below)
        | file stat data => exact absurd faithful.2 (blocked rel List.suffix_rfl)
        | symlink target => exact absurd faithful.2 (blocked rel List.suffix_rfl)
        | chardev major minor => exact absurd (source.symm.trans faithful.2.2) (by simp)
  cases rel with
  | nil =>
      obtain ⟨q, above, proper, _⟩ := under
      exact proper (List.suffix_nil.mp above)
  | cons n p =>
      have hidden : Overlay.lookup [job.outputTree out, job.lowerTree] (n :: p) = none := by
        refine Overlay.lookup_eq_none_of_stack fun layer member => ?_
        rcases List.mem_cons.mp (Overlay.mem_stack member).1 with rfl | last
        · exact noOutput
        · rw [List.mem_singleton.mp last]
          exact noLower
      have shown := restores (n :: p)
      rw [hidden, source] at shown
      exact shown

end Overlaid

/--
When no whiteout goes through a link of upper, a completed run restores upper
exactly if whatever lies under a link of lower is found different.
-/
theorem main_restoresUpper_iff (job : Job α) {out : FileSystem α}
    (run : main job.toArgs job.start = .ok out) (noThrough : NoWhiteoutThroughLink job.toArgs) :
    RestoresUpper job.toArgs out ↔ DiffersUnderLinks job.toArgs := by
  obtain ⟨sound, covers, whites⟩ := main_complete job noThrough run
  constructor
  · exact differsUnderLinks_of_restoresUpper sound
  · intro different rel
    exact (overlay_shows_upper sound covers whites different rel).1

/-! ## A directory behind a link -/

/-- Lower has `d` as a link to `e`, upper has it as a directory with the same file in it. -/
def linkedHost (data : List UInt8) : FileSystem String where
  entries :=
    [([], .dir 0o755),
      (["l"], .dir 0o755),
      (["d", "l"], .symlink [.name "e"]),
      (["e", "l"], .dir 0o755),
      (["f", "e", "l"], .file ⟨0o644, 1, 0, 0⟩ [1]),
      (["u"], .dir 0o755),
      (["d", "u"], .dir 0o755),
      (["f", "d", "u"], .file ⟨0o644, 1, 0, 0⟩ data),
      (["e", "u"], .dir 0o755),
      (["f", "e", "u"], .file ⟨0o644, 1, 0, 0⟩ [1])]
  nodup := by simp
  root := rfl
  parents := by simp [List.lookup_cons, List.lookup_nil, Node.isDir]

def linkedJob (data : List UInt8) : Job String where
  host := linkedHost data
  lower := ["l"]
  upper := ["u"]
  output := "o"
  uid := 0
  gid := 0
  start := FileSystem.bare 0o755
  lowerDir := rfl
  upperDir := rfl
  kinds := by simp [linkedHost, Node.isDir, Node.isFile, Node.isSymlink]
  fresh := fresh_bare

/-- The file below `d` is compared through the link, found the same and lost. -/
theorem linked_lost : ∃ job : Job String, ∃ out, main job.toArgs job.start = .ok out ∧
    ¬ RestoresUpper job.toArgs out := by
  have completes : ∃ out, main (linkedJob [1]).toArgs (linkedJob [1]).start = .ok out ∧
      Overlay.lookup [(linkedJob [1]).outputTree out, (linkedJob [1]).lowerTree] ["f", "d"] = none :=
    ⟨_, rfl, rfl⟩
  obtain ⟨out, run, hidden⟩ := completes
  refine ⟨linkedJob [1], out, run, ?_⟩
  intro restores
  have shown := restores ["f", "d"]
  rw [hidden] at shown
  exact shown

/-- With other bytes in upper the file is copied and the run restores upper. -/
theorem linked_restored : ∃ out, main (linkedJob [2]).toArgs (linkedJob [2]).start = .ok out ∧
    RestoresUpper (linkedJob [2]).toArgs out := by
  have listed : ∀ p node, (linkedHost [2]).get p = some node → (p, node) ∈ (linkedHost [2]).entries :=
    fun p node => ((linkedHost [2]).mem_entries_iff p node).mpr
  have noThrough : NoWhiteoutThroughLink (linkedJob [2]).toArgs := by
    rintro rel node found ⟨q, above, proper, target, link⟩
    have member := listed _ _ link
    rcases q with _ | ⟨n, _ | ⟨m, q⟩⟩ <;> simp [linkedHost, linkedJob] at member
  have different : DiffersUnderLinks (linkedJob [2]).toArgs := by
    rintro rel node source ⟨q, above, proper, target, link⟩
    have member := listed _ _ source
    rcases rel with _ | ⟨n, _ | ⟨m, _ | ⟨k, rel⟩⟩⟩
    · exact absurd (List.suffix_nil.mp above) proper
    · have top : q = [] := by simpa [proper, List.suffix_cons_iff] using above
      rw [top] at link
      cases link
    · have file : n = "f" ∧ (m = "d" ∨ m = "e") := by
        simp [linkedHost, linkedJob] at member
        grind
      obtain ⟨rfl, rfl | rfl⟩ := file
      · exact ⟨["f", "d"], List.suffix_rfl, rfl⟩
      · have inner : q = [] ∨ q = ["e"] := by
          simpa [proper, List.suffix_cons_iff, or_comm] using above
        rcases inner with rfl | rfl <;> cases link
    · simp [linkedHost, linkedJob] at member
  obtain ⟨out, run⟩ : ∃ out, main (linkedJob [2]).toArgs (linkedJob [2]).start = .ok out := ⟨_, rfl⟩
  exact ⟨out, run, (main_restoresUpper_iff (linkedJob [2]) run noThrough).mpr different⟩

end GnomeBuildMeta.Layer.MakeLayer
