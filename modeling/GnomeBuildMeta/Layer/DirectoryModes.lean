import GnomeBuildMeta.Layer.MakeLayerContent
import GnomeBuildMeta.Layer.MakeLayerOverlay

/-!
# The modes of directories

A directory of upper gets into the output only when something at or below it is
wanted.  Otherwise the overlay shows the directory of lower with the permission
bits it has there, and an output directory that was there before keeps its own.
-/

namespace GnomeBuildMeta.Layer.MakeLayer

open GnomeBuildMeta.Posix

variable {α : Type} [DecidableEq α]

/-- The output over lower shows every directory of upper with its permission bits. -/
def RestoresModes (args : Args α) (out : FileSystem α) : Prop :=
  ∀ rel perm, args.upperTree rel = some (.dir perm) →
    Overlay.lookup [args.outputTree out, args.lowerTree] rel = some (.dir perm)

/--
An output directory that was there has the bits of upper's root.  Any other
directory of upper has something that is wanted at or below it, or lower has the
directory with the same bits.
-/
def CarriesModes (job : Job α) : Prop :=
  ∀ rel perm, job.upperTree rel = some (.dir perm) →
    match job.startTree rel with
    | some node => node = .dir perm
    | none => (∃ sub, rel <:+ sub ∧ Changed job.toArgs sub) ∨
        job.lowerTree rel = some (.dir perm)

/-! ## The overlay at a directory of upper -/

section Shown

variable {job : Job α} {S : Path α → Prop} {out : FileSystem α} {rel : Path α}

theorem Content.stack_eq (content : Content job S out)
    (dir : job.host.isDirAt (rel ++ job.upper) = true) :
    Overlay.stack [job.outputTree out, job.lowerTree] rel = mergedAt job.toArgs out rel := by
  have dirs : ∀ q, q <:+ rel → ∀ node, job.outputTree out q = some node → node.isDir = true := by
    intro q suffix node found
    have present := content.present q (content.of_some found)
    obtain ⟨perm, isDir⟩ := job.node_dir (job.host.isDirAt_upward dir suffix)
    rw [found, isDir] at present
    cases present
    rfl
  have outputParent : ∀ n q node, job.outputTree out (n :: q) = some node →
      (job.outputTree out q).any Node.isDir = true := fun _ _ _ => out.parent_isDirAt
  have lowerParent : ∀ n q node, job.lowerTree (n :: q) = some node →
      (job.lowerTree q).any Node.isDir = true := fun _ _ _ => job.host.parent_isDirAt
  rw [Overlay.stack_cons outputParent dirs, Overlay.stack_single lowerParent, mergedAt]

/-- The output decides about a directory of upper if it has it, and lower otherwise. -/
theorem Content.lookup_dir_iff (content : Content job S out)
    (dir : job.host.isDirAt (rel ++ job.upper) = true) (perm : Nat) :
    Overlay.lookup [job.outputTree out, job.lowerTree] rel = some (.dir perm) ↔
      (job.outputTree out rel).or (job.lowerTree rel) = some (.dir perm) := by
  cases rel with
  | nil =>
      have lowerRoot : (job.lowerTree []).any Node.isDir = true := job.lowerDir
      rw [Overlay.lookup, content.stack_eq dir, mergedAt, if_pos lowerRoot]
      cases found : job.outputTree out [] with
      | some node =>
          rw [Option.isSome_some, if_pos rfl, List.singleton_append, Overlay.top_cons_some found]
          rfl
      | none =>
          obtain ⟨node, lower, _⟩ := (Option.any_eq_true _ _).mp lowerRoot
          rw [Option.isSome_none, if_neg Bool.false_ne_true, List.nil_append,
            Overlay.top_cons_some lower, lower]
          rfl
  | cons n p =>
      have above := job.host.isDirAt_upward dir (List.suffix_cons n p)
      rw [Overlay.lookup, content.stack_eq above, mergedAt, Overlay.top_pair oneOf_output oneOf_lower,
        Option.filter_eq_some_iff]
      exact and_iff_left rfl

end Shown

/--
If every whiteout lies in a directory of upper, the permission bits of upper's
directories come back exactly if they are carried.
-/
theorem main_restoresModes_iff (job : Job α) (inDirs : WhiteoutsInDirs job.toArgs)
    {out : FileSystem α} (run : main job.toArgs job.start = .ok out) :
    RestoresModes job.toArgs out ↔ CarriesModes job := by
  obtain ⟨out', run', content⟩ := (main_content job inDirs).1
  cases run.symm.trans run'
  refine forall_congr' fun rel => forall_congr' fun perm => imp_congr_right fun upper => ?_
  have dir : job.host.isDirAt (rel ++ job.upper) = true := (job.host.isDirAt_iff _).mpr ⟨perm, upper⟩
  rw [show Overlay.lookup [job.outputTree out, job.lowerTree] rel = _ ↔ _ from
    content.lookup_dir_iff dir perm]
  by_cases kept : Kept job rel
  · rw [content.present rel kept, Job.node]
    cases atStart : job.startTree rel with
    | some node => simp
    | none =>
        have changed := kept.resolve_left (by simp [atStart])
        simp [copied, upper, changed]
  · obtain ⟨noStart, notChanged⟩ := not_or.mp kept
    have atStart : job.startTree rel = none := by simpa using noStart
    rw [content.absent rel kept, atStart]
    simp [notChanged]

/-! ## A tightened directory -/

/-- Upper has closed `d` for others. -/
def tightenedHost (data : List UInt8) : FileSystem String where
  entries :=
    [([], .dir 0o755),
      (["l"], .dir 0o755),
      (["d", "l"], .dir 0o755),
      (["f", "d", "l"], .file ⟨0o644, 1, 0, 0⟩ [1]),
      (["u"], .dir 0o755),
      (["d", "u"], .dir 0o700),
      (["f", "d", "u"], .file ⟨0o644, 1, 0, 0⟩ data)]
  nodup := by simp
  root := rfl
  parents := by simp [List.lookup_cons, List.lookup_nil, Node.isDir]

def tightenedJob (data : List UInt8) : Job String where
  host := tightenedHost data
  lower := ["l"]
  upper := ["u"]
  output := "o"
  uid := 0
  gid := 0
  start := FileSystem.bare 0o755
  lowerDir := rfl
  upperDir := rfl
  kinds := by simp [tightenedHost, Node.isDir, Node.isFile, Node.isSymlink]
  fresh := fresh_bare

/-- With the same file in it the directory is left out, and is open again. -/
theorem tightened_reverts : ∃ job : Job String, ∃ out, main job.toArgs job.start = .ok out ∧
    ¬ RestoresModes job.toArgs out := by
  have completes : ∃ out, main (tightenedJob [1]).toArgs (tightenedJob [1]).start = .ok out ∧
      Overlay.lookup [(tightenedJob [1]).outputTree out, (tightenedJob [1]).lowerTree] ["d"] =
        some (.dir 0o755) := ⟨_, rfl, rfl⟩
  obtain ⟨out, run, shown⟩ := completes
  refine ⟨tightenedJob [1], out, run, fun restores => ?_⟩
  have wanted := restores ["d"] 0o700 rfl
  rw [shown] at wanted
  exact absurd wanted (by decide)

/-- With other bytes in its file it is copied. -/
theorem tightened_restored :
    ∃ out, main (tightenedJob [2]).toArgs (tightenedJob [2]).start = .ok out ∧
      RestoresModes (tightenedJob [2]).toArgs out := by
  have listed : ∀ p node, (tightenedHost [2]).get p = some node →
      (p, node) ∈ (tightenedHost [2]).entries :=
    fun p node => ((tightenedHost [2]).mem_entries_iff p node).mpr
  have inDirs : WhiteoutsInDirs (tightenedJob [2]).toArgs := by
    intro n p node lower want
    have member := listed (n :: p ++ ["l"]) node lower
    rcases p with _ | ⟨m, _ | ⟨k, p⟩⟩
    · rfl
    · have place : m = "d" := by
        simp [tightenedHost] at member
        grind
      rw [place]
      rfl
    · simp [tightenedHost] at member
  have carries : CarriesModes (tightenedJob [2]) := by
    intro rel perm upper
    have member := listed (rel ++ ["u"]) _ upper
    rcases rel with _ | ⟨n, _ | ⟨m, rel⟩⟩
    · have bits : perm = 0o755 := by
        simp [tightenedHost] at member
        exact member
      rw [bits]
      exact Or.inr rfl
    · have place : n = "d" := by
        simp [tightenedHost] at member
        exact member.1
      rw [place]
      exact Or.inl ⟨["f", "d"], List.suffix_cons _ _, Or.inl rfl⟩
    · simp [tightenedHost] at member
  obtain ⟨out, run⟩ :
      ∃ out, main (tightenedJob [2]).toArgs (tightenedJob [2]).start = .ok out := ⟨_, rfl⟩
  exact ⟨out, run, (main_restoresModes_iff (tightenedJob [2]) inDirs run).mpr carries⟩

end GnomeBuildMeta.Layer.MakeLayer
