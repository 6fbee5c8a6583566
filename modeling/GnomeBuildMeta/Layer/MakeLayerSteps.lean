import GnomeBuildMeta.Control.Loop
import GnomeBuildMeta.Layer.MakeLayerRun

/-!
# The steps of make-layer.py

Both walks together come to one entry after the other.  A step says which entry
it is and what is done with it; every path comes up at most once in each walk.
-/

namespace GnomeBuildMeta.Layer.MakeLayer

open GnomeBuildMeta.Posix GnomeBuildMeta.Control

variable {α : Type} [DecidableEq α]

inductive Kind where
  | dir
  | link
  | file
  | white
  deriving DecidableEq

structure Step (α : Type) where
  kind : Kind
  rel : Path α

namespace Step

variable (args : Args α) (t : Step α)

def wanted : Bool :=
  match t.kind with
  | .dir => dirIsNew args t.rel
  | .link => linkDiffers args t.rel
  | .file => fileDiffers args t.rel
  | .white => whiteoutWanted args t.rel

def copy (out : FileSystem α) : Except Errno (FileSystem α) :=
  match t.kind with
  | .dir => copyDir args out t.rel
  | .link => copyLink args out t.rel
  | .file => copyFile args out t.rel
  | .white => createWhite args out t.rel

def run (out : FileSystem α) (t : Step α) : Except Errno (FileSystem α) :=
  if t.wanted args then t.copy args out else .ok out

end Step

def upperVisitSteps (args : Args α) (v : Visit α) : List (Step α) :=
  let sorted := sortVisit args.host args.upper v
  sorted.realDirs.map (Step.mk .dir) ++ sorted.realLinks.map (Step.mk .link) ++
    sorted.realFiles.map (Step.mk .file)

def lowerVisitSteps (args : Args α) (v : Visit α) : List (Step α) :=
  let sorted := sortVisit args.host args.lower v
  (sorted.realDirs ++ sorted.realLinks ++ sorted.realFiles).map (Step.mk .white)

def upperSteps (args : Args α) : List (Step α) :=
  (args.host.osWalk args.upper).flatMap (upperVisitSteps args)

def lowerSteps (args : Args α) : List (Step α) :=
  (args.host.osWalk args.lower).flatMap (lowerVisitSteps args)

def steps (args : Args α) : List (Step α) := upperSteps args ++ lowerSteps args

/-! ## The script as one loop -/

theorem visitUpper_eq (args : Args α) (out : FileSystem α) (v : Visit α) :
    visitUpper args out v = (upperVisitSteps args v).foldlM (Step.run args) out := by
  unfold visitUpper upperVisitSteps
  simp only [List.foldlM_append, List.foldlM_map, bind_assoc]
  rfl

theorem visitLower_eq (args : Args α) (out : FileSystem α) (v : Visit α) :
    visitLower args out v = (lowerVisitSteps args v).foldlM (Step.run args) out := by
  unfold visitLower lowerVisitSteps
  rw [List.foldlM_map]
  rfl

theorem foldlM_visits (args : Args α) (stepsOf : Visit α → List (Step α)) {visits : List (Visit α)}
    {out : FileSystem α} :
    visits.foldlM (fun out v => (stepsOf v).foldlM (Step.run args) out) out =
      (visits.flatMap stepsOf).foldlM (Step.run args) out := by
  induction visits generalizing out with
  | nil => rfl
  | cons v visits ih =>
      rw [List.foldlM_cons, List.flatMap_cons, List.foldlM_append]
      exact bind_congr fun _ => ih

theorem upperWalk_eq (args : Args α) (out : FileSystem α) :
    (args.host.osWalk args.upper).foldlM (visitUpper args) out =
      (upperSteps args).foldlM (Step.run args) out := by
  rw [upperSteps, ← foldlM_visits]
  simp only [← visitUpper_eq]

theorem lowerWalk_eq (args : Args α) (out : FileSystem α) :
    (args.host.osWalk args.lower).foldlM (visitLower args) out =
      (lowerSteps args).foldlM (Step.run args) out := by
  rw [lowerSteps, ← foldlM_visits]
  simp only [← visitLower_eq]

theorem main_eq (args : Args α) (out : FileSystem α) :
    main args out = (steps args).foldlM (Step.run args) out := by
  unfold main steps
  simp only [List.foldlM_append, upperWalk_eq, lowerWalk_eq]

/-! ## What the steps are about -/

/-- The entries of the two trees that the steps come to. -/
def Step.Fits (args : Args α) (t : Step α) : Prop :=
  match t.kind with
  | .dir => ∃ n p perm, t.rel = n :: p ∧ args.upperTree t.rel = some (.dir perm)
  | .link => ∃ n p target, t.rel = n :: p ∧ args.upperTree t.rel = some (.symlink target)
  | .file => ∃ n p node, t.rel = n :: p ∧ args.upperTree t.rel = some node ∧
      node.isDir = false ∧ node.isSymlink = false
  | .white => ∃ n p node, t.rel = n :: p ∧ args.lowerTree t.rel = some node

theorem mem_upperVisitSteps_iff {args : Args α} {p : Path α}
    (dir : args.host.isDirAt (p ++ args.upper) = true) {t : Step α} :
    t ∈ upperVisitSteps args (args.host.visit args.upper p) ↔
      t.kind ≠ .white ∧ t.Fits args ∧ t.rel.tail = p := by
  obtain ⟨kind, rel⟩ := t
  simp only [upperVisitSteps, List.mem_append, List.mem_map, mem_realDirs_iff dir,
    mem_realLinks_iff dir, mem_realFiles_iff, Step.mk.injEq]
  constructor
  · rintro ((⟨_, ⟨n, perm, rfl, found⟩, rfl, rfl⟩ | ⟨_, ⟨n, target, rfl, found⟩, rfl, rfl⟩) |
      ⟨_, ⟨n, node, rfl, found, other⟩, rfl, rfl⟩)
    · exact ⟨by decide, ⟨n, p, perm, rfl, found⟩, rfl⟩
    · exact ⟨by decide, ⟨n, p, target, rfl, found⟩, rfl⟩
    · exact ⟨by decide, ⟨n, p, node, rfl, found, other⟩, rfl⟩
  · rintro ⟨upper, fits, rfl⟩
    cases kind with
    | dir =>
        obtain ⟨n, q, perm, rfl, found⟩ := fits
        exact Or.inl (Or.inl ⟨_, ⟨n, perm, rfl, found⟩, rfl, rfl⟩)
    | link =>
        obtain ⟨n, q, target, rfl, found⟩ := fits
        exact Or.inl (Or.inr ⟨_, ⟨n, target, rfl, found⟩, rfl, rfl⟩)
    | file =>
        obtain ⟨n, q, node, rfl, found, other⟩ := fits
        exact Or.inr ⟨_, ⟨n, node, rfl, found, other⟩, rfl, rfl⟩
    | white => exact absurd rfl upper

theorem mem_lowerVisitSteps_iff {args : Args α} {p : Path α}
    (dir : args.host.isDirAt (p ++ args.lower) = true) {t : Step α} :
    t ∈ lowerVisitSteps args (args.host.visit args.lower p) ↔
      t.kind = .white ∧ t.Fits args ∧ t.rel.tail = p := by
  obtain ⟨kind, rel⟩ := t
  simp only [lowerVisitSteps, List.mem_map, List.mem_append, mem_realDirs_iff dir,
    mem_realLinks_iff dir, mem_realFiles_iff, Step.mk.injEq]
  constructor
  · rintro ⟨_, (⟨n, perm, rfl, found⟩ | ⟨n, target, rfl, found⟩) | ⟨n, node, rfl, found, _⟩, rfl, rfl⟩
    all_goals exact ⟨rfl, ⟨n, p, _, rfl, found⟩, rfl⟩
  · rintro ⟨rfl, ⟨n, q, node, rfl, found⟩, rfl⟩
    refine ⟨_, ?_, rfl, rfl⟩
    cases node with
    | dir perm => exact Or.inl (Or.inl ⟨n, perm, rfl, found⟩)
    | symlink target => exact Or.inl (Or.inr ⟨n, target, rfl, found⟩)
    | file stat data => exact Or.inr ⟨n, _, rfl, found, rfl, rfl⟩
    | chardev major minor => exact Or.inr ⟨n, _, rfl, found, rfl, rfl⟩

theorem Step.Fits.parent {args : Args α} {t : Step α} (fits : t.Fits args) :
    (t.kind ≠ .white → args.host.isDirAt (t.rel.tail ++ args.upper) = true) ∧
      (t.kind = .white → args.host.isDirAt (t.rel.tail ++ args.lower) = true) := by
  obtain ⟨kind, rel⟩ := t
  cases kind with
  | dir =>
      obtain ⟨n, p, perm, rfl, found⟩ := fits
      exact ⟨fun _ => args.host.parent_isDirAt found, nofun⟩
  | link =>
      obtain ⟨n, p, target, rfl, found⟩ := fits
      exact ⟨fun _ => args.host.parent_isDirAt found, nofun⟩
  | file =>
      obtain ⟨n, p, node, rfl, found, _⟩ := fits
      exact ⟨fun _ => args.host.parent_isDirAt found, nofun⟩
  | white =>
      obtain ⟨n, p, node, rfl, found⟩ := fits
      exact ⟨fun impossible => absurd rfl impossible, fun _ => args.host.parent_isDirAt found⟩

theorem Step.Fits.cons {args : Args α} {t : Step α} (fits : t.Fits args) :
    ∃ n p, t.rel = n :: p := by
  obtain ⟨kind, rel⟩ := t
  cases kind with
  | dir | link | file | white =>
      obtain ⟨n, p, _, same, _⟩ := fits
      exact ⟨n, p, same⟩

theorem Step.Fits.isSome_of_upper {args : Args α} {t : Step α} (fits : t.Fits args)
    (upper : t.kind ≠ .white) : (args.upperTree t.rel).isSome = true := by
  obtain ⟨kind, rel⟩ := t
  cases kind with
  | dir =>
      obtain ⟨_, _, _, _, source⟩ := fits
      exact Option.isSome_iff_exists.mpr ⟨_, source⟩
  | link =>
      obtain ⟨_, _, _, _, source⟩ := fits
      exact Option.isSome_iff_exists.mpr ⟨_, source⟩
  | file =>
      obtain ⟨_, _, _, _, source, _⟩ := fits
      exact Option.isSome_iff_exists.mpr ⟨_, source⟩
  | white => exact absurd rfl upper

theorem mem_upperSteps_iff (job : Job α) {t : Step α} :
    t ∈ upperSteps job.toArgs ↔ t.kind ≠ .white ∧ t.Fits job.toArgs := by
  rw [upperSteps, List.mem_flatMap]
  constructor
  · rintro ⟨v, member, inside⟩
    obtain ⟨dir, listed⟩ := job.host.of_mem_osWalk job.upperDir member
    rw [listed, mem_upperVisitSteps_iff dir] at inside
    exact ⟨inside.1, inside.2.1⟩
  · rintro ⟨upper, fits⟩
    have dir := fits.parent.1 upper
    exact ⟨_, job.host.mem_osWalk dir, (mem_upperVisitSteps_iff dir).mpr ⟨upper, fits, rfl⟩⟩

theorem mem_lowerSteps_iff (job : Job α) {t : Step α} :
    t ∈ lowerSteps job.toArgs ↔ t.kind = .white ∧ t.Fits job.toArgs := by
  rw [lowerSteps, List.mem_flatMap]
  constructor
  · rintro ⟨v, member, inside⟩
    obtain ⟨dir, listed⟩ := job.host.of_mem_osWalk job.lowerDir member
    rw [listed, mem_lowerVisitSteps_iff dir] at inside
    exact ⟨inside.1, inside.2.1⟩
  · rintro ⟨white, fits⟩
    have dir := fits.parent.2 white
    exact ⟨_, job.host.mem_osWalk dir, (mem_lowerVisitSteps_iff dir).mpr ⟨white, fits, rfl⟩⟩

theorem mem_steps_iff (job : Job α) {t : Step α} : t ∈ steps job.toArgs ↔ t.Fits job.toArgs := by
  rw [steps, List.mem_append, mem_upperSteps_iff, mem_lowerSteps_iff]
  constructor
  · rintro (⟨_, fits⟩ | ⟨_, fits⟩) <;> exact fits
  · intro fits
    by_cases white : t.kind = .white
    · exact Or.inr ⟨white, fits⟩
    · exact Or.inl ⟨white, fits⟩

/-! ## No path comes up twice in a walk -/

theorem sorted_nodup (fs : FileSystem α) (top p : Path α) :
    let sorted := sortVisit fs top (fs.visit top p)
    (sorted.realDirs ++ sorted.realLinks ++ sorted.realFiles).Nodup := by
  let link := fun rel : Path α => fs.islink (textOf (rel ++ top))
  let isdir := fun n => fs.isdir (textOf (n :: (p ++ top)))
  let dirs := ((fs.listdir (p ++ top)).filter isdir).map fun n => n :: p
  let files := ((fs.listdir (p ++ top)).filter fun n => !isdir n).map fun n => n :: p
  have names : (dirs ++ files).Nodup := by
    have split := List.filter_append_perm isdir (fs.listdir (p ++ top))
    change (List.map (fun n => n :: p) _ ++ List.map (fun n => n :: p) _).Nodup
    rw [← List.map_append]
    exact (split.nodup_iff.mpr (fs.listdir_nodup _)).map fun _ _ same => (List.cons.inj same).1
  change (dirs.filter (fun rel => !link rel) ++ (dirs.filter link ++ files.filter link) ++
    files.filter fun rel => !link rel).Nodup
  have perm : (dirs.filter (fun rel => !link rel) ++ (dirs.filter link ++ files.filter link) ++
      files.filter fun rel => !link rel).Perm (dirs ++ files) := by
    rw [← List.append_assoc, List.append_assoc]
    refine List.Perm.append (List.perm_append_comm.trans ?_) ?_
    · exact List.filter_append_perm link dirs
    · exact List.filter_append_perm link files
  exact perm.nodup_iff.mpr names

omit [DecidableEq α] in
theorem flatMap_steps_nodup {visits : List (Visit α)} {stepsOf : Visit α → List (Step α)}
    (apart : (visits.map Visit.rel).Nodup)
    (each : ∀ v ∈ visits, ((stepsOf v).map Step.rel).Nodup)
    (inside : ∀ v ∈ visits, ∀ t ∈ stepsOf v, t.rel.tail = v.rel) :
    ((visits.flatMap stepsOf).map Step.rel).Nodup := by
  rw [List.map_flatMap]
  refine List.nodup_flatMap.mpr ⟨each, ?_⟩
  refine (List.pairwise_map.mp apart).imp_of_mem fun {v w} atV atW differ rel one two => ?_
  obtain ⟨t, inV, rfl⟩ := List.mem_map.mp one
  obtain ⟨u, inW, same⟩ := List.mem_map.mp two
  have tails := inside w atW u inW
  rw [same, inside v atV t inV] at tails
  exact differ tails

theorem upperSteps_nodup (job : Job α) : ((upperSteps job.toArgs).map Step.rel).Nodup := by
  refine flatMap_steps_nodup job.host.osWalkFrom_nodup (fun v member => ?_) fun v member t inside => ?_
  · obtain ⟨_, listed⟩ := job.host.of_mem_osWalk job.upperDir member
    have nodup := sorted_nodup job.host job.upper v.rel
    rw [← listed] at nodup
    simpa [upperVisitSteps, Function.comp_def] using nodup
  · obtain ⟨dir, listed⟩ := job.host.of_mem_osWalk job.upperDir member
    rw [listed] at inside
    exact ((mem_upperVisitSteps_iff dir).mp inside).2.2

theorem lowerSteps_nodup (job : Job α) : ((lowerSteps job.toArgs).map Step.rel).Nodup := by
  refine flatMap_steps_nodup job.host.osWalkFrom_nodup (fun v member => ?_) fun v member t inside => ?_
  · obtain ⟨_, listed⟩ := job.host.of_mem_osWalk job.lowerDir member
    have nodup := sorted_nodup job.host job.lower v.rel
    rw [← listed] at nodup
    simpa [lowerVisitSteps, Function.comp_def] using nodup
  · obtain ⟨dir, listed⟩ := job.host.of_mem_osWalk job.lowerDir member
    rw [listed] at inside
    exact ((mem_lowerVisitSteps_iff dir).mp inside).2.2

/-- If a path comes up twice, then once in each walk. -/
theorem steps_apart (job : Job α) {done rest : List (Step α)} {t t' : Step α}
    (split : steps job.toArgs = done ++ t :: rest) (before : t' ∈ done) (same : t'.rel = t.rel) :
    ¬ (t'.kind = .white ↔ t.kind = .white) := by
  let key : Step α → Bool × Path α := fun t => (t.kind = .white, t.rel)
  have nodup : ((steps job.toArgs).map key).Nodup := by
    rw [steps, List.map_append]
    have rels : ∀ list : List (Step α), (list.map key).map Prod.snd = list.map Step.rel :=
      fun list => by rw [List.map_map]; rfl
    refine List.nodup_append.mpr ⟨.of_map Prod.snd (rels _ ▸ upperSteps_nodup job),
      .of_map Prod.snd (rels _ ▸ lowerSteps_nodup job), fun one inUpper two inLower equal => ?_⟩
    obtain ⟨u, atUpper, rfl⟩ := List.mem_map.mp inUpper
    obtain ⟨w, atLower, rfl⟩ := List.mem_map.mp inLower
    have upper := ((mem_upperSteps_iff job).mp atUpper).1
    have white := ((mem_lowerSteps_iff job).mp atLower).1
    exact upper (of_decide_eq_true ((congrArg Prod.fst equal).trans (decide_eq_true white)))
  rw [split, List.map_append, List.map_cons] at nodup
  intro kinds
  have equal : key t' = key t := Prod.ext (decide_eq_decide.mpr kinds) same
  exact (List.nodup_append.mp nodup).2.2 _ (List.mem_map_of_mem before) _ List.mem_cons_self equal

end GnomeBuildMeta.Layer.MakeLayer
