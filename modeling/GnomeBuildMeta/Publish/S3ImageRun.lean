import GnomeBuildMeta.Control.Run
import GnomeBuildMeta.Publish.S3Image
import Mathlib.Order.Defs.LinearOrder

/-!
# The latest nightly

Whatever the order of the steps, a pointer names an ISO that is there as a
whole.  Which one it names in the end depends on who wrote last, and nothing
holds back a job of an old version.
-/

namespace GnomeBuildMeta.Publish.S3Image

open Control

variable {J : Type} [DecidableEq J] {jobs : J → Env}

/-! ## One step -/

/-- What a step can do to the bucket and to its job. -/
theorem act_cases {action : Action} {b b' : Bucket} {p p' : Progress}
    (acts : act action b p = some (b', p')) :
    (∃ path rest, action = .startUpload ∧ p = ⟨.uploadIso path :: rest, false⟩ ∧ b' = b ∧
      p' = ⟨.uploadIso path :: rest, true⟩) ∨
    (∃ path rest, action = .finishUpload ∧ p = ⟨.uploadIso path :: rest, true⟩ ∧
      b' = { b with isos := path :: b.isos } ∧ p' = ⟨rest, false⟩) ∨
    ∃ name path rest, action = .write ∧ p = ⟨.writePointer name path :: rest, false⟩ ∧
      b' = { b with pointers := Function.update b.pointers name (some path) } ∧
        p' = ⟨rest, false⟩ := by
  unfold act at acts
  split at acts
  · cases acts
    exact Or.inl ⟨_, _, rfl, rfl, rfl, rfl⟩
  · cases acts
    exact Or.inr (Or.inl ⟨_, _, rfl, rfl, rfl, rfl⟩)
  · cases acts
    exact Or.inr (Or.inr ⟨_, _, _, rfl, rfl, rfl, rfl⟩)
  · cases acts

theorem step_cases {s s' : System J} {e : Event J} (step : s.Step e s') :
    ∃ b p, act e.action s.bucket (s.progress e.job) = some (b, p) ∧
      s' = ⟨b, Function.update s.progress e.job p⟩ := by
  obtain ⟨⟨b, p⟩, acts, rfl⟩ := Option.map_eq_some_iff.mp step
  exact ⟨b, p, acts, rfl⟩

/-! ## What the pointers name -/

/-- Every pointer names an ISO that is there. -/
def Bucket.Sound (b : Bucket) : Prop := ∀ name path, b.pointers name = some path → path ∈ b.isos

/-- What the remaining commands point to is there or uploaded first. -/
def Ready (isos : List Text) : List Command → Prop
  | [] => True
  | .uploadIso path :: rest => Ready (path :: isos) rest
  | .writePointer _ path :: rest => path ∈ isos ∧ Ready isos rest

theorem Ready.mono {isos isos' : List Text} (more : isos ⊆ isos') {commands : List Command}
    (ready : Ready isos commands) : Ready isos' commands := by
  induction commands generalizing isos isos' with
  | nil => trivial
  | cons command rest ih =>
      cases command with
      | uploadIso path => exact ih (List.cons_subset_cons path more) ready
      | writePointer name path => exact ⟨more ready.1, ih more ready.2⟩

theorem ready_script (isos : List Text) (e : Env) : Ready isos (script e) := by
  unfold script
  split
  · trivial
  · split
    · exact ⟨List.mem_cons_self, trivial⟩
    · split
      · split
        · exact ⟨List.mem_cons_self, trivial⟩
        · trivial
      · trivial

structure Consistent (s : System J) : Prop where
  sound : s.bucket.Sound
  ready : ∀ j, Ready s.bucket.isos (s.progress j).remaining

omit [DecidableEq J] in
theorem Consistent.start {b : Bucket} (sound : b.Sound) : Consistent (.start jobs b) :=
  ⟨sound, fun j => ready_script _ (jobs j)⟩

theorem Consistent.step {s s' : System J} {e : Event J} (consistent : Consistent s)
    (step : s.Step e s') : Consistent s' := by
  obtain ⟨b, p, acts, rfl⟩ := step_cases step
  have own := consistent.ready e.job
  -- The job that acts, and all others with the ISOs that are there now.
  have jobs : ∀ {isos}, s.bucket.isos ⊆ isos → Ready isos p.remaining → ∀ j,
      Ready isos (Function.update s.progress e.job p j).remaining := by
    intro isos more ready j
    by_cases same : j = e.job
    · subst same
      rwa [Function.update_self]
    · rw [Function.update_of_ne same]
      exact (consistent.ready j).mono more
  rcases act_cases acts with ⟨path, rest, _, before, rfl, rfl⟩ |
    ⟨path, rest, _, before, rfl, rfl⟩ | ⟨name, path, rest, _, before, rfl, rfl⟩
  · rw [before] at own
    exact ⟨consistent.sound, jobs (List.Subset.refl _) own⟩
  · rw [before] at own
    refine ⟨fun other target points => ?_, jobs (List.subset_cons_self _ _) own⟩
    exact List.mem_cons_of_mem _ (consistent.sound other target points)
  · rw [before] at own
    refine ⟨fun other target points => ?_, jobs (List.Subset.refl _) own.2⟩
    change Function.update s.bucket.pointers name (some path) other = some target at points
    by_cases same : other = name
    · subst same
      rw [Function.update_self] at points
      cases points
      exact own.1
    · rw [Function.update_of_ne same] at points
      exact consistent.sound other target points

/-! ## Nightly jobs -/

structure Env.Nightly (e : Env) : Prop where
  noMergeRequest : e.mergeRequestIid = []
  noTag : e.commitTag = []
  refProtected : e.refProtected = "true".toList
  proper : e.refName ≠ []
  default : e.refName = e.defaultBranch

theorem Env.Nightly.script_eq {e : Env} (nightly : e.Nightly) :
    script e = [.uploadIso e.isoPath, .writePointer (latestName e.arch) e.isoPath] := by
  rw [script, if_neg (not_not.mpr nightly.noMergeRequest), if_neg (not_not.mpr nightly.noTag),
    if_pos nightly.refProtected, if_pos ⟨nightly.proper, nightly.default⟩]

theorem injective_between (before after : Text) :
    Function.Injective fun text : Text => before ++ text ++ after := by
  intro a b same
  exact List.append_cancel_left (List.append_cancel_right same)

theorem latestName_injective : Function.Injective latestName :=
  injective_between "latest-".toList "-live".toList

theorem eq_of_written_twice {before between after text text' : Text}
    (same : before ++ text ++ between ++ text ++ after = before ++ text' ++ between ++ text' ++ after) :
    text = text' := by
  have lengths := congrArg List.length same
  simp only [List.length_append] at lengths
  simp only [List.append_assoc, List.append_cancel_left_eq] at same
  exact (List.append_inj same (by omega)).1

theorem imageVersion_of_isoPath {e e' : Env} (sameArch : e.arch = e'.arch)
    (same : e.isoPath = e'.isoPath) : e.imageVersion = e'.imageVersion := by
  unfold Env.isoPath at same
  rw [sameArch] at same
  have withArch := List.append_cancel_right same
  have withVersion := List.append_cancel_right withArch
  exact eq_of_written_twice withVersion

/-- How far a nightly job can be. -/
inductive Stage (e : Env) (wrote : Prop) : Progress → Prop where
  | before (uploading : Bool) (notYet : ¬ wrote) : Stage e wrote
      ⟨[.uploadIso e.isoPath, .writePointer (latestName e.arch) e.isoPath], uploading⟩
  | uploaded (notYet : ¬ wrote) : Stage e wrote
      ⟨[.writePointer (latestName e.arch) e.isoPath], false⟩
  | done (already : wrote) : Stage e wrote ⟨[], false⟩

/-- The jobs that have overwritten the pointer of an architecture, in order. -/
def writers (jobs : J → Env) (arch : Text) (es : List (Event J)) : List J :=
  (es.filter fun e => e.action = .write ∧ (jobs e.job).arch = arch).map Event.job

omit [DecidableEq J] in
theorem writers_of_write {arch : Text} {es : List (Event J)} {e : Event J}
    (writes : e.action = .write) (same : (jobs e.job).arch = arch) :
    writers jobs arch (es ++ [e]) = writers jobs arch es ++ [e.job] := by
  rw [writers, List.filter_append, List.map_append, List.filter_cons_of_pos (by simp [writes, same])]
  rfl

omit [DecidableEq J] in
theorem writers_of_other {arch : Text} {es : List (Event J)} {e : Event J}
    (other : ¬ (e.action = .write ∧ (jobs e.job).arch = arch)) :
    writers jobs arch (es ++ [e]) = writers jobs arch es := by
  rw [writers, List.filter_append, List.map_append, List.filter_cons_of_neg (by simpa using other)]
  simp [writers]

/-- What a run of nightly jobs leaves. -/
structure Written (jobs : J → Env) (b : Bucket) (es : List (Event J)) (s : System J) : Prop where
  stage : ∀ j, Stage (jobs j) (⟨j, .write⟩ ∈ es) (s.progress j)
  /-- The last one that wrote is named. -/
  latest : ∀ arch, s.bucket.pointers (latestName arch) =
    match (writers jobs arch es).getLast? with
    | some j => some (jobs j).isoPath
    | none => b.pointers (latestName arch)

omit [DecidableEq J] in
theorem Written.start (jobs : J → Env) (nightly : ∀ j, (jobs j).Nightly) (b : Bucket) :
    Written jobs b [] (.start jobs b) where
  stage j := by
    change Stage _ _ ⟨script (jobs j), false⟩
    rw [(nightly j).script_eq]
    exact .before false (List.not_mem_nil)
  latest _ := rfl

theorem Written.step {b : Bucket} {es : List (Event J)} {s s' : System J} {e : Event J}
    (written : Written jobs b es s) (step : s.Step e s') : Written jobs b (es ++ [e]) s' := by
  obtain ⟨b', p, acts, rfl⟩ := step_cases step
  have own := written.stage e.job
  have stage : Stage (jobs e.job) (⟨e.job, .write⟩ ∈ es ++ [e]) p → ∀ j,
      Stage (jobs j) (⟨j, .write⟩ ∈ es ++ [e]) (Function.update s.progress e.job p j) := by
    intro own j
    by_cases same : j = e.job
    · subst same
      rwa [Function.update_self]
    · have later : (⟨j, .write⟩ ∈ es ++ [e]) ↔ ⟨j, .write⟩ ∈ es := by
        rw [List.mem_append, List.mem_singleton, or_iff_left]
        rintro rfl
        exact same rfl
      rw [Function.update_of_ne same, propext later]
      exact written.stage j
  have notYet : e.action ≠ .write → ((⟨e.job, .write⟩ ∈ es ++ [e]) ↔ ⟨e.job, .write⟩ ∈ es) := by
    intro other
    rw [List.mem_append, List.mem_singleton, or_iff_left]
    intro same
    exact other (congrArg Event.action same).symm
  have unchanged : e.action ≠ .write → ∀ arch, writers jobs arch (es ++ [e]) = writers jobs arch es :=
    fun other _ => writers_of_other fun writes => other writes.1
  rcases act_cases acts with ⟨path, rest, starts, before, rfl, rfl⟩ |
    ⟨path, rest, finishes, before, rfl, rfl⟩ | ⟨name, path, rest, writes, before, rfl, rfl⟩
  · have other : e.action ≠ .write := by simp [starts]
    rw [before] at own
    refine ⟨stage ?_, fun arch => ?_⟩
    · rw [propext (notYet other)]
      cases own with
      | before _ absent => exact .before true absent
    · rw [unchanged other]
      exact written.latest arch
  · have other : e.action ≠ .write := by simp [finishes]
    rw [before] at own
    refine ⟨stage ?_, fun arch => ?_⟩
    · rw [propext (notYet other)]
      cases own with
      | before _ absent => exact .uploaded absent
    · rw [unchanged other]
      exact written.latest arch
  · rw [before] at own
    cases own with
    | uploaded _ =>
        refine ⟨stage (.done ?_), fun arch => ?_⟩
        · rw [← writes]
          exact List.mem_append_right _ List.mem_cons_self
        · change Function.update s.bucket.pointers (latestName (jobs e.job).arch) _ _ = _
          by_cases same : (jobs e.job).arch = arch
          · rw [writers_of_write writes same, List.getLast?_concat, ← same, Function.update_self]
          · rw [writers_of_other fun both => same both.2, ← written.latest arch,
              Function.update_of_ne fun equal => same (latestName_injective equal).symm]

/-! ## Whole runs -/

theorem consistent_of_run {b : Bucket} (sound : b.Sound) {es : List (Event J)} {s : System J}
    (run : Run System.Step (.start jobs b) es s) : Consistent s :=
  run.invariant (I := fun _ s => Consistent s) (.start sound)
    fun _ _ _ _ consistent step => consistent.step step

theorem written_of_run {b : Bucket} (nightly : ∀ j, (jobs j).Nightly) {es : List (Event J)}
    {s : System J} (run : Run System.Step (.start jobs b) es s) : Written jobs b es s :=
  run.invariant (Written.start jobs nightly b) fun _ _ _ _ written step => written.step step

/-- After `j` no job of its architecture overwrites the pointer. -/
def WritesLast (jobs : J → Env) (j : J) (es : List (Event J)) : Prop :=
  ∃ pre post, es = pre ++ ⟨j, .write⟩ :: post ∧
    ∀ e ∈ post, e.action = .write → (jobs e.job).arch ≠ (jobs j).arch

omit [DecidableEq J] in
theorem getLast?_writers_iff {es : List (Event J)} {j : J} :
    (writers jobs (jobs j).arch es).getLast? = some j ↔ WritesLast jobs j es := by
  induction es using List.reverseRecOn with
  | nil =>
      constructor
      · intro impossible
        cases impossible
      · rintro ⟨pre, post, split, _⟩
        exact absurd split.symm (by simp)
  | append_singleton es e ih =>
      by_cases writes : e.action = .write ∧ (jobs e.job).arch = (jobs j).arch
      · rw [writers_of_write writes.1 writes.2, List.getLast?_concat, Option.some_inj]
        constructor
        · rintro rfl
          refine ⟨es, [], ?_, fun _ impossible => (nomatch impossible)⟩
          rw [← writes.1]
        · rintro ⟨pre, post, split, others⟩
          rcases snoc_eq_append_cons split with ⟨_, _, same⟩ | ⟨post', rfl, _⟩
          · exact (congrArg Event.job same).symm
          · exact absurd writes.2 (others e (by simp) writes.1)
      · rw [writers_of_other writes, ih]
        constructor
        · rintro ⟨pre, post, rfl, others⟩
          refine ⟨pre, post ++ [e], by simp, fun x member isWrite sameArch => ?_⟩
          rcases List.mem_append.mp member with inPost | last
          · exact others x inPost isWrite sameArch
          · rw [List.mem_singleton.mp last] at isWrite sameArch
            exact writes ⟨isWrite, sameArch⟩
        · rintro ⟨pre, post, split, others⟩
          rcases snoc_eq_append_cons split with ⟨_, _, same⟩ | ⟨post', rfl, rfl⟩
          · rw [← same] at writes
            exact absurd ⟨rfl, rfl⟩ writes
          · exact ⟨pre, post', rfl, fun x inside => others x (List.mem_append_left _ inside)⟩

/-- In the end the pointer names the ISO of the job that wrote last. -/
theorem latest_eq_iff {b : Bucket} (nightly : ∀ j, (jobs j).Nightly) {es : List (Event J)}
    {s : System J} (run : Run System.Step (.start jobs b) es s) (finished : s.Finished) {top : J}
    (distinct : ∀ j, (jobs j).arch = (jobs top).arch →
      (jobs j).imageVersion = (jobs top).imageVersion → j = top) :
    s.bucket.pointers (latestName (jobs top).arch) = some (jobs top).isoPath ↔
      WritesLast jobs top es := by
  have written := written_of_run nightly run
  have wrote : ⟨top, .write⟩ ∈ es := by
    have stage := written.stage top
    rw [finished top] at stage
    cases stage with
    | done wrote => exact wrote
  rw [written.latest, ← getLast?_writers_iff]
  cases last : (writers jobs (jobs top).arch es).getLast? with
  | none =>
      have listed : top ∈ writers jobs (jobs top).arch es :=
        List.mem_map.mpr ⟨⟨top, .write⟩, List.mem_filter.mpr ⟨wrote, by simp⟩, rfl⟩
      rw [List.getLast?_eq_none_iff] at last
      rw [last] at listed
      cases listed
  | some j =>
      have sameArch : (jobs j).arch = (jobs top).arch := by
        obtain ⟨e, filtered, rfl⟩ := List.mem_map.mp (List.mem_of_getLast? last)
        have both := (List.mem_filter.mp filtered).2
        rw [decide_eq_true_eq] at both
        exact both.2
      dsimp only
      rw [Option.some_inj, Option.some_inj]
      constructor
      · exact fun samePath => distinct j sameArch (imageVersion_of_isoPath sameArch samePath)
      · exact fun same => by rw [same]

/-- No job of the same architecture has a higher version. -/
def Highest {V : Type} [LinearOrder V] (version : Text → V) (jobs : J → Env) (top : J) : Prop :=
  ∀ j, (jobs j).arch = (jobs top).arch →
    version (jobs j).imageVersion ≤ version (jobs top).imageVersion

/-- The pointers always name whole ISOs, and in the end those of the highest versions
if and only if their jobs are the last to overwrite them. -/
theorem latest_names_highest_iff {V : Type} [LinearOrder V] {version : Text → V} {b : Bucket}
    (sound : b.Sound) (nightly : ∀ j, (jobs j).Nightly)
    (ordered : ∀ j k, j ≠ k → (jobs j).arch = (jobs k).arch →
      version (jobs j).imageVersion ≠ version (jobs k).imageVersion)
    {es : List (Event J)} {s : System J} (run : Run System.Step (.start jobs b) es s) :
    s.bucket.Sound ∧ (s.Finished →
      ((∀ top, Highest version jobs top →
          s.bucket.pointers (latestName (jobs top).arch) = some (jobs top).isoPath) ↔
        ∀ top, Highest version jobs top → WritesLast jobs top es)) := by
  refine ⟨(consistent_of_run sound run).sound, fun finished => ?_⟩
  have distinct : ∀ top j, (jobs j).arch = (jobs top).arch →
      (jobs j).imageVersion = (jobs top).imageVersion → j = top := by
    intro top j sameArch sameVersion
    by_contra other
    exact ordered j top other sameArch (congrArg version sameVersion)
  exact forall₂_congr fun top _ => latest_eq_iff nightly run finished (distinct top)

/-! ## Two nightlies -/

/-- The nightlies of two days, by the digit of the day. -/
def twoNightlies (later : Bool) : Env where
  mergeRequestIid := []
  commitTag := []
  refProtected := "true".toList
  refName := "master".toList
  defaultBranch := "master".toList
  imageVersion := "nightly.2026010".toList ++ (if later then ['2'] else ['1']) ++ ".0".toList
  pipelineId := ['1']
  arch := "x86_64".toList

/-- The last digit of the day. -/
def dayDigit (version : Text) : Nat := ((version.drop 15).headD '0').toNat

theorem twoNightlies_nightly (later : Bool) : (twoNightlies later).Nightly :=
  ⟨rfl, rfl, rfl, show "master".toList ≠ [] by decide, rfl⟩

theorem twoNightlies_ordered : ∀ j k, j ≠ k → (twoNightlies j).arch = (twoNightlies k).arch →
    dayDigit (twoNightlies j).imageVersion ≠ dayDigit (twoNightlies k).imageVersion := by
  decide +kernel

def emptyBucket : Bucket := ⟨[], fun _ => none⟩

/-- One job after the other. -/
def inOrder : List (Event Bool) :=
  [⟨false, .startUpload⟩, ⟨false, .finishUpload⟩, ⟨false, .write⟩,
    ⟨true, .startUpload⟩, ⟨true, .finishUpload⟩, ⟨true, .write⟩]

/-- The older job is overtaken. -/
def overtaken : List (Event Bool) :=
  [⟨false, .startUpload⟩, ⟨true, .startUpload⟩, ⟨true, .finishUpload⟩, ⟨true, .write⟩,
    ⟨false, .finishUpload⟩, ⟨false, .write⟩]

/-- The last job to write is that of the later day. -/
theorem inOrder_names_highest : ∃ s, Run System.Step (.start twoNightlies emptyBucket) inOrder s ∧
    s.bucket.Sound ∧ ∀ top, Highest dayDigit twoNightlies top →
      s.bucket.pointers (latestName (twoNightlies top).arch) = some (twoNightlies top).isoPath := by
  have evaluated : (inOrder.foldlM System.next (.start twoNightlies emptyBucket)).any (fun s =>
      ∀ j, s.progress j = ⟨[], false⟩) = true := by decide +kernel
  obtain ⟨s, computed, finished⟩ := (Option.any_eq_true _ _).mp evaluated
  have run : Run System.Step (.start twoNightlies emptyBucket) inOrder s := .of_foldlM computed
  have sound : emptyBucket.Sound := fun _ _ impossible => nomatch impossible
  obtain ⟨whole, names⟩ :=
    latest_names_highest_iff sound twoNightlies_nightly twoNightlies_ordered run
  have ended : ∀ j, s.progress j = ⟨[], false⟩ := of_decide_eq_true finished
  refine ⟨s, run, whole, (names ended).mpr fun top highest => ?_⟩
  have later : top = true := by
    cases top with
    | true => rfl
    | false => exact absurd (highest true rfl) (by decide +kernel)
  rw [later]
  exact ⟨inOrder.dropLast, [], rfl, fun _ impossible => nomatch impossible⟩

/-- Here the older one is, and the pointer goes back to it. -/
theorem overtaken_names_older : ∃ s, Run System.Step (.start twoNightlies emptyBucket) overtaken s ∧
    s.Finished ∧ Highest dayDigit twoNightlies true ∧
      s.bucket.pointers (latestName (twoNightlies true).arch) = some (twoNightlies false).isoPath ∧
        (twoNightlies false).isoPath ≠ (twoNightlies true).isoPath := by
  have evaluated : (overtaken.foldlM System.next (.start twoNightlies emptyBucket)).any (fun s =>
      decide (∀ j, s.progress j = ⟨[], false⟩) && decide (s.bucket.pointers (latestName (twoNightlies true).arch) =
        some (twoNightlies false).isoPath)) = true := by decide +kernel
  have highest : ∀ j, (twoNightlies j).arch = (twoNightlies true).arch →
      dayDigit (twoNightlies j).imageVersion ≤ dayDigit (twoNightlies true).imageVersion := by
    decide +kernel
  obtain ⟨s, computed, facts⟩ := (Option.any_eq_true _ _).mp evaluated
  obtain ⟨finished, names⟩ := Bool.and_eq_true_iff.mp facts
  have ended : ∀ j, s.progress j = ⟨[], false⟩ := of_decide_eq_true finished
  exact ⟨s, .of_foldlM computed, ended, highest, of_decide_eq_true names, by decide +kernel⟩

end GnomeBuildMeta.Publish.S3Image
