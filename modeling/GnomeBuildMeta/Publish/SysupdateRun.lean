import GnomeBuildMeta.Control.Run
import GnomeBuildMeta.Publish.Sysupdate
import Mathlib.Data.Fintype.Basic

/-!
# Concurrent publications

The common checksums are read, merged and written back without a lock.  A job
that writes back what is outdated by then drops the lines of another one, and
the two files of the pair may come from different jobs.
-/

namespace GnomeBuildMeta.Publish

open GnomeBuildMeta.Control

/-! ## The steps of one job -/

/-- The actions in the order of the script, with what they do to the bucket. -/
inductive Job.Acts (j : Job) (now : Nat) (b : Bucket) :
    Action → Progress → Bucket → Progress → Prop where
  | compareVersion :
      j.Acts now b .compareVersion .built b
        (if needsCopy Sums.size j.sums (b.versions.lookup j.version) then .syncing else .uploaded)
  | uploadVersion :
      j.Acts now b .uploadVersion .syncing
        { b with versions := b.versions.insert j.version ⟨j.sums.content, now⟩ } .uploaded
  | list :
      j.Acts now b .list .uploaded b
        (.downloading b.versions.keys (AList.insert j.version j.sums.content ∅))
  | download {version : String} {file : Stored Sums} {listed : List String}
      {versions : Versions Sums} (found : b.versions.lookup version = some file)
      (member : version ∈ listed) :
      j.Acts now b (.download version) (.downloading listed versions) b
        (.downloading (listed.erase version) (versions.insert version file.content))
  | sign {versions : Versions Sums} :
      j.Acts now b .sign (.downloading [] versions) b
        (.signed ⟨versions, ⟨cat versions, now⟩, ⟨⟨cat versions, j.signatureSize⟩, now⟩⟩)
  | compareSums {images : UpdateImages} :
      j.Acts now b .compareSums (.signed images) b
        (.publish images (needsCopy Sums.size images.sums b.sums)
          (needsCopy Signature.size images.gpg b.gpg))
  | uploadSums {images : UpdateImages} {gpg : Bool} :
      j.Acts now b .uploadSums (.publishing images true gpg)
        { b with sums := some ⟨images.sums.content, now⟩ } (.publish images false gpg)
  | uploadGpg {images : UpdateImages} {sums : Bool} :
      j.Acts now b .uploadGpg (.publishing images sums true)
        { b with gpg := some ⟨images.gpg.content, now⟩ } (.publish images sums false)

theorem Job.acts_of_act {j : Job} {now : Nat} {a : Action} {b b' : Bucket}
    {progress progress' : Progress} (acted : j.act now a b progress = some (b', progress')) :
    j.Acts now b a progress b' progress' := by
  unfold Job.act at acted
  split at acted
  case h_4 =>
      split at acted
      · rename_i found
        split at acted
        · rename_i member
          cases acted
          exact .download found member
        · cases acted
      · cases acted
  case h_9 => cases acted
  all_goals
    cases acted
    constructor

/-! ## What a job relies on -/

/-- The version file of the job is in the bucket, with all its lines. -/
def Bucket.Stores (b : Bucket) (j : Job) : Prop :=
  ∃ file, b.versions.lookup j.version = some file ∧ j.sums.content ⊆ file.content

/-- The published checksums have all lines of the job. -/
def Bucket.Lists (b : Bucket) (j : Job) : Prop :=
  ∃ sums, b.published = some sums ∧ j.sums.content ⊆ sums

/-- The pair that the job has made is its own concatenation with a signature of it. -/
structure UpdateImages.For (images : UpdateImages) (j : Job) : Prop where
  sums : images.sums.content = cat images.versions
  gpg : images.gpg.content.signed = images.sums.content
  own : j.sums.content ⊆ images.sums.content

def Job.Knows (j : Job) (b : Bucket) : Progress → Prop
  | .built | .syncing => True
  | .uploaded => b.Stores j
  | .downloading _ versions =>
      b.Stores j ∧ ∃ sums, versions.lookup j.version = some sums ∧ j.sums.content ⊆ sums
  | .signed images => b.Stores j ∧ images.For j
  | .publishing images sums _ => b.Stores j ∧ images.For j ∧ (sums = false → b.Lists j)
  | .done => b.Stores j ∧ b.Lists j

def Progress.hasUploaded : Progress → Bool
  | .built | .syncing => false
  | _ => true

/-- The published checksums are, or have been, those of the job. -/
def Progress.hasPublished : Progress → Bool
  | .publishing _ sums _ => !sums
  | .done => true
  | _ => false

theorem Job.Knows.stores {j : Job} {b : Bucket} {progress : Progress} (knows : j.Knows b progress)
    (uploaded : progress.hasUploaded = true) : b.Stores j := by
  cases progress with
  | built | syncing => cases uploaded
  | uploaded => exact knows
  | downloading | signed | publishing | done => exact knows.1

theorem Job.Knows.lists {j : Job} {b : Bucket} {progress : Progress} (knows : j.Knows b progress)
    (published : progress.hasPublished = true) : b.Lists j := by
  cases progress with
  | publishing images sums gpg => exact knows.2.2 (by simpa [Progress.hasPublished] using published)
  | done => exact knows.2
  | built | syncing | uploaded | downloading | signed => cases published

/-- What a job relies on stays as long as its lines do. -/
theorem Job.Knows.mono {j : Job} {b b' : Bucket} {progress : Progress} (knows : j.Knows b progress)
    (stores : progress.hasUploaded = true → b.Stores j → b'.Stores j)
    (lists : progress.hasPublished = true → b.Lists j → b'.Lists j) : j.Knows b' progress := by
  cases progress with
  | built | syncing => exact knows
  | uploaded => exact stores rfl knows
  | downloading | signed => exact ⟨stores rfl knows.1, knows.2⟩
  | publishing images sums gpg =>
      refine ⟨stores rfl knows.1, knows.2.1, fun out => ?_⟩
      exact lists (by simp [Progress.hasPublished, out]) (knows.2.2 out)
  | done => exact ⟨stores rfl knows.1, lists rfl knows.2⟩

theorem mem_cat {versions : Versions Sums} {line : String} :
    line ∈ cat versions ↔ ∃ version sums, versions.lookup version = some sums ∧ line ∈ sums := by
  simp only [cat, List.mem_flatMap, List.mem_insertionSort]
  constructor
  · rintro ⟨⟨version, sums⟩, member, inside⟩
    exact ⟨version, sums, AList.mem_lookup_iff.mpr member, inside⟩
  · rintro ⟨version, sums, found, inside⟩
    exact ⟨⟨version, sums⟩, AList.mem_lookup_iff.mp found, inside⟩

theorem subset_cat {versions : Versions Sums} {version : String} {sums : Sums}
    (found : versions.lookup version = some sums) : sums ⊆ cat versions :=
  fun _ inside => mem_cat.mpr ⟨version, sums, found, inside⟩

/-! ## Conditions on the steps -/

/--
What the job leaves out is in the bucket already, and the file that completes
the pair finds the other one as the job made it.
-/
def Job.Agrees (j : Job) (b : Bucket) : Action → Progress → Prop
  | .compareVersion, .built =>
      needsCopy Sums.size j.sums (b.versions.lookup j.version) = false → b.Stores j
  | .compareSums, .signed images =>
      needsCopy Sums.size images.sums b.sums = false →
        b.published = some images.sums.content ∧
          (needsCopy Signature.size images.gpg b.gpg = false →
            b.signed = some images.sums.content)
  | .uploadSums, .publishing images true false => b.signed = some images.sums.content
  | .uploadGpg, .publishing images false true => b.published = some images.sums.content
  | _, _ => True

/-- The two files of the pair belong together. -/
def Bucket.Paired (b : Bucket) : Prop := ∃ sums, b.published = some sums ∧ b.signed = some sums

theorem Job.Acts.knows {j : Job} {now : Nat} {a : Action} {b b' : Bucket}
    {progress progress' : Progress} (acts : j.Acts now b a progress b' progress')
    (agrees : j.Agrees b a progress) (knows : j.Knows b progress) : j.Knows b' progress' := by
  cases acts with
  | compareVersion =>
      cases copied : needsCopy Sums.size j.sums (b.versions.lookup j.version) with
      | true => exact True.intro
      | false => exact agrees copied
  | uploadVersion => exact ⟨_, AList.lookup_insert _, List.Subset.refl _⟩
  | list => exact ⟨knows, _, AList.lookup_insert _, List.Subset.refl _⟩
  | @download version file listed versions found member =>
      obtain ⟨⟨stored, there, own⟩, sums, here, included⟩ := knows
      refine ⟨⟨stored, there, own⟩, ?_⟩
      by_cases same : j.version = version
      · subst same
        cases there.symm.trans found
        exact ⟨_, AList.lookup_insert _, own⟩
      · exact ⟨sums, (AList.lookup_insert_ne same).trans here, included⟩
  | sign =>
      obtain ⟨stores, sums, here, included⟩ := knows
      exact ⟨stores, rfl, rfl, List.Subset.trans included (subset_cat here)⟩
  | @compareSums images =>
      obtain ⟨stores, made⟩ := knows
      have lists : needsCopy Sums.size images.sums b.sums = false → b.Lists j :=
        fun left => ⟨_, (agrees left).1, made.own⟩
      unfold Progress.publish
      split
      · exact ⟨stores, made, lists⟩
      · rename_i none'
        exact ⟨stores, lists (by simpa using (Bool.or_eq_false_iff.mp (by simpa using none')).1)⟩
  | @uploadSums images gpg =>
      obtain ⟨stores, made, _⟩ := knows
      cases gpg with
      | true => exact ⟨stores, made, fun _ => ⟨_, rfl, made.own⟩⟩
      | false => exact ⟨stores, _, rfl, made.own⟩
  | @uploadGpg images sums =>
      obtain ⟨stores, made, lists⟩ := knows
      cases sums with
      | true => exact ⟨stores, made, lists⟩
      | false => exact ⟨stores, lists rfl⟩

/-- A job that is done leaves a pair behind. -/
theorem Job.Acts.paired {j : Job} {now : Nat} {a : Action} {b b' : Bucket}
    {progress : Progress} (acts : j.Acts now b a progress b' .done)
    (agrees : j.Agrees b a progress) (knows : j.Knows b progress) : b'.Paired := by
  generalize ended : Progress.done = progress' at acts
  cases acts with
  | compareVersion => split at ended <;> cases ended
  | uploadVersion | list | download | sign => cases ended
  | @compareSums images =>
      unfold Progress.publish at ended
      split at ended
      · cases ended
      · rename_i none'
        obtain ⟨sums, gpg⟩ := Bool.or_eq_false_iff.mp (by simpa using none')
        exact ⟨_, (agrees sums).1, (agrees sums).2 gpg⟩
  | @uploadSums images gpg =>
      cases gpg with
      | true => cases ended
      | false => exact ⟨_, rfl, agrees⟩
  | @uploadGpg images sums =>
      cases sums with
      | true => cases ended
      | false =>
          refine ⟨_, agrees, ?_⟩
          rw [← knows.2.1.gpg]
          rfl

/-! ## All jobs -/

section Jobs

variable {J : Type} [DecidableEq J]

/--
A version file does not replace lines of another job, and the checksums are
written back only if the version files of the jobs that have published are
still as they were downloaded.
-/
def System.Spares (jobs : J → Job) (s : System J) (e : Event J) : Prop :=
  match e.action, s.progress e.job with
  | .uploadVersion, .syncing =>
      ∀ other, other ≠ e.job → (s.progress other).hasUploaded = true →
        (jobs other).version = (jobs e.job).version →
          (jobs other).sums.content ⊆ (jobs e.job).sums.content
  | .uploadSums, .publishing images true _ =>
      ∀ other, (s.progress other).hasPublished = true →
        ∀ file, s.bucket.versions.lookup (jobs other).version = some file →
          images.versions.lookup (jobs other).version = some file.content
  | _, _ => True

/-- A step that drops nothing and tears no pair apart. -/
structure System.CarefulStep (jobs : J → Job) (s : System J) (e : Event J) (s' : System J) :
    Prop where
  step : System.Step jobs s e s'
  agrees : (jobs e.job).Agrees s.bucket e.action (s.progress e.job)
  spares : s.Spares jobs e

/-- What every job relies on, and that a pair belongs together while nobody is at it. -/
structure System.Sound (jobs : J → Job) (s : System J) : Prop where
  knows : ∀ i, (jobs i).Knows s.bucket (s.progress i)
  paired : (∃ i, s.progress i = .done) →
    (∃ i images sums gpg, s.progress i = .publishing images sums gpg) ∨ s.bucket.Paired

/-- Once all jobs are done there is one pair, and it has the lines of every job. -/
def System.Complete (jobs : J → Job) (s : System J) : Prop :=
  (∀ i, s.progress i = .done) → ∀ i, ∃ sums, s.bucket.published = some sums ∧
    s.bucket.signed = some sums ∧ (jobs i).sums.content ⊆ sums

theorem System.Step.acts {jobs : J → Job} {s s' : System J} {e : Event J}
    (step : System.Step jobs s e s') :
    (jobs e.job).Acts e.now s.bucket e.action (s.progress e.job) s'.bucket (s'.progress e.job) ∧
      ∀ i, i ≠ e.job → s'.progress i = s.progress i := by
  unfold System.Step System.next at step
  split at step
  · rename_i b progress acted
    cases step
    refine ⟨?_, fun i foreign => Function.update_of_ne foreign ..⟩
    simpa using Job.acts_of_act acted
  · cases step

/-- A job that has published has uploaded before. -/
theorem Progress.hasUploaded_of_hasPublished {progress : Progress}
    (published : progress.hasPublished = true) : progress.hasUploaded = true := by
  cases progress with
  | publishing | done => rfl
  | built | syncing | uploaded | downloading | signed => cases published

omit [DecidableEq J] in
/-- The version file of another job keeps its lines. -/
theorem Job.Acts.stores_other {jobs : J → Job} {s : System J} {e : Event J} {b : Bucket}
    {progress : Progress}
    (acts : (jobs e.job).Acts e.now s.bucket e.action (s.progress e.job) b progress)
    (spares : s.Spares jobs e) {other : J} (foreign : other ≠ e.job)
    (uploaded : (s.progress other).hasUploaded = true) (stores : s.bucket.Stores (jobs other)) :
    b.Stores (jobs other) := by
  obtain ⟨i, now, a⟩ := e
  obtain ⟨bucket, progress'⟩ := s
  simp only at acts spares foreign uploaded stores
  generalize own : progress' i = before at acts
  cases acts with
  | compareVersion | list | download | sign | compareSums | uploadSums | uploadGpg => exact stores
  | uploadVersion =>
      simp only [System.Spares, own] at spares
      obtain ⟨file, found, included⟩ := stores
      by_cases same : (jobs other).version = (jobs i).version
      · rw [Bucket.Stores, same]
        exact ⟨_, AList.lookup_insert _, spares other foreign uploaded same⟩
      · exact ⟨file, (AList.lookup_insert_ne same).trans found, included⟩

omit [DecidableEq J] in
/-- The published checksums keep the lines of another job. -/
theorem Job.Acts.lists_other {jobs : J → Job} {s : System J} {e : Event J} {b : Bucket}
    {progress : Progress}
    (acts : (jobs e.job).Acts e.now s.bucket e.action (s.progress e.job) b progress)
    (spares : s.Spares jobs e) (knows : (jobs e.job).Knows s.bucket (s.progress e.job))
    {other : J} (published : (s.progress other).hasPublished = true)
    (stores : s.bucket.Stores (jobs other)) (lists : s.bucket.Lists (jobs other)) :
    b.Lists (jobs other) := by
  obtain ⟨i, now, a⟩ := e
  obtain ⟨bucket, progress'⟩ := s
  simp only at acts spares knows published stores lists
  generalize own : progress' i = before at acts knows
  cases acts with
  | compareVersion | uploadVersion | list | download | sign | compareSums | uploadGpg => exact lists
  | uploadSums =>
      simp only [System.Spares, own] at spares
      obtain ⟨file, found, included⟩ := stores
      refine ⟨_, rfl, List.Subset.trans included ?_⟩
      rw [knows.2.1.sums]
      exact subset_cat (spares other published file found)

/-- Only a job that publishes touches the pair, and it stays at it until it is done. -/
theorem Job.Acts.pair {j : Job} {now : Nat} {a : Action} {b b' : Bucket}
    {progress progress' : Progress} (acts : j.Acts now b a progress b' progress') :
    progress' = .done ∨ (∃ images sums gpg, progress' = .publishing images sums gpg) ∨
      (progress ≠ .done ∧ (∀ images sums gpg, progress ≠ .publishing images sums gpg) ∧
        progress' ≠ .done ∧ b'.sums = b.sums ∧ b'.gpg = b.gpg) := by
  have publish : ∀ images sums gpg, Progress.publish images sums gpg = .done ∨
      ∃ images' sums' gpg', Progress.publish images sums gpg = .publishing images' sums' gpg' := by
    intro images sums gpg
    unfold Progress.publish
    split
    · exact Or.inr ⟨images, sums, gpg, rfl⟩
    · exact Or.inl rfl
  cases acts with
  | compareSums | uploadSums | uploadGpg =>
      rcases publish _ _ _ with done | more
      · exact Or.inl done
      · exact Or.inr (Or.inl more)
  | compareVersion =>
      refine Or.inr (Or.inr ⟨nofun, nofun, ?_, rfl, rfl⟩)
      split <;> nofun
  | uploadVersion | list | download | sign =>
      exact Or.inr (Or.inr ⟨nofun, nofun, nofun, rfl, rfl⟩)

theorem System.CarefulStep.sound {jobs : J → Job} {s s' : System J} {e : Event J}
    (careful : System.CarefulStep jobs s e s') (sound : s.Sound jobs) : s'.Sound jobs := by
  obtain ⟨acts, others⟩ := careful.step.acts
  constructor
  · intro i
    by_cases own : i = e.job
    · subst own
      exact acts.knows careful.agrees (sound.knows e.job)
    · rw [others i own]
      have knows := sound.knows i
      exact knows.mono (acts.stores_other careful.spares own) fun published =>
        acts.lists_other careful.spares (sound.knows e.job) published
          (knows.stores (Progress.hasUploaded_of_hasPublished published))
  · rintro ⟨i, done⟩
    rcases acts.pair with own | ⟨images, sums, gpg, own⟩ | ⟨notDone, notAt, notDone', same, same'⟩
    · rw [own] at acts
      exact Or.inr (acts.paired careful.agrees (sound.knows e.job))
    · exact Or.inl ⟨e.job, images, sums, gpg, own⟩
    · have foreign : i ≠ e.job := by
        rintro rfl
        exact notDone' done
      rw [others i foreign] at done
      rcases sound.paired ⟨i, done⟩ with ⟨k, images, sums, gpg, at'⟩ | ⟨sums, published, signed⟩
      · refine Or.inl ⟨k, images, sums, gpg, ?_⟩
        rw [others k, at']
        rintro rfl
        exact notAt images sums gpg at'
      · refine Or.inr ⟨sums, ?_, ?_⟩
        · rw [← published, Bucket.published, Bucket.published, same]
        · rw [← signed, Bucket.signed, Bucket.signed, same']

theorem sound_of_run {jobs : J → Job} {b : Bucket} {trace : List (Event J)} {s : System J}
    (run : Run (System.CarefulStep jobs) (.start b) trace s) : s.Sound jobs := by
  refine run.invariant (I := fun _ s => s.Sound jobs) ?_ fun _ _ _ _ sound careful =>
    careful.sound sound
  exact ⟨fun _ => True.intro, fun ⟨_, done⟩ => nomatch done⟩

/-- However many jobs there are and however their steps are ordered. -/
theorem run_complete {jobs : J → Job} {b : Bucket} {trace : List (Event J)} {s : System J}
    (run : Run (System.CarefulStep jobs) (.start b) trace s) : s.Complete jobs := by
  have sound := sound_of_run run
  intro done i
  obtain ⟨sums, published, included⟩ : s.bucket.Lists (jobs i) :=
    (sound.knows i).lists (by rw [done i]; rfl)
  rcases sound.paired ⟨i, done i⟩ with ⟨k, images, sums', gpg, at'⟩ | ⟨sums', published', signed⟩
  · rw [done k] at at'
    cases at'
  · cases published.symm.trans published'
    exact ⟨sums, published, signed, included⟩

end Jobs

/-! ## The two jobs of a pipeline -/

instance (b : Bucket) (j : Job) : Decidable (b.Stores j) :=
  decidable_of_iff ((b.versions.lookup j.version).any fun file => j.sums.content ⊆ file.content) <| by
    simp [Bucket.Stores, Option.any_eq_true]

instance (j : Job) (b : Bucket) (a : Action) (progress : Progress) :
    Decidable (j.Agrees b a progress) := by
  unfold Job.Agrees
  split <;> infer_instance

instance {J : Type} [DecidableEq J] [Fintype J] (jobs : J → Job) (s : System J) (e : Event J) :
    Decidable (s.Spares jobs e) := by
  unfold System.Spares
  split <;> infer_instance

/-- The jobs of one pipeline, the one for `x86_64` and the one for `aarch64`. -/
def pipeline : Bool → Job
  | true => ⟨"nightly.20250101.0", "x86_64", ⟨["aa  usr_x86_64.raw.zst"], 0⟩, 119⟩
  | false => ⟨"nightly.20250101.0", "aarch64", ⟨["bb  usr_aarch64.raw.zst"], 0⟩, 119⟩

def emptyBucket : Bucket := ⟨∅, none, none⟩

/-- The events of a job up to its last download, the first of them at `now`. -/
def gather (job : Bool) (now : Nat) (listed : List Bool) : List (Event Bool) :=
  [⟨job, now, .compareVersion⟩, ⟨job, now + 1, .uploadVersion⟩, ⟨job, now + 2, .list⟩] ++
    listed.map fun other => ⟨job, now + 3, .download (pipeline other).version⟩

def replace (job : Bool) (now : Nat) : List (Event Bool) :=
  [⟨job, now, .sign⟩, ⟨job, now + 1, .compareSums⟩, ⟨job, now + 2, .uploadSums⟩,
    ⟨job, now + 3, .uploadGpg⟩]

/-- One job after the other. -/
def serial : List (Event Bool) :=
  gather true 10 [true] ++ replace true 20 ++ (gather false 30 [true, false] ++ replace false 40)

/-- The second job begins and ends between the downloads and the uploads of the first. -/
def nested : List (Event Bool) :=
  gather true 10 [true] ++ (gather false 20 [true, false] ++ replace false 30) ++ replace true 40

/-- The steps that are taken one after the other if they are careful. -/
def System.carefulNext (jobs : Bool → Job) (s : System Bool) (e : Event Bool) :
    Option (System Bool) :=
  if (jobs e.job).Agrees s.bucket e.action (s.progress e.job) ∧ s.Spares jobs e then s.next jobs e
  else none

theorem System.careful_of_carefulNext {jobs : Bool → Job} {s s' : System Bool} {e : Event Bool}
    (next : s.carefulNext jobs e = some s') : System.CarefulStep jobs s e s' := by
  unfold System.carefulNext at next
  split at next
  · rename_i careful
    exact ⟨next, careful.1, careful.2⟩
  · cases next

theorem serial_complete : ∃ s, Run (System.CarefulStep pipeline) (.start emptyBucket) serial s ∧
    (∀ i, s.progress i = .done) ∧ s.Complete pipeline := by
  have ends : (serial.foldlM (System.carefulNext pipeline) (.start emptyBucket)).any
      (fun s => decide (∀ i, s.progress i = .done)) = true := by decide
  obtain ⟨s, computed, done⟩ := (Option.any_eq_true _ _).mp ends
  have run := (Run.of_foldlM computed).mono fun _ _ _ => System.careful_of_carefulNext
  exact ⟨s, run, of_decide_eq_true done, run_complete run⟩

/-- Both jobs are done, and the lines of the second one are gone. -/
theorem nested_loses : ∃ s, Run (System.Step pipeline) (.start emptyBucket) nested s ∧
    ¬ s.Complete pipeline := by
  have ends : (nested.foldlM (System.next pipeline) (.start emptyBucket)).any
      (fun s => decide (∀ i, s.progress i = .done) &&
        decide (s.bucket.published = some (pipeline true).sums.content)) = true := by decide
  obtain ⟨s, computed, ended⟩ := (Option.any_eq_true _ _).mp ends
  obtain ⟨done, published⟩ := (Bool.and_eq_true _ _).mp ended
  refine ⟨s, Run.of_foldlM computed, fun complete => ?_⟩
  obtain ⟨sums, found, _, included⟩ := complete (of_decide_eq_true done) false
  cases found.symm.trans (of_decide_eq_true published)
  have lost : ¬ (pipeline false).sums.content ⊆ (pipeline true).sums.content := by decide
  exact lost included

end GnomeBuildMeta.Publish
