import GnomeBuildMeta.Control.Run
import GnomeBuildMeta.SecureVm.StateDir

/-!
# Calls of run-secure-vm.sh, one after the other

Whatever fails in a call or interrupts it, what the machine has written is lost
only where an option says so, and the machine is never started with half a
file where the script makes that file complete before it gives it its name.
-/

namespace GnomeBuildMeta.SecureVm

open Control Posix

/-! ## One stage -/

section Stage

variable {c : Call} {stage : Stage} {P : StateDir → Prop} {Q : Except Unit Unit → StateDir → Prop}

/-- A stage is skipped, done, not begun, or left after some bytes. -/
theorem stage_ensures (skipped : ∀ s, P s → c.wants s stage = false → Q (.ok ()) s)
    (done : ∀ s s', P s → c.wants s stage = true → c.whole s stage = some s' → Q (.ok ()) s')
    (failed : ∀ s, P s → Q (.error ()) s)
    (left : ∀ s n, P s → c.wants s stage = true → c.cut stage = some (some n) → Q (.error ()) (c.leaves n s stage)) :
    (c.stage stage).Ensures P Q := by
  intro s holds
  rw [Call.stage, Program.get_bind]
  cases wanted : c.wants s stage with
  | false => exact skipped s holds wanted
  | true =>
      rw [if_pos rfl]
      match stopped : c.cut stage with
      | none =>
          cases result : c.whole s stage with
          | none =>
              simp only [Program.change, result, Option.elim_none]
              exact failed s holds
          | some s' =>
              simp only [Program.change, result, Option.elim_some]
              exact done s s' holds wanted result
      | some none => exact failed s holds
      | some (some n) => exact left s n holds wanted stopped

theorem stage_keeps {I : StateDir → Prop}
    (done : ∀ s s', I s → c.wants s stage = true → c.whole s stage = some s' → I s')
    (left : ∀ s n, I s → c.wants s stage = true → c.cut stage = some (some n) → I (c.leaves n s stage)) :
    Program.Keeps I (c.stage stage) :=
  stage_ensures (fun _ holds _ => holds) done (fun _ holds => holds) left

/-- What holds when a stage ends without an error. -/
theorem stage_succeeds {R : StateDir → Prop} (skipped : ∀ s, P s → c.wants s stage = false → R s)
    (done : ∀ s s', P s → c.wants s stage = true → c.whole s stage = some s' → R s') :
    (c.stage stage).Ensures P fun result s => result.isOk = true → R s :=
  stage_ensures (fun s holds none' _ => skipped s holds none') (fun s s' holds wanted result _ => done s s' holds wanted result)
    (fun _ _ impossible => by cases impossible) fun _ _ _ _ _ impossible => by cases impossible

/-- What each stage keeps is kept up to the start of QEMU. -/
theorem prepare_keeps {I : StateDir → Prop} (each : ∀ stage, Program.Keeps I (c.stage stage)) :
    Program.Keeps I c.prepare :=
  (Program.Keeps.forM fun stage _ => each stage).bind fun _ =>
    (each .removeDisk).bind fun _ => (each .allocate).bind fun _ => (each .install).bind fun _ => each .truncate

end Stage

/-- What a stage has nothing to do with. -/
structure Frame (stage : Stage) (s s' : StateDir) : Prop where
  builds : stage ≠ .fetch → s'.builds = s.builds
  swtpm : stage ≠ .removeTpm → stage ≠ .startTpm → s'.swtpm = s.swtpm
  diskIso : stage ≠ .iso → s'.diskIso = s.diskIso
  ovmf : stage ≠ .ovmf → s'.ovmfCode = s.ovmfCode ∧ s'.ovmfVarsTemplate = s.ovmfVarsTemplate
  ovmfVars : stage ≠ .ovmfVars → s'.ovmfVars = s.ovmfVars
  diskImg : stage ∉ [.removeDisk, .allocate, .install, .truncate] → s'.diskImg = s.diskImg

theorem whole_frame {c : Call} {stage : Stage} {s s' : StateDir} (done : c.whole s stage = some s') :
    Frame stage s s' := by
  cases stage with
  | fetch | iso | ovmfVars =>
      obtain ⟨_, _, rfl⟩ := Option.map_eq_some_iff.mp done
      constructor <;> simp
  | removeTpm | startTpm | ovmf | removeDisk | allocate | truncate =>
      cases done
      constructor <;> simp
  | install =>
      rw [Call.whole] at done
      split at done
      · obtain ⟨_, _, rfl⟩ := Option.map_eq_some_iff.mp done
        constructor <;> simp
      · cases done
        constructor <;> simp

theorem leaves_frame (c : Call) (stage : Stage) (n : Nat) (s : StateDir) : Frame stage s (c.leaves n s stage) := by
  cases stage with
  | removeTpm | startTpm | iso | removeDisk | allocate | truncate => constructor <;> simp [Call.leaves]
  | fetch =>
      rw [Call.leaves]
      cases c.settings.buildid <;> constructor <;> simp
  | ovmfVars =>
      rw [Call.leaves]
      cases found : s.ovmfVarsTemplate <;> constructor <;> simp [found]
  | ovmf | install =>
      rw [Call.leaves]
      split <;> constructor <;> simp

/-! ## The primary disk -/

/-- The bytes of the primary disk, as far as the machine sees them. -/
def StateDir.data (s : StateDir) (i : Nat) : UInt8 :=
  if i < primarySize then s.diskImg.elim 0 fun d => d.read i else 0

theorem data_of_same {s s' : StateDir} (same : s'.diskImg = s.diskImg) : s'.data = s.data := by
  funext i
  rw [StateDir.data, StateDir.data, same]

theorem data_truncate (s : StateDir) :
    { s with diskImg := some ((s.diskImg.getD .empty).truncate primarySize) }.data = s.data := by
  funext i
  by_cases inside : i < primarySize
  · cases found : s.diskImg with
    | none => simp [StateDir.data, Disk.truncate, Disk.read, Disk.empty, inside, found]
    | some d => simp [StateDir.data, Disk.truncate, Disk.read, inside, found]
  · simp [StateDir.data, inside]

/-- The options of a call that give up what is on the primary disk. -/
def Settings.replacesDisk (o : Settings) : Bool :=
  o.resetInstalled || (o.live.isNone && (o.preInstall || o.fromImage))

/-- Without them the size is all that a stage changes. -/
theorem stage_data {c : Call} (keeps : c.settings.replacesDisk = false) (b : Nat → UInt8) (stage : Stage) :
    Program.Keeps (fun s => s.data = b) (c.stage stage) := by
  rw [Settings.replacesDisk, Bool.or_eq_false_iff] at keeps
  have other : ∀ {s s'}, c.wants s stage = true → stage ≠ .truncate → Frame stage s s' → s'.data = s.data := by
    intro s s' wanted noTruncate frame
    refine data_of_same (frame.diskImg fun inside => ?_)
    simp only [List.mem_cons, List.not_mem_nil, or_false] at inside
    rcases inside with rfl | rfl | rfl | rfl
    · rw [Call.wants, keeps.1] at wanted
      cases wanted
    · rw [Call.wants, Bool.and_eq_true] at wanted
      rw [wanted.1, wanted.2] at keeps
      cases keeps.2
    · rw [Call.wants, keeps.2] at wanted
      cases wanted
    · exact noTruncate rfl
  refine stage_keeps (fun s s' same wanted done => ?_) fun s n same wanted _ => ?_
  · by_cases last : stage = .truncate
    · subst last
      cases done
      exact (data_truncate s).trans same
    · exact (other wanted last (whole_frame done)).trans same
  · by_cases last : stage = .truncate
    · subst last
      exact same
    · exact (other wanted last (leaves_frame c stage n s)).trans same

/-- QEMU finds a disk of the full size. -/
def StateDir.Sized (s : StateDir) : Prop :=
  ∃ d, s.diskImg = some d ∧ d.size = primarySize ∧ d.bytes = s.data

theorem prepare_sized (c : Call) :
    c.prepare.Ensures (fun _ => True) fun result s => result.isOk = true → s.Sized := by
  refine Program.Ensures.bind_ok (R := fun _ => True) (fun _ _ _ => trivial) fun _ => ?_
  refine Program.Ensures.bind_ok (R := fun _ => True) (fun _ _ _ => trivial) fun _ => ?_
  refine Program.Ensures.bind_ok (R := fun _ => True) (fun _ _ _ => trivial) fun _ => ?_
  refine Program.Ensures.bind_ok (R := fun _ => True) (fun _ _ _ => trivial) fun _ => ?_
  refine stage_succeeds (fun s _ skipped => by cases skipped) fun s s' _ _ done => ?_
  cases done
  refine ⟨_, rfl, rfl, ?_⟩
  funext i
  by_cases inside : i < primarySize
  · simp [StateDir.data, Disk.truncate, Disk.read, inside]
  · simp [StateDir.data, Disk.truncate, inside]

/-! ## One call -/

/-- A call, and whether it has come to start QEMU. -/
structure Event where
  call : Call
  started : Bool

def Event.Step (s : StateDir) (e : Event) (s' : StateDir) : Prop :=
  e.started = (e.call.run s).1.isOk ∧ s' = (e.call.run s).2

/-- A call ends in what was prepared, or in what the machine has made of it. -/
theorem Event.Step.cases {s s' : StateDir} {e : Event} (step : Event.Step s e s') :
    if e.started then (e.call.prepare s).1.isOk = true ∧ s' = e.call.machine (e.call.prepare s).2
    else s' = (e.call.prepare s).2 := by
  obtain ⟨started, rfl⟩ := step
  have run : e.call.run s = Program.bind e.call.prepare (fun _ => Program.update e.call.machine) s := rfl
  rw [started, run]
  unfold Program.bind
  cases prepared : e.call.prepare s with
  | mk result w =>
      cases result with
      | ok _ => exact ⟨rfl, rfl⟩
      | error _ => rfl

/-- A property that the stages keep, and what the machine makes of it. -/
theorem Event.Step.follow {s s' : StateDir} {e : Event} (step : Event.Step s e s') {I J : StateDir → Prop}
    (kept : ∀ stage, Program.Keeps I (e.call.stage stage)) (holds : I s)
    (idle : e.started = false → ∀ w, I w → J w)
    (machine : e.started = true → ∀ w, I w → w.Sized → J (e.call.machine w)) : J s' := by
  have prepared : I (e.call.prepare s).2 := prepare_keeps kept s holds
  have cases' := step.cases
  cases started : e.started with
  | false =>
      rw [started, if_neg (by simp)] at cases'
      rw [cases']
      exact idle started _ prepared
  | true =>
      rw [started, if_pos rfl] at cases'
      rw [cases'.2]
      exact machine started _ prepared (prepare_sized e.call s trivial cases'.1)

namespace Event

/-- What the machine has written to the disk, if it was started. -/
def onDisk (b : Nat → UInt8) (e : Event) (i : Nat) : UInt8 :=
  if e.started then if i < primarySize then e.call.guest.disk b i else 0 else b i

def onOvmfVars (v : Bytes) (e : Event) : Bytes := if e.started then e.call.guest.ovmfVars v else v

def onSwtpm (t : List (Bytes × Bytes)) (e : Event) : List (Bytes × Bytes) :=
  if e.started && !e.call.settings.noTpm then e.call.guest.swtpm t else t

def onIso (d : Bytes) (e : Event) : Bytes :=
  if e.started && e.call.settings.live == some .disk then e.call.guest.iso d else d

end Event

section Steps

variable {s s' : StateDir} {e : Event}

theorem kept_of_frame {c : Call} {stage : Stage} {I : StateDir → Prop}
    (each : ∀ s s', I s → c.wants s stage = true → Frame stage s s' → I s') :
    Program.Keeps I (c.stage stage) :=
  stage_keeps (fun s s' holds wanted done => each s s' holds wanted (whole_frame done))
    fun s n holds wanted _ => each s _ holds wanted (leaves_frame c stage n s)

theorem step_data {b : Nat → UInt8} (step : Event.Step s e s') (keeps : e.call.settings.replacesDisk = false)
    (before : s.data = b) : s'.data = e.onDisk b := by
  refine step.follow (J := fun w => w.data = e.onDisk b) (stage_data keeps b) before ?_ ?_
  · intro idle w same
    funext i
    rw [same, Event.onDisk, if_neg (by simp [idle])]
  · rintro started w same ⟨d, found, size, bytes⟩
    funext i
    rw [Event.onDisk, if_pos started, StateDir.data, Call.machine]
    simp only [found, Option.map_some, Option.elim_some, Disk.read, size, bytes, same]
    split <;> rfl

theorem step_ovmfVars {v : Bytes} (step : Event.Step s e s') (keeps : e.call.settings.resetSecure = false)
    (before : s.ovmfVars = some v) : s'.ovmfVars = some (e.onOvmfVars v) := by
  refine step.follow (I := fun w => w.ovmfVars = some v) (J := fun w => w.ovmfVars = some (e.onOvmfVars v))
    (fun stage => kept_of_frame fun w w' same wanted frame => ?_) before ?_ ?_
  · refine (frame.ovmfVars ?_).trans same
    rintro rfl
    rw [Call.wants, keeps, same] at wanted
    cases wanted
  · intro idle w same
    rw [same, Event.onOvmfVars, if_neg (by simp [idle])]
  · intro started w same _
    rw [Event.onOvmfVars, if_pos started, Call.machine, same]
    rfl

theorem step_diskIso {d : Bytes} (step : Event.Step s e s') (keeps : e.call.settings.rebuildIso = false)
    (before : s.diskIso = some d) : s'.diskIso = some (e.onIso d) := by
  refine step.follow (I := fun w => w.diskIso = some d) (J := fun w => w.diskIso = some (e.onIso d))
    (fun stage => kept_of_frame fun w w' same wanted frame => ?_) before ?_ ?_
  · refine (frame.diskIso ?_).trans same
    rintro rfl
    rw [Call.wants, keeps, same] at wanted
    cases wanted
  · intro idle w same
    rw [same, Event.onIso, if_neg (by simp [idle])]
  · intro started w same _
    rw [Event.onIso, started, Bool.true_and, Call.machine, same]
    by_cases writable : e.call.settings.live = some .disk
    · simp [writable]
    · simp [writable]

theorem step_swtpm {t : List (Bytes × Bytes)} (step : Event.Step s e s')
    (keeps : (!e.call.settings.noTpm && e.call.settings.resetSecure) = false) (before : s.swtpm = some t) :
    s'.swtpm = some (e.onSwtpm t) := by
  refine step.follow (I := fun w => w.swtpm = some t) (J := fun w => w.swtpm = some (e.onSwtpm t))
    (fun stage => ?_) before ?_ ?_
  · by_cases start : stage = .startTpm
    · subst start
      refine stage_keeps (fun w w' same _ done => ?_) fun w n same _ _ => ?_
      · cases done
        simp [same]
      · simp [Call.leaves, same]
    · refine kept_of_frame fun w w' same wanted frame => (frame.swtpm ?_ start).trans same
      rintro rfl
      rw [Call.wants, keeps] at wanted
      cases wanted
  · intro idle w same
    rw [same, Event.onSwtpm, if_neg (by simp [idle])]
  · intro started w same _
    rw [Event.onSwtpm, started, Bool.true_and, Call.machine, same]
    by_cases attached : e.call.settings.noTpm = true
    · simp [attached]
    · simp [attached]

end Steps

/-! ## Every sequence of calls -/

/-- What was there is what the machine has made of it, where no option gives it up. -/
structure Survives (before : StateDir) (events : List Event) (s : StateDir) : Prop where
  disk : (∀ e ∈ events, e.call.settings.replacesDisk = false) → s.data = events.foldl Event.onDisk before.data
  ovmfVars : (∀ e ∈ events, e.call.settings.resetSecure = false) →
    ∀ v, before.ovmfVars = some v → s.ovmfVars = some (events.foldl Event.onOvmfVars v)
  swtpm : (∀ e ∈ events, (!e.call.settings.noTpm && e.call.settings.resetSecure) = false) →
    ∀ t, before.swtpm = some t → s.swtpm = some (events.foldl Event.onSwtpm t)
  diskIso : (∀ e ∈ events, e.call.settings.rebuildIso = false) →
    ∀ d, before.diskIso = some d → s.diskIso = some (events.foldl Event.onIso d)

/--
Over every sequence of calls, each of which may fail or be interrupted at any
point, the script itself changes nothing of the disk, of the variables of the
firmware, of the TPM and of the installation medium unless it is asked to.
-/
theorem run_survives {before s : StateDir} {events : List Event} (run : Run Event.Step before events s) :
    Survives before events s where
  disk kept := run.follows (fun b s => s.data = b) (fun _ _ _ _ => step_data) kept rfl
  ovmfVars kept _ found := run.follows (fun v s => s.ovmfVars = some v) (fun _ _ _ _ => step_ovmfVars) kept found
  swtpm kept _ found := run.follows (fun t s => s.swtpm = some t) (fun _ _ _ _ => step_swtpm) kept found
  diskIso kept _ found := run.follows (fun d s => s.diskIso = some d) (fun _ _ _ _ => step_diskIso) kept found

/-! ## What the machine is started with -/

/-- An image that is complete, or what machines that could write to it have made of one. -/
inductive Medium (events : List Event) : Bytes → Prop where
  | built {e : Event} (inside : e ∈ events) : Medium events e.call.built
  | downloaded {e : Event} {id : Bytes} (inside : e ∈ events) (asked : e.call.settings.buildid = some id) :
      Medium events e.call.download
  | written {e : Event} {d : Bytes} (inside : e ∈ events) (earlier : Medium events d) : Medium events (e.onIso d)

/-- What copying the firmware leaves when it ends after `n` bytes. -/
def Call.Halfway (c : Call) (template : Bytes) : Prop :=
  ∃ n, c.stop = some (.ovmf, some n) ∧ template = c.ovmfVars.take (n - c.ovmfCode.length - 1)

structure Sound (events : List Event) (s : StateDir) : Prop where
  builds : ∀ id d, s.builds id = some d →
    ∃ e ∈ events, e.call.settings.buildid = some id ∧ d = e.call.download
  /-- The code is copied before the template of the variables. -/
  ovmfCode : s.ovmfVarsTemplate.isSome = true → ∃ e ∈ events, s.ovmfCode = some e.call.ovmfCode
  template : ∀ t, s.ovmfVarsTemplate = some t → ∃ e ∈ events, t = e.call.ovmfVars ∨ e.call.Halfway t
  diskIso : ∀ d, s.diskIso = some d → Medium events d

theorem cut_eq_some {c : Call} {stage : Stage} {n : Nat} (cut : c.cut stage = some (some n)) :
    c.stop = some (stage, some n) := by
  rw [Call.cut] at cut
  obtain ⟨⟨other, rest⟩, stop, here⟩ := Option.bind_eq_some_iff.mp cut
  dsimp only at here
  split at here
  · rename_i same
    cases here
    rw [stop, same]
  · cases here

section Stages

variable {events : List Event} {e : Event} {stage : Stage} {s s' : StateDir}

/-- A stage that has nothing to do with a file leaves what is known of it. -/
theorem Sound.of_frame (sound : Sound events s) (frame : Frame stage s s')
    (fetched : stage = .fetch → ∀ id d, s'.builds id = some d →
      ∃ e ∈ events, e.call.settings.buildid = some id ∧ d = e.call.download)
    (copied : stage = .ovmf →
      (s'.ovmfVarsTemplate.isSome = true → ∃ e ∈ events, s'.ovmfCode = some e.call.ovmfCode) ∧
        ∀ t, s'.ovmfVarsTemplate = some t → ∃ e ∈ events, t = e.call.ovmfVars ∨ e.call.Halfway t)
    (moved : stage = .iso → ∀ d, s'.diskIso = some d → Medium events d) : Sound events s' := by
  constructor
  · by_cases own : stage = .fetch
    · exact fetched own
    · rw [frame.builds own]
      exact sound.builds
  · by_cases own : stage = .ovmf
    · exact (copied own).1
    · rw [(frame.ovmf own).1, (frame.ovmf own).2]
      exact sound.ovmfCode
  · by_cases own : stage = .ovmf
    · exact (copied own).2
    · rw [(frame.ovmf own).2]
      exact sound.template
  · by_cases own : stage = .iso
    · exact moved own
    · rw [frame.diskIso own]
      exact sound.diskIso

theorem Sound.whole (sound : Sound events s) (inside : e ∈ events) (done : e.call.whole s stage = some s') :
    Sound events s' := by
  refine sound.of_frame (whole_frame done) ?_ ?_ ?_
  · rintro rfl id d found
    obtain ⟨asked, given, rfl⟩ := Option.map_eq_some_iff.mp done
    by_cases same : id = asked
    · subst same
      simp only [Function.update_self, Option.some.injEq] at found
      exact ⟨e, inside, given, found.symm⟩
    · simp only [Function.update_of_ne same] at found
      exact sound.builds id d found
  · rintro rfl
    cases done
    refine ⟨fun _ => ⟨e, inside, rfl⟩, fun t found => ⟨e, inside, Or.inl ?_⟩⟩
    exact (Option.some.inj found).symm
  · rintro rfl d found
    obtain ⟨image, given, rfl⟩ := Option.map_eq_some_iff.mp done
    cases found
    cases asked : e.call.settings.buildid with
    | none =>
        rw [asked] at given
        cases given
        exact .built inside
    | some id =>
        rw [asked] at given
        obtain ⟨other, member, asked', rfl⟩ := sound.builds id d given
        exact .downloaded member asked'

/-- While the code of the firmware is copied there is no template. -/
theorem Sound.no_template (sound : Sound events s) {c : Call} (wanted : c.wants s .ovmf = true) :
    s.ovmfVarsTemplate = none := by
  rw [Call.wants, Bool.or_eq_true] at wanted
  rcases wanted with noCode | noTemplate
  · cases found : s.ovmfVarsTemplate with
    | none => rfl
    | some t =>
        obtain ⟨_, _, code⟩ := sound.ovmfCode (by rw [found]; rfl)
        rw [code] at noCode
        cases noCode
  · exact Option.isNone_iff_eq_none.mp noTemplate

theorem Sound.leaves (sound : Sound events s) (inside : e ∈ events) {n : Nat}
    (wanted : e.call.wants s stage = true) (cut : e.call.cut stage = some (some n)) :
    Sound events (e.call.leaves n s stage) := by
  refine sound.of_frame (leaves_frame _ _ _ _) ?_ ?_ ?_
  · rintro rfl id d found
    refine sound.builds id d ?_
    rw [← found, Call.leaves]
    cases e.call.settings.buildid <;> rfl
  · rintro rfl
    rw [Call.leaves]
    split
    · have missing := sound.no_template wanted
      constructor
      · intro impossible
        rw [missing] at impossible
        cases impossible
      · intro t impossible
        rw [missing] at impossible
        cases impossible
    · refine ⟨fun _ => ⟨e, inside, rfl⟩, fun t found => ⟨e, inside, Or.inr ⟨n, cut_eq_some cut, ?_⟩⟩⟩
      exact (Option.some.inj found).symm
  · rintro rfl
    exact sound.diskIso

theorem stage_sound (inside : e ∈ events) (stage : Stage) : Program.Keeps (Sound events) (e.call.stage stage) :=
  stage_keeps (fun _ _ sound _ done => sound.whole inside done)
    fun _ _ sound wanted cut => sound.leaves inside wanted cut

end Stages

theorem Medium.mono {events more : List Event} (longer : events ⊆ more) {d : Bytes} (medium : Medium events d) :
    Medium more d := by
  induction medium with
  | built inside => exact .built (longer inside)
  | downloaded inside asked => exact .downloaded (longer inside) asked
  | written inside _ ih => exact .written (longer inside) ih

theorem Sound.mono {events more : List Event} (longer : events ⊆ more) {s : StateDir} (sound : Sound events s) :
    Sound more s where
  builds id d found := by
    obtain ⟨e, inside, download⟩ := sound.builds id d found
    exact ⟨e, longer inside, download⟩
  ovmfCode there := by
    obtain ⟨e, inside, code⟩ := sound.ovmfCode there
    exact ⟨e, longer inside, code⟩
  template t found := by
    obtain ⟨e, inside, copied⟩ := sound.template t found
    exact ⟨e, longer inside, copied⟩
  diskIso d found := (sound.diskIso d found).mono longer

theorem step_sound {events : List Event} {s s' : StateDir} {e : Event} (sound : Sound events s)
    (step : Event.Step s e s') : Sound (events ++ [e]) s' := by
  have inside : e ∈ events ++ [e] := by simp
  refine step.follow (stage_sound inside) (sound.mono (List.subset_append_left _ _)) (fun _ _ kept => kept) ?_
  intro started w kept _
  refine ⟨kept.builds, kept.ovmfCode, kept.template, fun d found => ?_⟩
  by_cases writable : e.call.settings.live = some .disk
  · simp only [Call.machine, if_pos writable, Option.map_eq_some_iff] at found
    obtain ⟨earlier, there, rfl⟩ := found
    have written := Medium.written inside (kept.diskIso earlier there)
    rwa [Event.onIso, started, Bool.true_and, if_pos (by simp [writable])] at written
  · simp only [Call.machine, if_neg writable] at found
    exact kept.diskIso d found

theorem run_sound {s : StateDir} {events : List Event} (run : Run Event.Step .empty events s) :
    Sound events s := by
  refine run.invariant (I := Sound) ⟨?_, ?_, ?_, ?_⟩ fun _ _ _ _ => step_sound
  · intro id d impossible
    cases impossible
  · intro impossible
    cases impossible
  · intro t impossible
    cases impossible
  · intro d impossible
    cases impossible

/-- What a stage is for, once it has been passed. -/
def Call.Achieved (c : Call) : Stage → StateDir → Prop
  | .iso, s => c.settings.live.isSome = true → s.diskIso.isSome = true
  | .ovmf, s => s.ovmfVarsTemplate.isSome = true
  | .ovmfVars, s => s.ovmfVars.isSome = true
  | _, _ => True

theorem whole_achieved {c : Call} {stage : Stage} {s s' : StateDir} (done : c.whole s stage = some s') :
    c.Achieved stage s' := by
  cases stage with
  | iso =>
      obtain ⟨image, _, rfl⟩ := Option.map_eq_some_iff.mp done
      exact fun _ => rfl
  | ovmf =>
      cases done
      rfl
  | ovmfVars =>
      obtain ⟨template, _, rfl⟩ := Option.map_eq_some_iff.mp done
      rfl
  | fetch | removeTpm | startTpm | removeDisk | allocate | install | truncate => trivial

theorem stage_achieves (c : Call) (stage : Stage) :
    (c.stage stage).Ensures (fun _ => True) fun result s => result.isOk = true → c.Achieved stage s := by
  refine stage_succeeds (fun s _ skipped => ?_) fun s s' _ _ done => whole_achieved done
  cases stage with
  | iso =>
      intro live
      rw [Call.wants, live, Bool.and_true, Bool.or_eq_false_iff] at skipped
      exact Option.isSome_iff_ne_none.mpr fun missing => by simp [missing] at skipped
  | ovmf =>
      rw [Call.wants, Bool.or_eq_false_iff] at skipped
      exact Option.isSome_iff_ne_none.mpr fun missing => by simp [missing] at skipped
  | ovmfVars =>
      rw [Call.wants, Bool.or_eq_false_iff] at skipped
      exact Option.isSome_iff_ne_none.mpr fun missing => by simp [missing] at skipped
  | fetch | removeTpm | startTpm | removeDisk | allocate | install | truncate => trivial

/-- No stage takes away what another one is for. -/
theorem stage_keeps_achieved (c : Call) (goal stage : Stage) :
    Program.Keeps (c.Achieved goal) (c.stage stage) := by
  by_cases own : stage = goal
  · subst own
    refine stage_keeps (fun s s' _ _ done => whole_achieved done) fun s n achieved _ _ => ?_
    cases stage with
    | iso => exact achieved
    | ovmf =>
        change (Call.leaves c n s .ovmf).ovmfVarsTemplate.isSome = true
        rw [Call.leaves]
        split
        · exact achieved
        · rfl
    | ovmfVars =>
        change (Call.leaves c n s .ovmfVars).ovmfVars.isSome = true
        rw [Call.leaves]
        cases s.ovmfVarsTemplate with
        | none => exact achieved
        | some template => rfl
    | fetch | removeTpm | startTpm | removeDisk | allocate | install | truncate => trivial
  · refine kept_of_frame fun s s' achieved _ frame => ?_
    cases goal with
    | iso =>
        intro live
        rw [frame.diskIso own]
        exact achieved live
    | ovmf =>
        change s'.ovmfVarsTemplate.isSome = true
        rw [(frame.ovmf own).2]
        exact achieved
    | ovmfVars =>
        change s'.ovmfVars.isSome = true
        rw [frame.ovmfVars own]
        exact achieved
    | fetch | removeTpm | startTpm | removeDisk | allocate | install | truncate => trivial

theorem prepare_achieves (c : Call) : c.prepare.Ensures (fun _ => True) fun result s =>
    result.isOk = true → ∀ goal ∈ firstStages, c.Achieved goal s := by
  have stays : ∀ stage, Program.Keeps (fun s => ∀ goal ∈ firstStages, c.Achieved goal s) (c.stage stage) :=
    fun stage s achieved goal inside => stage_keeps_achieved c goal stage s (achieved goal inside)
  refine Program.Ensures.bind_ok (R := fun s => ∀ goal ∈ firstStages, c.Achieved goal s) (fun s _ result => ?_)
    fun _ s achieved _ => (stays .removeDisk).bind (fun _ => (stays .allocate).bind fun _ =>
      (stays .install).bind fun _ => stays .truncate) s achieved
  have each : ∀ stage ∈ firstStages, ∀ s, True → True ∧ ((c.stage stage s).1 = .ok () →
      True ∧ c.Achieved stage (c.stage stage s).2) := by
    refine fun stage _ s _ => ⟨trivial, fun done => ⟨trivial, stage_achieves c stage s trivial ?_⟩⟩
    rw [done]
    rfl
  have loop := Program.forM_each (I := fun _ => True) (E := fun _ => True) each
    (fun goal stage => stage_keeps_achieved c goal stage) (fun _ _ => trivial) (s := s) trivial
  refine (loop.2 ?_).2
  cases ended : (firstStages.forM c.stage s).1 with
  | ok _ => rfl
  | error e =>
      rw [ended] at result
      cases result

/-- What is on the primary disk when the machine is started. -/
def Call.primary (c : Call) (b : Nat → UInt8) (i : Nat) : UInt8 :=
  if i < primarySize then
    if c.settings.live.isNone && c.settings.preInstall then c.installed.read i
    else if c.settings.live.isNone && c.settings.fromImage then c.image.read i
    else if c.settings.resetInstalled then 0
    else b i
  else 0

theorem prepare_data (c : Call) (b : Nat → UInt8) : c.prepare.Ensures (fun s => s.data = b) fun result s =>
    result.isOk = true → s.data = c.primary b := by
  let emptied : Nat → UInt8 := if c.settings.resetInstalled then fun _ => 0 else b
  refine Program.Ensures.bind_ok (R := fun s => StateDir.data s = b) (fun s same _ => ?_) fun _ => ?_
  · have kept : Program.Keeps (fun s => StateDir.data s = b) (firstStages.forM c.stage) := by
      refine Program.Keeps.forM fun stage inside => kept_of_frame fun s s' same _ frame => ?_
      refine (data_of_same (frame.diskImg fun later => ?_)).trans same
      simp only [List.mem_cons, List.not_mem_nil, or_false] at later
      rcases later with rfl | rfl | rfl | rfl <;> simp [firstStages] at inside
    exact kept s same
  refine Program.Ensures.bind_ok (R := fun s => StateDir.data s = emptied) ?_ fun _ => ?_
  · refine stage_succeeds (fun s same skipped => ?_) fun s s' same wanted done => ?_
    · change c.settings.resetInstalled = false at skipped
      simp [emptied, skipped, same]
    · change c.settings.resetInstalled = true at wanted
      cases done
      funext i
      simp [emptied, wanted, StateDir.data]
  refine Program.Ensures.bind_ok (R := fun s => StateDir.data s = emptied) ?_ fun _ => ?_
  · refine stage_succeeds (fun s same _ => same) fun s s' same _ done => ?_
    cases done
    exact (data_truncate s).trans same
  have outside : ∀ (s : StateDir) i, ¬ i < primarySize → s.data i = 0 := fun s i far => if_neg far
  refine Program.Ensures.bind_ok (R := fun s => StateDir.data s = c.primary b) ?_ fun _ => ?_
  · refine stage_succeeds (fun s same skipped => ?_) fun s s' same wanted done => ?_
    · funext i
      by_cases near : i < primarySize
      · rw [Call.wants, Bool.and_or_distrib_left, Bool.or_eq_false_iff] at skipped
        simp only [Call.primary, if_pos near, skipped.1, skipped.2, Bool.false_eq_true, if_false, same, emptied]
        split <;> rfl
      · rw [outside s i near, Call.primary, if_neg near]
    · rw [Call.wants, Bool.and_eq_true] at wanted
      obtain ⟨away, asked⟩ := wanted
      rw [Call.whole] at done
      split at done
      · rename_i pre
        obtain ⟨_, _, rfl⟩ := Option.map_eq_some_iff.mp done
        funext i
        simp [StateDir.data, Call.primary, away, pre]
      · rename_i pre
        rw [Bool.eq_false_iff.mpr pre, Bool.false_or] at asked
        cases done
        funext i
        simp [StateDir.data, Call.primary, away, pre, asked]
  · refine stage_succeeds (fun s same skipped => same) fun s s' same _ done => ?_
    cases done
    exact (data_truncate s).trans same

/-- The files with which the machine is started. -/
structure Ready (events : List Event) (c : Call) (b : Nat → UInt8) (s : StateDir) : Prop where
  ovmfCode : ∃ e ∈ events, s.ovmfCode = some e.call.ovmfCode
  /-- Only the template may be a part, if copying it was interrupted. -/
  template : ∃ t, s.ovmfVarsTemplate = some t ∧ ∃ e ∈ events, t = e.call.ovmfVars ∨ e.call.Halfway t
  ovmfVars : s.ovmfVars.isSome = true
  diskIso : c.settings.live.isSome = true → ∃ d, s.diskIso = some d ∧ Medium events d
  sized : s.Sized
  primary : s.data = c.primary b

/--
After every sequence of calls in a new directory, wherever they ended, a call
that comes to start QEMU has a complete firmware and a complete installation
medium, and on the primary disk exactly what its options say.
-/
theorem run_ready {s s' : StateDir} {events : List Event} {c : Call} (run : Run Event.Step .empty events s)
    (prepared : c.prepare s = (.ok (), s')) : Ready (events ++ [⟨c, true⟩]) c s.data s' := by
  have succeeds : (c.prepare s).1.isOk = true := by
    rw [prepared]
    rfl
  have sound : Sound (events ++ [⟨c, true⟩]) (c.prepare s).2 :=
    prepare_keeps (stage_sound (e := ⟨c, true⟩) (by simp)) s
      ((run_sound run).mono (List.subset_append_left _ _))
  have achieved := prepare_achieves c s trivial succeeds
  have sized := prepare_sized c s trivial succeeds
  have data := prepare_data c s.data s rfl succeeds
  rw [prepared] at sound achieved sized data
  obtain ⟨t, template⟩ := Option.isSome_iff_exists.mp (achieved .ovmf (by simp [firstStages]))
  refine ⟨sound.ovmfCode (by rw [template]; rfl), ⟨t, template, sound.template t template⟩,
    achieved .ovmfVars (by simp [firstStages]), fun live => ?_, sized, data⟩
  obtain ⟨d, found⟩ := Option.isSome_iff_exists.mp (achieved .iso (by simp [firstStages]) live)
  exact ⟨d, found, sound.diskIso d found⟩

/-! ## A machine that counts its boots -/

def countingGuest : Guest where
  disk b i := if i = 0 then b 0 + 1 else b i
  ovmfVars v := v
  swtpm files := files
  iso d := d

def plainCall : Call where
  options := []
  stop := none
  download := [2]
  built := [1, 1]
  ovmfCode := [3, 3]
  ovmfVars := [4, 4]
  installed := .empty
  interrupted _ := .empty
  image := .empty
  guest := countingGuest

/-- The firmware is not copied to its end. -/
def brokenCall : Call := { plainCall with stop := some (.ovmf, some 1) }

/-- The installed system is started, but its TPM is not. -/
def failedCall : Call := { plainCall with options := [.noInstall], stop := some (.startTpm, none) }

theorem broken_run : Run Event.Step .empty [⟨brokenCall, false⟩] (brokenCall.run .empty).2 := by
  have first : Run Event.Step .empty [] .empty := .nil
  exact first.snoc ⟨rfl, rfl⟩

theorem broken_ready : ∃ s', s'.ovmfCode = some [3, 3] ∧
    Ready ([⟨brokenCall, false⟩] ++ [⟨plainCall, true⟩]) plainCall (brokenCall.run .empty).2.data s' :=
  ⟨_, rfl, run_ready broken_run (Prod.ext rfl rfl)⟩

def twoBoots : List Event := [⟨plainCall, true⟩, ⟨failedCall, false⟩, ⟨plainCall, true⟩]

theorem twoBoots_survives : ∃ s, s.data 0 = 2 ∧ s.ovmfVars = some [4, 4] ∧
    Survives (brokenCall.run .empty).2 twoBoots s := by
  have first : Run Event.Step (brokenCall.run .empty).2 [] (brokenCall.run .empty).2 := .nil
  exact ⟨_, rfl, rfl, run_survives (((first.snoc ⟨rfl, rfl⟩).snoc ⟨rfl, rfl⟩).snoc ⟨rfl, rfl⟩)⟩

end GnomeBuildMeta.SecureVm
