import GnomeBuildMeta.Live.Detection
import GnomeBuildMeta.Live.Generator

/-!
# What the generator leaves

At any time the files of the generator are those that the command line asks
for, as far as the runs have come.  So `/run/gnomeos/is-live` marks a live
system, and no other.
-/

namespace GnomeBuildMeta.Live

open GnomeBuildMeta.Control

/-! ## The operations -/

/-- The operation puts the entry at the location, perhaps without the end of a text. -/
def Op.Leaves (l : Location) (entry : Entry) : Op → Prop
  | .mkdir _ => False
  | .write file text => l = file ∧ ∃ part : String, part.toList <+: text.toList ∧ entry = .file part
  | .symlink target link => l = link ∧ entry = .link target

/-- What the operation is to put somewhere is there. -/
def Op.Done (files : Files) (op : Op) : Prop :=
  ∀ l, op.target = some l → ∃ entry, files.entries l = some entry ∧ op.Leaves l entry

def Op.isLink : Op → Bool
  | .symlink _ _ => true
  | .mkdir _ | .write _ _ => false

theorem target_of_leaves {op : Op} {l : Location} {entry : Entry} (leaves : op.Leaves l entry) :
    op.target = some l := by
  cases op with
  | mkdir dir => exact leaves.elim
  | write file text => exact congrArg some leaves.1.symm
  | symlink target link => exact congrArg some leaves.1.symm

theorem isLink_of_leaves {op : Op} {l : Location} {target : String} (leaves : op.Leaves l (.link target)) :
    op.isLink = true := by
  cases op with
  | mkdir dir => exact leaves.elim
  | write file text =>
      obtain ⟨_, part, _, impossible⟩ := leaves
      cases impossible
  | symlink target link => rfl

/-- A write that does not meet a link, and a link, change what they name and nothing else. -/
theorem Op.run_done {files after : Files} {op : Op} (ran : op.run files = some after)
    (plain : op.isLink = false → ∀ l, op.target = some l → ∀ target, files.entries l ≠ some (.link target)) :
    op.Done after ∧ ∀ l, op.target ≠ some l → after.entries l = files.entries l := by
  cases op with
  | mkdir dir =>
      simp only [Op.run] at ran
      refine ⟨fun l impossible => ?_, fun l _ => ?_⟩
      · cases impossible
      · split at ran
        · rw [← Option.some.inj ran]
        · rw [← Option.some.inj ran]
  | write file text =>
      have put : after = files.put file (.file text) := by
        simp only [Op.run] at ran
        split at ran
        · exact absurd ‹_› (plain rfl file rfl _)
        · split at ran
          · exact (Option.some.inj ran).symm
          · cases ran
      subst put
      refine ⟨fun l here => ?_, fun l elsewhere => ?_⟩
      · cases here
        exact ⟨.file text, by simp [Files.put], rfl, text, List.prefix_rfl, rfl⟩
      · exact Function.update_of_ne (fun same => elsewhere (congrArg some same.symm)) _ _
  | symlink target link =>
      simp only [Op.run] at ran
      split at ran
      · cases ran
        refine ⟨fun l here => ?_, fun l elsewhere => ?_⟩
        · cases here
          exact ⟨.link target, by simp [Files.put], rfl, rfl⟩
        · exact Function.update_of_ne (fun same => elsewhere (congrArg some same.symm)) _ _
      · cases ran

/-! ## The runs of the generator -/

theorem handled_subset (flags : Flags) (inInitrd : Bool) : handled flags inInitrd ⊆ allOps := by
  intro op inside
  simp only [handled, List.mem_append] at inside
  rcases inside with (live | safe) | nvidia
  · cases flags.isLive <;> cases inInitrd <;> simp_all [allOps]
  · cases flags.isSafe <;> cases inInitrd <;> simp_all [allOps]
  · cases flags.isSafe <;> cases flags.isNvidia <;> simp_all [allOps]

theorem isOurs_of_target {op : Op} (inside : op ∈ allOps) {l : Location} (target : op.target = some l) :
    IsOurs l := List.mem_filterMap.mpr ⟨op, inside, target⟩

/-- What is a link in one run is not a file in another. -/
theorem isLink_of_same_target {op other : Op} (inside : op ∈ allOps) (inside' : other ∈ allOps) {l : Location}
    (target : op.target = some l) (target' : other.target = some l) : op.isLink = other.isLink := by
  have apart : ∀ op ∈ allOps, ∀ other ∈ allOps, op.target.isSome = true → op.target = other.target →
      op.isLink = other.isLink := by decide
  exact apart op inside other inside' (by rw [target]; rfl) (target.trans target'.symm)

/-- A run names each file and each link once. -/
theorem handled_nodup (flags : Flags) (inInitrd : Bool) :
    ((handled flags inInitrd).filterMap Op.target).Nodup := by
  have whole : ((handleLive inInitrd ++ handleSafe inInitrd ++ handleNvidia).filterMap Op.target).Nodup := by
    cases inInitrd <;> decide
  refine whole.sublist (List.Sublist.filterMap _ ?_)
  unfold handled
  refine List.Sublist.append (List.Sublist.append ?_ ?_) ?_
  · split
    · exact List.Sublist.refl _
    · exact List.nil_sublist _
  · split
    · exact List.Sublist.refl _
    · exact List.nil_sublist _
  · split
    · exact List.Sublist.refl _
    · exact List.nil_sublist _

theorem eq_of_target_isLiveFile {op : Op} (inside : op ∈ allOps) (target : op.target = some isLiveFile) :
    op = .write isLiveFile "" := by
  have only : ∀ op ∈ allOps, op.target = some isLiveFile → op = .write isLiveFile "" := by decide
  exact only op inside target

/-- Only a run outside the initrd on a live system marks it. -/
theorem mem_handled_isLiveFile {flags : Flags} {inInitrd : Bool} :
    .write isLiveFile "" ∈ handled flags inInitrd ↔ flags.isLive = true ∧ inInitrd = false := by
  have live : ∀ inInitrd, Op.write isLiveFile "" ∈ handleLive inInitrd ↔ inInitrd = false := by decide
  have safe : ∀ inInitrd, Op.write isLiveFile "" ∉ handleSafe inInitrd := by decide
  have nvidia : Op.write isLiveFile "" ∉ handleNvidia := by decide
  have onlyIf : ∀ {ops : List Op} (condition : Bool), (∀ op ∈ ops, op ≠ .write isLiveFile "") →
      Op.write isLiveFile "" ∉ if condition then ops else [] := by
    rintro ops (_ | _) none'
    · exact List.not_mem_nil
    · exact fun inside => none' _ inside rfl
  rw [handled, List.mem_append, List.mem_append,
    or_iff_left (onlyIf _ fun op inside same => nvidia (same ▸ inside)),
    or_iff_left (onlyIf _ fun op inside same => safe inInitrd (same ▸ inside))]
  cases flags.isLive with
  | true => exact (live inInitrd).trans (by simp)
  | false => simp

/-! ## One step -/

/-- A run in the initrd, or one on the host, has been started. -/
def Ran (trace : List Action) (onInitrd : Bool) : Prop :=
  ∃ argc readable environment, .start argc readable environment ∈ trace ∧ inInitrd environment = onInitrd

theorem Ran.mono {trace more : List Action} {onInitrd : Bool} (ran : Ran trace onInitrd)
    (longer : trace ⊆ more) : Ran more onInitrd := by
  obtain ⟨argc, readable, environment, started, same⟩ := ran
  exact ⟨argc, readable, environment, longer started, same⟩

/-- The entry is one that a run of the generator makes for the command line. -/
def Prescribed (cmdline : Text) (trace : List Action) (l : Location) (entry : Entry) : Prop :=
  ∃ flags onInitrd, parseCmdline cmdline = some flags ∧ Ran trace onInitrd ∧
    ∃ op ∈ handled flags onInitrd, op.Leaves l entry

theorem Prescribed.mono {cmdline : Text} {trace more : List Action} {l : Location} {entry : Entry}
    (prescribed : Prescribed cmdline trace l entry) (longer : trace ⊆ more) :
    Prescribed cmdline more l entry := by
  obtain ⟨flags, onInitrd, parsed, ran, made⟩ := prescribed
  exact ⟨flags, onInitrd, parsed, ran.mono longer, made⟩

/-- How far a run has come. -/
def Process.Sound (cmdline : Text) (trace : List Action) (files : Files) (p : Process) : Prop :=
  ∃ flags done, parseCmdline cmdline = some flags ∧ Ran trace p.inInitrd ∧
    handled flags p.inInitrd = done ++ p.ops ∧ ∀ op ∈ done, op.Done files

structure System.Sound (cmdline : Text) (trace : List Action) (s : System) : Prop where
  prescribed : ∀ l entry, IsOurs l → s.files.entries l = some entry → Prescribed cmdline trace l entry
  process : ∀ p, s.process = some p → p.Sound cmdline trace s.files
  /-- Once a run on the host is through, a live system stays marked. -/
  marked : ∀ flags, parseCmdline cmdline = some flags → flags.isLive = true → .finish false ∈ trace →
    s.files.entries isLiveFile = some (.file "")

section Steps

variable {cmdline : Text} {trace : List Action} {s : System}

theorem leaves_isLiveFile {entry : Entry} (leaves : (Op.write isLiveFile "").Leaves isLiveFile entry) :
    entry = .file "" := by
  obtain ⟨_, part, begin, rfl⟩ := leaves
  have empty : part.toList = [] := List.prefix_nil.mp begin
  rw [String.toList_eq_nil_iff.mp empty]

/-- No link is in the way of a file. -/
theorem System.Sound.plain (sound : s.Sound cmdline trace) {op : Op} (inside : op ∈ allOps)
    (file : op.isLink = false) : ∀ l, op.target = some l → ∀ target, s.files.entries l ≠ some (.link target) := by
  intro l here target link
  obtain ⟨flags, onInitrd, _, _, other, inside', leaves⟩ :=
    sound.prescribed l _ (isOurs_of_target inside here) link
  have same := isLink_of_same_target inside (handled_subset _ _ inside') here (target_of_leaves leaves)
  rw [file, isLink_of_leaves leaves] at same
  cases same

/-- The next operation of the run is done, and nothing else. -/
theorem System.Sound.advance (sound : s.Sound cmdline trace) {p : Process} {op : Op} {rest : List Op}
    {files : Files} (running : s.process = some p) (next : p.ops = op :: rest) (there : op.Done files)
    (frame : ∀ l, op.target ≠ some l → files.entries l = s.files.entries l) {a : Action}
    (goesOn : a ≠ .finish false) :
    System.Sound cmdline (trace ++ [a]) ⟨files, some { p with ops := rest }⟩ := by
  have longer : trace ⊆ trace ++ [a] := fun _ inside => List.mem_append_left _ inside
  obtain ⟨flags, done, parsed, ran, whole, achieved⟩ := sound.process p running
  rw [next] at whole
  have member : op ∈ handled flags p.inInitrd := by
    rw [whole]
    exact List.mem_append_right _ List.mem_cons_self
  have distinct := handled_nodup flags p.inInitrd
  rw [whole, List.filterMap_append, List.nodup_append] at distinct
  constructor
  · intro l entry ours found
    by_cases here : op.target = some l
    · obtain ⟨entry', found', leaves⟩ := there l here
      cases found.symm.trans found'
      exact ⟨flags, p.inInitrd, parsed, ran.mono longer, op, member, leaves⟩
    · rw [frame l here] at found
      exact (sound.prescribed l entry ours found).mono longer
  · intro q same
    cases same
    refine ⟨flags, done ++ [op], parsed, ran.mono longer, by rw [whole]; simp, fun earlier inside => ?_⟩
    rcases List.mem_append.mp inside with before | last
    · intro l here
      rw [frame l fun again => ?_]
      · exact achieved earlier before l here
      · -- no location is named twice
        refine distinct.2.2 l (List.mem_filterMap.mpr ⟨earlier, before, here⟩) l ?_ rfl
        exact List.mem_filterMap.mpr ⟨op, List.mem_cons_self, again⟩
    · rw [List.mem_singleton.mp last]
      exact there
  · intro flags' parsed' live finished
    by_cases here : op.target = some isLiveFile
    · obtain ⟨entry, found, leaves⟩ := there _ here
      rw [eq_of_target_isLiveFile (handled_subset _ _ member) here] at leaves
      rw [found, leaves_isLiveFile leaves]
    · rw [frame _ here]
      refine sound.marked flags' parsed' live ?_
      rcases List.mem_append.mp finished with before | last
      · exact before
      · exact absurd (List.mem_singleton.mp last).symm goesOn

/-- What is between two operations of the generator leaves its files as they are. -/
theorem System.Sound.between (sound : s.Sound cmdline trace) {s' : System} {a : Action}
    (kept : ∀ l entry, IsOurs l → s'.files.entries l = some entry → s.files.entries l = some entry)
    (marker : s'.files.entries isLiveFile = s.files.entries isLiveFile)
    (process : ∀ p, s'.process = some p → p.Sound cmdline (trace ++ [a]) s'.files) (goesOn : a ≠ .finish false) :
    s'.Sound cmdline (trace ++ [a]) where
  prescribed l entry ours found :=
    (sound.prescribed l entry ours (kept l entry ours found)).mono fun _ inside => List.mem_append_left _ inside
  process := process
  marked flags parsed live finished := by
    rw [marker]
    refine sound.marked flags parsed live ?_
    rcases List.mem_append.mp finished with before | last
    · exact before
    · exact absurd (List.mem_singleton.mp last).symm goesOn

theorem isOurs_isLiveFile : IsOurs isLiveFile := by
  unfold IsOurs
  decide

/-- What `main` starts with. -/
theorem sound_mainOps {argc : Nat} {readable : Bool} {environment : Option String} {ops : List Op} {files : Files}
    (called : mainOps argc (if readable then some cmdline else none) environment = some ops) :
    Process.Sound cmdline (trace ++ [.start argc readable environment]) files ⟨inInitrd environment, ops⟩ := by
  unfold mainOps at called
  split at called
  · cases called
  · obtain ⟨flags, parsed, rfl⟩ := Option.map_eq_some_iff.mp called
    cases readable with
    | false => cases parsed
    | true =>
        refine ⟨flags, [], parsed, ⟨argc, true, environment, by simp, rfl⟩, rfl, fun op impossible => ?_⟩
        cases impossible

/-- What a run still has to do. -/
theorem Process.Sound.mem_allOps {files : Files} {p : Process} (sound : p.Sound cmdline trace files) {op : Op}
    {rest : List Op} (next : p.ops = op :: rest) : op ∈ allOps := by
  obtain ⟨flags, done, _, _, whole, _⟩ := sound
  refine handled_subset flags p.inInitrd ?_
  rw [whole, next]
  exact List.mem_append_right _ List.mem_cons_self

/-- A run does not notice what happens to other files. -/
theorem Process.Sound.keeps {files after : Files} {p : Process} (sound : p.Sound cmdline trace files)
    (keeps : ∀ l, IsOurs l → after.entries l = files.entries l) {a : Action} :
    p.Sound cmdline (trace ++ [a]) after := by
  obtain ⟨flags, done, parsed, ran, whole, achieved⟩ := sound
  refine ⟨flags, done, parsed, ran.mono (List.subset_append_left _ _), whole, fun op inside l here => ?_⟩
  have member : op ∈ handled flags p.inInitrd := by
    rw [whole]
    exact List.mem_append_left _ inside
  obtain ⟨entry, found, leaves⟩ := achieved op inside l here
  exact ⟨entry, (keeps l (isOurs_of_target (handled_subset _ _ member) here)).trans found, leaves⟩

/-- A run on the host that is through has marked a live system. -/
theorem Process.Sound.marks {files : Files} {p : Process} (sound : p.Sound cmdline trace files) {flags : Flags}
    (through : p.ops = []) (parsed : parseCmdline cmdline = some flags) (live : flags.isLive = true)
    (host : p.inInitrd = false) : files.entries isLiveFile = some (.file "") := by
  obtain ⟨flags', done, parsed', _, whole, achieved⟩ := sound
  cases parsed.symm.trans parsed'
  rw [through, List.append_nil] at whole
  have member : Op.write isLiveFile "" ∈ done := by
    rw [← whole]
    exact mem_handled_isLiveFile.mpr ⟨live, host⟩
  obtain ⟨entry, found, leaves⟩ := achieved _ member isLiveFile rfl
  rw [found, leaves_isLiveFile leaves]

theorem System.Sound.step (sound : s.Sound cmdline trace) {a : Action} {s' : System}
    (step : Step cmdline s a s') : s'.Sound cmdline (trace ++ [a]) := by
  cases step with
  | start idle =>
      refine sound.between (fun _ _ _ found => found) rfl (fun p started => ?_) (fun h => by cases h)
      obtain ⟨ops, called, rfl⟩ := Option.map_eq_some_iff.mp started
      exact sound_mainOps called
  | op running next done =>
      have member := (sound.process _ running).mem_allOps next
      obtain ⟨there, frame⟩ := Op.run_done done (sound.plain member)
      exact sound.advance running next there frame (fun h => by cases h)
  | short running next partly done =>
      have member := (sound.process _ running).mem_allOps next
      obtain ⟨there, frame⟩ := Op.run_done done fun isFile l here => sound.plain member rfl l here
      refine sound.advance running next (fun l here => ?_) frame (fun h => by cases h)
      obtain ⟨entry, found, same, begin, shorter, rfl⟩ := there l here
      exact ⟨_, found, same, begin, shorter.trans partly, rfl⟩
  | skip running next =>
      refine sound.advance running next (fun l impossible => ?_) (fun _ _ => rfl) (fun h => by cases h)
      cases impossible
  | stop running =>
      refine sound.between (fun _ _ _ found => found) rfl (fun p impossible => ?_) (fun h => by cases h)
      cases impossible
  | @finish p running done =>
      refine ⟨fun l entry ours found => ?_, fun q impossible => ?_, fun flags parsed live finished => ?_⟩
      · exact (sound.prescribed l entry ours found).mono (List.subset_append_left _ _)
      · cases impossible
      · rcases List.mem_append.mp finished with earlier | last
        · exact sound.marked flags parsed live earlier
        · have host : p.inInitrd = false := (Action.finish.inj (List.mem_singleton.mp last)).symm
          exact (sound.process p running).marks done parsed live host
  | others keeps =>
      refine sound.between (fun l entry ours found => (keeps l ours).symm.trans found) (keeps _ isOurs_isLiveFile)
        (fun p running => ?_) (fun h => by cases h)
      exact (sound.process p running).keeps keeps
  | flush idle emptied keeps =>
      refine sound.between (fun l entry ours found => ?_) (keeps _) (fun p running => ?_) (fun h => by cases h)
      · obtain ⟨place, path⟩ := l
        cases place with
        | generated =>
            rw [emptied] at found
            cases found
        | run => exact (keeps path).symm.trans found
      · rw [show s.process = some p from running] at idle
        cases idle

end Steps

/-- Every boot, with whatever else happens in it. -/
theorem sound_of_run {cmdline : Text} {s s' : System} {trace : List Action} (booted : s.Booted)
    (run : Run (Step cmdline) s trace s') : s'.Sound cmdline trace := by
  refine run.invariant ⟨fun l entry ours found => ?_, fun p running => ?_, fun _ _ _ impossible => ?_⟩
    fun _ _ _ _ sound step => sound.step step
  · rw [booted.files l ours] at found
    cases found
  · rw [booted.process] at running
    cases running
  · cases impossible

/--
At every moment of a boot the files of the generator are ones that the command
line asks for, perhaps cut short.  When a run returns 0 it has left all of them.
-/
theorem run_prescribed {cmdline : Text} {s s' : System} {trace : List Action} (booted : s.Booted)
    (run : Run (Step cmdline) s trace s') :
    (∀ l entry, IsOurs l → s'.files.entries l = some entry → Prescribed cmdline trace l entry) ∧
      ∀ p, s'.process = some p → p.ops = [] → ∃ flags, parseCmdline cmdline = some flags ∧
        ∀ op ∈ handled flags p.inInitrd, op.Done s'.files := by
  have sound := sound_of_run booted run
  refine ⟨sound.prescribed, fun p running through => ?_⟩
  obtain ⟨flags, done, parsed, _, whole, achieved⟩ := sound.process p running
  rw [through, List.append_nil] at whole
  exact ⟨flags, parsed, whole ▸ achieved⟩

/-! ## A live system -/

def sampleLine : Text := "root=live:gnomeos".toList

/-- Nothing is there but directories. -/
def sampleFiles : Files where
  dirs := fun l => decide (l ∈ [Location.mk .generated [], ⟨.run, []⟩, ⟨.run, ["systemd"]⟩])
  entries := fun _ => none

theorem sampleLine_flags : parseCmdline sampleLine = some ⟨true, false, false⟩ := by
  rw [parseCmdline, parseFrom_eq]
  rfl

theorem sampleLine_start (s : System) (idle : s.process = none) :
    Step sampleLine s (.start 4 true none) ⟨s.files, some ⟨false, handleLive false⟩⟩ := by
  have ops : mainOps 4 (some sampleLine) none = some (handleLive false) := by
    rw [mainOps, if_neg (by decide), Option.bind_some, sampleLine_flags]
    rfl
  have started := @Step.start sampleLine s 4 true none idle
  rwa [if_pos rfl, ops] at started

/-- A run on the host to its end. -/
theorem sampleLine_prescribed : ∃ trace s, Run (Step sampleLine) ⟨sampleFiles, none⟩ trace s ∧
    s.process = some ⟨false, []⟩ ∧ ∀ op ∈ handleLive false, op.Done s.files := by
  have started : Run (Step sampleLine) ⟨sampleFiles, none⟩ _ _ := Run.nil.snoc (sampleLine_start _ rfl)
  have marked := (((started.snoc (.op rfl rfl rfl)).snoc (.op rfl rfl rfl)).snoc
    (.op rfl rfl rfl)).snoc (.op rfl rfl rfl)
  have wanted := (((marked.snoc (.op rfl rfl rfl)).snoc (.op rfl rfl rfl)).snoc
    (.op rfl rfl rfl)).snoc (.op rfl rfl rfl)
  have run := ((wanted.snoc (.op rfl rfl rfl)).snoc (.op rfl rfl rfl)).snoc (.op rfl rfl rfl)
  refine ⟨_, _, run, rfl, ?_⟩
  obtain ⟨flags, parsed, whole⟩ := (run_prescribed ⟨fun _ _ => rfl, rfl⟩ run).2 _ rfl rfl
  cases sampleLine_flags.symm.trans parsed
  exact whole

end GnomeBuildMeta.Live
