import GnomeBuildMeta.Installer.DaemonRun
import GnomeBuildMeta.Installer.MarkerPath
import GnomeBuildMeta.Installer.Passphrase

/-!
# The key of the root partition

A disk is partitioned for a call that was authorised.  On a machine with a TPM
its root partition is encrypted with the key file, and that holds just the
passphrase that the caller was shown.
-/

namespace GnomeBuildMeta.Installer

open GnomeBuildMeta.Control GnomeBuildMeta.Posix

def keyFileArg : String := "--key-file=/run/cryptsetup-keys.d/root.key"

/-- `systemd-repart` is started for real on the device of the installation. -/
structure Encrypts (i : Installation) (s : Started) : Prop where
  partitions : s.Partitions i.recipe.device
  wanted : keyFileArg ∈ s.args ↔ i.hasTpm2 = true ∧ i.recipe.oemInstall = false
  key : keyFileArg ∈ s.args → ∃ stat, s.fs.get ("root.key" :: keysDir) = some (.file stat (keyData i))

/-! ## The arguments -/

theorem ne_append_of_toList {first second rest : String}
    (apart : ∀ tail, first.toList ≠ second.toList ++ tail) : first ≠ second ++ rest := by
  rintro rfl
  exact apart rest.toList String.toList_append

/-- The key file is used on a machine with a TPM, unless the root partition is left for later. -/
theorem keyFileArg_mem_iff {repartD : String} {i : Installation} :
    keyFileArg ∈ repartArgs repartD i ↔ i.hasTpm2 = true ∧ i.recipe.oemInstall = false := by
  have definitions : keyFileArg ≠ "--definitions=" ++ repartD :=
    ne_append_of_toList fun tail same => by simp [keyFileArg] at same
  have device : keyFileArg ≠ "/dev/" ++ i.recipe.device :=
    ne_append_of_toList fun tail same => by simp [keyFileArg] at same
  have deferred : keyFileArg ≠ "--defer-partitions=root" := by decide
  have fixed : keyFileArg ∉ ["--dry-run=no", "--empty=require", "--json=short", "--offline=no"] := by
    decide
  have ahead : keyFileArg ∉ ["--dry-run=no", "--empty=require", "--json=short", "--offline=no",
      "--definitions=" ++ repartD] := List.not_mem_append fixed (mt List.mem_singleton.mp definitions)
  rw [repartArgs, List.mem_append, List.mem_append, or_iff_right ahead,
    or_iff_left (mt List.mem_singleton.mp device)]
  cases tpm : i.hasTpm2 <;> cases oem : i.recipe.oemInstall <;> simp [keyFileArg]

/-! ## One installation -/

/-- Everything started so far satisfies `T`. -/
def Logged (T : Started → Prop) (w : World) : Prop := ∀ s ∈ w.started, T s

section Spec

variable {T : Started → Prop} {names : String → Prop}

theorem Logged.record {w : World} (logged : Logged T w) {program : String} {args : List String}
    (here : T ⟨program, args, w.fs⟩) :
    Logged T { w with started := ⟨program, args, w.fs⟩ :: w.started } := by
  intro s inside
  rcases List.mem_cons.mp inside with rfl | earlier
  · exact here
  · exact logged s earlier

/-- A change of the file system that succeeds or leaves everything as it is. -/
theorem touch_ensures {change : FileSystem String → Except Errno (FileSystem String)} {P : World → Prop}
    {Q : Except InstallerError Unit → World → Prop}
    (changed : ∀ w fs, P w → change w.fs = .ok fs → Q (.ok ()) { w with fs := fs })
    (failed : ∀ w e, P w → Q (.error e) w) : (Step.touch change).Ensures P Q := by
  refine Program.Ensures.change (fun w w' holds result => ?_) fun w e holds _ => ?_
  · cases made : change w.fs with
    | ok fs =>
        simp only [made, Except.ok.injEq] at result
        rw [← result]
        exact changed w fs holds made
    | error e => simp [made] at result
  · exact failed w e holds

theorem touch_logged {change : FileSystem String → Except Errno (FileSystem String)} :
    Program.Keeps (Logged T) (Step.touch change) :=
  touch_ensures (fun _ _ logged _ => logged) fun _ _ logged => logged

theorem onlyIf_logged {condition : Bool} {step : Step Unit} (keeps : Program.Keeps (Logged T) step) :
    Program.Keeps (Logged T) (Step.onlyIf condition step) := by
  cases condition with
  | true => exact keeps
  | false => exact Program.Keeps.pure ()

theorem saveKey_logged (outcome : Except (Option Nat × Errno) Unit) (passphrase : String) :
    Program.Keeps (Logged T) (saveKey outcome passphrase) := by
  match outcome with
  | .ok () => exact touch_logged
  | .error (none, e) => exact Program.Keeps.outside _
  | .error (some n, e) => exact touch_logged.bind fun _ => Program.Keeps.outside _

/-- Up to the marker nothing is partitioned. -/
theorem untilMarker_logged (other : ∀ s : Started, (∀ device, ¬ s.Partitions device) → T s)
    (env : Outcomes) (i : Installation) : Program.Keeps (Logged T) (untilMarker env i) := by
  have dryRun : ∀ repartD fs device,
      ¬ (Started.mk "systemd-repart" (dryRunArgs repartD i.recipe.device) fs).Partitions device :=
    fun repartD fs device partitions => absurd partitions.2.1 (by simp [dryRunArgs])
  refine (Program.Keeps.outside _).bind fun repartD => (Program.Keeps.outside _).bind fun _ => ?_
  refine Program.Keeps.bind ?_ fun _ => (Program.Keeps.outside _).bind fun _ => ?_
  · refine (Program.Keeps.outside _).bind fun _ => Program.Keeps.bind ?_ fun _ =>
      (Program.Keeps.outside _).bind fun _ => Program.Keeps.outside _
    exact Program.Keeps.update fun w logged => logged.record (other _ (dryRun repartD w.fs))
  · refine (Program.Keeps.outside _).bind fun _ => touch_logged.bind fun _ => ?_
    refine (onlyIf_logged (saveKey_logged _ _)).bind fun _ => (Program.Keeps.outside _).bind fun _ => ?_
    exact touch_logged.bind fun _ => (Program.Keeps.outside _).bind fun _ => Program.Keeps.pure repartD

/-- The key file holds the passphrase of the installation, if it is wanted. -/
def KeyHeld (i : Installation) (fs : FileSystem String) : Prop :=
  (i.hasTpm2 && !i.recipe.oemInstall) = true →
    ∃ stat, fs.get ("root.key" :: keysDir) = some (.file stat (keyData i))

/-- Opening a marker leaves the key file alone, as long as the device does not lead upwards. -/
theorem openMarker_keyHeld {fs fs' : FileSystem String} {i : Installation} {device : String} {stat : Stat}
    (dirs : RunDirs names fs) (dir : fs.isDirAt pabDir = true) (noUp : Piece.up ∉ pathText device)
    (held : KeyHeld i fs) (opened : fs.openWrite (markerText device) stat [] = .ok fs') : KeyHeld i fs' := by
  cases named : deviceName device with
  | none =>
      obtain ⟨e, failed⟩ := dirs.openMarker_error dir named noUp stat
      cases opened.symm.trans failed
  | some n =>
      obtain ⟨_, stat', opened', content⟩ :=
        fs.openWrite_ok (dirs.locate_marker dir named) dir (dirs.files n) stat []
      cases opened.symm.trans opened'
      intro wanted
      rw [content, if_neg (by simp [keysDir, pabDir])]
      exact held wanted

theorem encrypts_of_keyHeld {i : Installation} {fs : FileSystem String} (repartD : String)
    (held : KeyHeld i fs) : Encrypts i ⟨"systemd-repart", repartArgs repartD i, fs⟩ where
  partitions := repartArgs_partitions.mpr rfl
  wanted := keyFileArg_mem_iff
  key used := held (by simpa using keyFileArg_mem_iff.mp used)

/-- From the marker on one disk is partitioned, with the key that is there. -/
theorem fromMarker_logged (other : ∀ s : Started, (∀ device, ¬ s.Partitions device) → T s)
    {i : Installation} (here : ∀ s, Encrypts i s → T s) (env : Outcomes) (repartD : String)
    (noUp : Piece.up ∉ pathText i.recipe.device) {fs : FileSystem String} :
    (fromMarker env i repartD).Ensures (fun w => Reached names fs i w.fs ∧ Logged T w)
      fun _ => Logged T := by
  have otherProgram : ∀ w, Logged T w → ∀ program args, program ≠ "systemd-repart" →
      Logged T { w with started := ⟨program, args, w.fs⟩ :: w.started } :=
    fun w logged program args differs => logged.record (other _ fun device partitions => differs partitions.1)
  refine Program.Ensures.bind (fun _ w => KeyHeld i w.fs ∧ Logged T w) ?_ fun _ => ?_
  · refine touch_ensures ?_ fun _ _ after => after.2
    rintro w fs' ⟨reached, logged⟩ opened
    exact ⟨openMarker_keyHeld reached.made.dirs reached.dir noUp reached.key opened, logged⟩
  refine Program.Ensures.bind (fun _ w => KeyHeld i w.fs ∧ Logged T w) ?_ fun _ => ?_
  · refine Program.Ensures.cases (onlyIf_decided _ (Step.check_decided env.makePolicy)) ?_ ?_
    · exact fun _ _ after => after.1
    · exact fun _ _ after => after.1.2
  refine Program.Ensures.bind (fun _ => Logged T) ?_ fun _ => (Program.Keeps.outside _).bind fun disks =>
    afterRepart_keeps env i otherProgram disks
  refine Program.Ensures.cases (Q := fun _ => Logged T) ?_ (fun _ _ logged => logged)
    fun _ _ logged => logged
  refine (Step.io_decided env.repart.spawn).ensures_bind (fun _ _ _ after => after.2) fun _ _ => ?_
  refine Program.Decided.ensures_bind (b := true) (R := Logged T) (Step.record_decided ?_) ?_
    fun _ _ => (Program.Keeps.outside _).bind fun status => Program.Keeps.outside _
  · rintro w ⟨held, logged⟩
    exact logged.record (here _ (encrypts_of_keyHeld repartD held))
  · intro impossible
    cases impossible

/-- Whatever an installation starts, at most its own disk is partitioned. -/
theorem doInstall_logged (other : ∀ s : Started, (∀ device, ¬ s.Partitions device) → T s)
    (a : Activation) (here : ∀ s, Encrypts a.installation s → T s)
    (noUp : a.reaches = true → Piece.up ∉ pathText a.device) {w : World} (dirs : RunDirs names w.fs)
    (logged : Logged T w) : Logged T (doInstall a.env a.installation w).2 := by
  rw [doInstall_eq]
  have before := untilMarker_logged other a.env a.installation w logged
  have spec := untilMarker_spec dirs a.env a.installation w rfl
  change Logged T (Program.bind _ _ w).2
  unfold Program.bind
  cases run : untilMarker a.env a.installation w with
  | mk result w' =>
      rw [run] at before spec
      cases result with
      | error e => exact before
      | ok repartD =>
          have reached := spec.2 rfl
          exact fromMarker_logged other here a.env repartD (noUp spec.1.symm) w' ⟨reached, before⟩

end Spec

/-! ## The calls of a daemon -/

/-- The one call that was answered with a passphrase, and what it was answered. -/
def ShownOnce (events : List Event) (c : Call) (passphrase : String) : Prop :=
  ∃ before after, events = before ++ .call c (.ok passphrase) :: after ∧
    ∀ e ∈ before ++ after, ¬ e.Succeeds

/-- The installation is the one that the call asked for. -/
structure Serves (events : List Event) (i : Installation) (c : Call) : Prop where
  authorised : c.Authorised
  body : c.body = .ok (i.recipe.device, i.recipe.oemInstall)
  shown : ShownOnce events c i.recipe.recoveryPassphrase
  secret : i.hasTpm2 = true → i.recipe.oemInstall = false →
    i.recipe.recoveryPassphrase = recoveryPassphrase c.recoveryRaw

theorem Phase.hasTpm2 {hasTpm2 hasPcrlock : Bool} {trace : List Event} {d : Daemon}
    (phase : Phase hasTpm2 hasPcrlock trace d) : d.hasTpm2 = hasTpm2 := by
  cases phase with
  | pending silent => rfl
  | sent recipe one => rfl
  | started recipe one => rfl

/-- What the answered calls of a daemon were answered. -/
theorem answered_of_run {hasTpm2 hasPcrlock : Bool} {trace : List Event} {d : Daemon}
    (run : Run Daemon.Step (.start hasTpm2 hasPcrlock) trace d) :
    Phase hasTpm2 hasPcrlock trace d ∧ ∀ c passphrase, Event.call c (.ok passphrase) ∈ trace →
      c.Authorised ∧ ∀ device oemInstall, c.body = .ok (device, oemInstall) →
        passphrase = if oemInstall || !hasTpm2 then "" else recoveryPassphrase c.recoveryRaw := by
  refine run.invariant (I := fun trace d => Phase hasTpm2 hasPcrlock trace d ∧
    ∀ c passphrase, Event.call c (.ok passphrase) ∈ trace → c.Authorised ∧
      ∀ device oemInstall, c.body = .ok (device, oemInstall) →
        passphrase = if oemInstall || !hasTpm2 then "" else recoveryPassphrase c.recoveryRaw) ?_ ?_
  · exact ⟨phase_of_run .nil, fun _ _ inside => absurd inside List.not_mem_nil⟩
  · rintro trace d e d' ⟨phase, before⟩ step
    refine ⟨phase.step step, fun c passphrase inside => ?_⟩
    rcases List.mem_append.mp inside with earlier | last
    · exact before c passphrase earlier
    · cases step with
      | receive woken => simp at last
      | call c' =>
          obtain ⟨rfl, same⟩ := Event.call.inj (List.mem_singleton.mp last)
          obtain ⟨authorised, made⟩ := Daemon.install_ok same.symm
          refine ⟨authorised, fun device oemInstall body => ?_⟩
          rw [made device oemInstall body, Daemon.passphrase, phase.hasTpm2]

/-- `main` starts the installation of the one call that succeeded. -/
theorem serves_of_run {hasTpm2 hasPcrlock : Bool} {trace : List Event} {d : Daemon} {i : Installation}
    (run : Run Daemon.Step (.start hasTpm2 hasPcrlock) trace d) (started : d.started = some i) :
    ∃ c, Serves trace i c := by
  obtain ⟨phase, answered⟩ := answered_of_run run
  cases phase with
  | pending silent => cases started
  | sent recipe one => cases started
  | started recipe one =>
      cases started
      obtain ⟨before, hit, after, rfl, triggers, none', rest⟩ := one
      cases hit with
      | receive => exact triggers.elim
      | call c reply =>
          cases reply with
          | error e => exact triggers.elim
          | ok passphrase =>
              obtain ⟨body, rfl⟩ := triggers
              obtain ⟨authorised, made⟩ := answered c recipe.recoveryPassphrase (by simp)
              refine ⟨c, authorised, body, ⟨before, after, rfl, fun e inside => ?_⟩, fun tpm whole => ?_⟩
              · rcases List.mem_append.mp inside with early | late
                · exact none' e early
                · exact rest e late
              · have built := made _ _ body
                rwa [whole, show hasTpm2 = true from tpm] at built

/-- The passphrase reads back as the secret. -/
theorem decodePassphrase_recovery (recoveryRaw : Vector UInt8 32) :
    decodePassphrase (recoveryPassphrase recoveryRaw) = some recoveryRaw.toList := by
  obtain ⟨whole, _, each⟩ := modhexGroups_flatten (length_recoveryRaw recoveryRaw)
  rw [decodePassphrase, recoveryPassphrase_toList, filter_intercalate, whole, joinNibbles_digits]
  intro group inside c listed same
  exact dash_not_mem_modhex (same ▸ (each group inside).2 c listed)

/-! ## One boot -/

/-- One start of the daemon: all its calls, and how the steps of its installation go. -/
structure Session where
  hasTpm2 : Bool
  hasPcrlock : Bool
  events : List Event
  daemon : Daemon
  ran : Run Daemon.Step (.start hasTpm2 hasPcrlock) events daemon
  env : Outcomes

namespace Session

def activation (s : Session) : Option Activation := s.daemon.started.map fun i => ⟨i, s.env⟩

/-- A daemon leaves the world as its installation leaves it, if it has started one. -/
def Step (w : World) (s : Session) (w' : World) : Prop :=
  w' = s.activation.elim w fun a => (doInstall a.env a.installation w).2

/-- The disk is partitioned for the call of the session, with its secret if a key is used. -/
structure PartitionsFor (s : Session) (cmd : Started) (device : String) (i : Installation) (c : Call) :
    Prop where
  started : s.daemon.started = some i
  device : i.recipe.device = device
  serves : Serves s.events i c
  encrypts : Encrypts i cmd
  decodes : keyFileArg ∈ cmd.args →
    decodePassphrase i.recipe.recoveryPassphrase = some c.recoveryRaw.toList

theorem partitionsFor_of_encrypts {s : Session} {cmd : Started} {i : Installation}
    (started : s.daemon.started = some i) (encrypts : Encrypts i cmd) {device : String}
    (partitions : cmd.Partitions device) : ∃ c, s.PartitionsFor cmd device i c := by
  obtain ⟨c, serves⟩ := serves_of_run s.ran started
  refine ⟨c, started, ?_, serves, encrypts, fun used => ?_⟩
  · have last := encrypts.partitions.2.2.symm.trans partitions.2.2
    exact (String.append_right_inj _).mp (Option.some.inj last)
  · obtain ⟨tpm, whole⟩ := encrypts.wanted.mp used
    rw [serves.secret tpm whole]
    exact decodePassphrase_recovery c.recoveryRaw

/-- Whatever disk the command partitions, it does so for the call of a session. -/
def Explained (sessions : List Session) (cmd : Started) : Prop :=
  ∀ device, cmd.Partitions device → ∃ s ∈ sessions, ∃ i c, s.PartitionsFor cmd device i c

/-- No device that is marked leads upwards. -/
def NoUp (sessions : List Session) : Prop :=
  ∀ s ∈ sessions, ∀ a, s.activation = some a → a.reaches = true → Piece.up ∉ pathText a.device

/-- One more daemon. -/
theorem step_explained {sessions : List Session} {w w' : World} {s : Session} {names : String → Prop}
    {C : Prop} (ready : Ready names C w) (logged : Logged (Explained sessions) w) (stepped : Step w s w')
    (noUp : NoUp (sessions ++ [s])) :
    (∃ names C, Ready names C w') ∧ Logged (Explained (sessions ++ [s])) w' := by
  have earlier : Logged (Explained (sessions ++ [s])) w := by
    intro cmd inside device partitions
    obtain ⟨t, member, found⟩ := logged cmd inside device partitions
    exact ⟨t, List.mem_append_left _ member, found⟩
  cases active : s.activation with
  | none =>
      rw [Step, active] at stepped
      rw [stepped]
      exact ⟨⟨names, C, ready⟩, earlier⟩
  | some a =>
      rw [Step, active] at stepped
      have here := noUp s (by simp) a active
      obtain ⟨i, started, rfl⟩ := Option.map_eq_some_iff.mp active
      rw [stepped]
      refine ⟨⟨_, _, doInstall_spec ⟨i, s.env⟩ here w ready⟩, ?_⟩
      refine doInstall_logged ?_ ⟨i, s.env⟩ ?_ here ready.dirs earlier
      · exact fun cmd none' device partitions => absurd partitions (none' device)
      · intro cmd encrypts device partitions
        obtain ⟨c, found⟩ := partitionsFor_of_encrypts started encrypts partitions
        exact ⟨s, by simp, i, c, found⟩

end Session

/--
Over every sequence of daemons in one boot, each disk was partitioned for an
authorised call that named it.  If the key file was used, it held the
passphrase that the caller had been shown, and that spells the caller's secret.
-/
theorem run_partitionsFor {w w' : World} {sessions : List Session} (booted : Booted w)
    (run : Run Session.Step w sessions w') (noUp : Session.NoUp sessions) :
    ∀ cmd ∈ w'.started, ∀ device, cmd.Partitions device →
      ∃ s ∈ sessions, ∃ i c, s.PartitionsFor cmd device i c := by
  have whole : Session.NoUp sessions →
      (∃ names C, Ready names C w') ∧ Logged (Session.Explained sessions) w' := by
    refine run.invariant (I := fun sessions w => Session.NoUp sessions →
      (∃ names C, Ready names C w) ∧ Logged (Session.Explained sessions) w) ?_ ?_
    · refine fun _ => ⟨⟨_, _, booted.dirs, Iff.rfl⟩, fun cmd inside => ?_⟩
      rw [booted.started] at inside
      cases inside
    · intro sessions w s w' before stepped noUp
      obtain ⟨⟨names, C, ready⟩, logged⟩ :=
        before fun other inside => noUp other (List.mem_append_left _ inside)
      exact Session.step_explained ready logged stepped noUp
  exact (whole noUp).2

/-- A denied call, an authorised one, and the installation that it starts. -/
def sampleSession : Session where
  hasTpm2 := true
  hasPcrlock := true
  events := _
  daemon := _
  ran := ((Run.nil.snoc (.call _ (sampleCall false))).snoc (.call _ (sampleCall true))).snoc (.receive rfl)
  env := sampleOutcomes (.ok ())

theorem sampleSession_partitionsFor : ∃ w' cmd, Run Session.Step sampleBoot [sampleSession] w' ∧
    cmd ∈ w'.started ∧ keyFileArg ∈ cmd.args ∧
      ∃ s ∈ [sampleSession], ∃ i c, s.PartitionsFor cmd "sda" i c := by
  have run : Run Session.Step sampleBoot [sampleSession] _ := Run.nil.snoc rfl
  have real : ((sampleSession.activation.elim sampleBoot fun a =>
      (doInstall a.env a.installation sampleBoot).2).started[2]?).map
        (fun cmd => (cmd.program, cmd.args.head?, cmd.args.getLast?, cmd.args[5]?)) =
      some ("systemd-repart", some "--dry-run=no", some ("/dev/" ++ "sda"), some keyFileArg) := by
    rfl
  obtain ⟨cmd, started, fields⟩ := Option.map_eq_some_iff.mp real
  simp only [Prod.mk.injEq] at fields
  obtain ⟨program, head, last, used⟩ := fields
  refine ⟨_, cmd, run, List.mem_of_getElem? started, List.mem_of_getElem? used, ?_⟩
  refine run_partitionsFor sampleBoot_booted run ?_ cmd (List.mem_of_getElem? started) "sda"
    ⟨program, head, last⟩
  rintro s inside a active _
  rw [List.mem_singleton.mp inside] at active
  have device : a.device = "sda" := by
    cases active
    rfl
  rw [device]
  decide

end GnomeBuildMeta.Installer
