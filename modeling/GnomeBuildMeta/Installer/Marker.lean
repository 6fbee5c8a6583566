import GnomeBuildMeta.Control.Run
import GnomeBuildMeta.Installer.DoInstall

/-!
# The marker of the disk being installed

Each activation of the daemon in one boot leaves its marker in
`/run/gnomeos-pab`, also when it fails later.  The directory marks just the
disk that `systemd-repart` is started on exactly if no earlier activation got
as far as marking another one.
-/

namespace GnomeBuildMeta.Installer

open GnomeBuildMeta.Control GnomeBuildMeta.Posix

def keysDir : Path String := ["cryptsetup-keys.d", "run"]

def pabDir : Path String := ["gnomeos-pab", "run"]

/-- The name under which a device is marked, if its path names an entry of the directory. -/
def deviceName (device : String) : Option String := entryName (pathText device)

/-! ## The directories below `/run` -/

/-- The directories that `do_install` writes to, with markers of the given names. -/
structure RunDirs (names : String → Prop) (fs : FileSystem String) : Prop where
  run : fs.isDirAt ["run"] = true
  keys : fs.get keysDir = none ∨ fs.isDirAt keysDir = true
  key : ∀ node, fs.get ("root.key" :: keysDir) = some node → node.isFile = true
  pab : fs.get pabDir = none ∨ fs.isDirAt pabDir = true
  files : ∀ n node, fs.get (n :: pabDir) = some node → node.isFile = true
  marked : ∀ n, (fs.get (n :: pabDir)).isSome = true ↔ names n

namespace RunDirs

variable {names : String → Prop} {fs : FileSystem String}

/-- A change at one location, outside the markers, that leaves there what is said of it. -/
theorem frame (dirs : RunDirs names fs) {fs' : FileSystem String} {p : Path String}
    (same : ∀ q, q ≠ p → fs'.get q = fs.get q) (notRun : p ≠ ["run"])
    (notMarker : ∀ n, p ≠ n :: pabDir) (keys : p = keysDir → fs'.isDirAt keysDir = true)
    (key : p = "root.key" :: keysDir → ∀ node, fs'.get p = some node → node.isFile = true)
    (pab : p = pabDir → fs'.isDirAt pabDir = true) : RunDirs names fs' := by
  have dir : ∀ q, (p = q → fs'.isDirAt q = true) → fs.get q = none ∨ fs.isDirAt q = true →
      fs'.get q = none ∨ fs'.isDirAt q = true := by
    intro q here before
    by_cases equal : p = q
    · exact Or.inr (here equal)
    · rwa [FileSystem.isDirAt, same q (Ne.symm equal)]
  refine ⟨?_, dir keysDir keys dirs.keys, fun node found => ?_, dir pabDir pab dirs.pab, ?_, ?_⟩
  · rw [FileSystem.isDirAt, same _ (Ne.symm notRun)]
    exact dirs.run
  · by_cases equal : p = "root.key" :: keysDir
    · exact key equal node (equal ▸ found)
    · rw [same _ (Ne.symm equal)] at found
      exact dirs.key node found
  · intro n
    rw [same _ (Ne.symm (notMarker n))]
    exact dirs.files n
  · intro n
    rw [same _ (Ne.symm (notMarker n))]
    exact dirs.marked n

theorem createKeysDir (dirs : RunDirs names fs) :
    ∃ fs', fs.createDirAll 0o755 keysDirText.reverse = .ok fs' ∧
      RunDirs names fs' ∧ fs'.isDirAt keysDir = true := by
  obtain ⟨fs', made, dir, same⟩ := fs.createDirAll_ok 0o755 dirs.run dirs.keys
  refine ⟨fs', made, dirs.frame same (by decide) ?_ (fun _ => dir) ?_ ?_, dir⟩
  · simp [pabDir]
  · exact fun equal => absurd equal (by decide)
  · exact fun equal => absurd equal (by decide)

theorem createPabDir (dirs : RunDirs names fs) :
    ∃ fs', fs.createDirAll 0o755 pabText.reverse = .ok fs' ∧
      RunDirs names fs' ∧ fs'.isDirAt pabDir = true := by
  obtain ⟨fs', made, dir, same⟩ := fs.createDirAll_ok 0o755 dirs.run dirs.pab
  refine ⟨fs', made, dirs.frame same (by decide) ?_ ?_ ?_ fun _ => dir, dir⟩
  · simp [pabDir]
  · exact fun equal => absurd equal (by decide)
  · exact fun equal => absurd equal (by decide)

theorem openKey (dirs : RunDirs names fs) (dir : fs.isDirAt keysDir = true) (stat : Stat)
    (data : List UInt8) :
    ∃ fs', fs.openWrite keyText stat data = .ok fs' ∧ RunDirs names fs' ∧
      fs'.isDirAt keysDir = true := by
  have noLink : ∀ target, fs.get ("root.key" :: keysDir) ≠ some (.symlink target) :=
    fun target link => nomatch dirs.key _ link
  have located : fs.locate true keyText = .ok ("root.key" :: keysDir) :=
    fs.locate_follow_textOf dir noLink
  obtain ⟨fs', stat', written, content⟩ := fs.openWrite_ok located dir dirs.key stat data
  have same : ∀ q, q ≠ "root.key" :: keysDir → fs'.get q = fs.get q := by
    intro q apart
    rw [content, if_neg apart]
  refine ⟨fs', written, dirs.frame same (by decide) ?_ ?_ ?_ ?_, ?_⟩
  · simp [pabDir, keysDir]
  · exact fun equal => absurd equal (by decide)
  · intro _ node found
    rw [content, if_pos rfl] at found
    cases found
    rfl
  · exact fun equal => absurd equal (by decide)
  · rw [FileSystem.isDirAt, same _ (by decide)]
    exact dir

/-- Reading a marker's path text means reading the device inside the directory. -/
theorem scan_markerText (dir : fs.isDirAt pabDir = true) (device : String) :
    scan fs.get true [] (markerText device) = scan fs.get true pabDir (pathText device) :=
  fs.scan_textOf true dir (pathText device)

theorem locate_marker (dirs : RunDirs names fs) (dir : fs.isDirAt pabDir = true) {device n : String}
    (named : deviceName device = some n) : fs.locate true (markerText device) = .ok (n :: pabDir) := by
  apply walk_of_scan_done
  rw [scan_markerText dir]
  exact FileSystem.scan_entryName dirs.files named

/-- Opening the marker of a device that names an entry adds that name. -/
theorem openMarker (dirs : RunDirs names fs) (dir : fs.isDirAt pabDir = true) {device n : String}
    (named : deviceName device = some n) (stat : Stat) :
    ∃ fs', fs.openWrite (markerText device) stat [] = .ok fs' ∧
      RunDirs (fun m => names m ∨ n = m) fs' := by
  have located := dirs.locate_marker dir named
  obtain ⟨fs', stat', written, content⟩ := fs.openWrite_ok located dir (dirs.files n) stat []
  have same : ∀ q, q ≠ n :: pabDir → fs'.get q = fs.get q := by
    intro q apart
    rw [content, if_neg apart]
  refine ⟨fs', written, ?_, ?_, ?_, ?_, ?_, ?_⟩
  · rw [FileSystem.isDirAt, same _ (by simp [pabDir])]
    exact dirs.run
  · rw [FileSystem.isDirAt, same _ (by simp [keysDir, pabDir])]
    exact dirs.keys
  · rw [same _ (by simp [keysDir, pabDir])]
    exact dirs.key
  · rw [FileSystem.isDirAt, same _ (by simp)]
    exact dirs.pab
  · intro m node found
    rw [content] at found
    split at found
    · cases found
      rfl
    · exact dirs.files m node found
  · intro m
    rw [content]
    by_cases here : n = m
    · simp [here]
    · have apart : m :: pabDir ≠ n :: pabDir := fun equal => here (List.cons.inj equal).1.symm
      rw [if_neg apart, dirs.marked]
      simp [here]

/-- Opening the marker of any other device fails, as long as its path does not lead upwards. -/
theorem openMarker_error (dirs : RunDirs names fs) (dir : fs.isDirAt pabDir = true)
    {device : String} (unnamed : deviceName device = none) (noUp : Piece.up ∉ pathText device)
    (stat : Stat) : ∃ e, fs.openWrite (markerText device) stat [] = .error e := by
  have scanned := scan_markerText dir device
  rcases FileSystem.scan_entryName_none dirs.files noUp unnamed with here | ⟨e, nowhere⟩
  · rw [here] at scanned
    obtain ⟨perm, found⟩ := (fs.isDirAt_iff _).mp dir
    have located : fs.locate true (markerText device) = .ok pabDir := walk_of_scan_done scanned
    exact ⟨.eisdir, by simp only [FileSystem.openWrite, located, bind, Except.bind, found]⟩
  · rw [nowhere] at scanned
    have located : fs.locate true (markerText device) = .error e := walk_of_scan_done scanned
    exact ⟨e, by simp only [FileSystem.openWrite, located, bind, Except.bind]⟩

end RunDirs

/-! ## What is said about a started command -/

/-- The command is `systemd-repart`, started for real on the device. -/
def Started.Partitions (s : Started) (device : String) : Prop :=
  s.program = "systemd-repart" ∧ s.args.head? = some "--dry-run=no" ∧
    s.args.getLast? = some ("/dev/" ++ device)

/-- The directory of markers has one for the device and for no other. -/
def MarkedOnly (fs : FileSystem String) (device : String) : Prop :=
  ∃ n, deviceName device = some n ∧ ∀ m, m ∈ fs.listdir pabDir ↔ m = n

/-- Whenever `systemd-repart` was started for real, only its device was marked. -/
def AllMarked (started : List Started) : Prop :=
  ∀ s ∈ started, ∀ device, s.Partitions device → MarkedOnly s.fs device

theorem allMarked_cons_other {s : Started} {started : List Started}
    (other : ∀ device, ¬ s.Partitions device) : AllMarked (s :: started) ↔ AllMarked started := by
  constructor
  · exact fun all t member => all t (List.mem_cons_of_mem _ member)
  · intro all t member device partitions
    rcases List.mem_cons.mp member with rfl | earlier
    · exact absurd partitions (other device)
    · exact all t earlier device partitions

theorem repartArgs_partitions {repartD device : String} {i : Installation} {fs : FileSystem String} :
    (Started.mk "systemd-repart" (repartArgs repartD i) fs).Partitions device ↔
      device = i.recipe.device := by
  have last : (repartArgs repartD i).getLast? = some ("/dev/" ++ i.recipe.device) := by
    rw [repartArgs, List.getLast?_append]
    rfl
  constructor
  · rintro ⟨_, _, same⟩
    rw [last, Option.some.injEq] at same
    exact (String.append_right_inj _).mp same.symm
  · rintro rfl
    exact ⟨rfl, rfl, last⟩

theorem allMarked_cons_repart {repartD : String} {i : Installation} {fs : FileSystem String}
    {started : List Started} :
    AllMarked (⟨"systemd-repart", repartArgs repartD i, fs⟩ :: started) ↔
      AllMarked started ∧ MarkedOnly fs i.recipe.device := by
  constructor
  · intro all
    exact ⟨fun t member => all t (List.mem_cons_of_mem _ member),
      all _ List.mem_cons_self _ (repartArgs_partitions.mpr rfl)⟩
  · rintro ⟨earlier, here⟩ t member device partitions
    rcases List.mem_cons.mp member with rfl | inside
    · rw [repartArgs_partitions.mp partitions]
      exact here
    · exact earlier t inside device partitions

/-- A marked device is the only one exactly if its name is the only one. -/
theorem RunDirs.markedOnly_iff {names : String → Prop} {fs : FileSystem String}
    (dirs : RunDirs names fs) {device n : String} (named : deviceName device = some n) :
    MarkedOnly fs device ↔ ∀ m, names m ↔ m = n := by
  have listed : ∀ m, m ∈ fs.listdir pabDir ↔ names m := fun m => by
    rw [fs.mem_listdir_iff, ← dirs.marked m, Option.isSome_iff_exists]
  constructor
  · rintro ⟨n', named', only⟩ m
    cases named.symm.trans named'
    rw [← listed, only]
  · intro only
    exact ⟨n, named, fun m => (listed m).trans (only m)⟩

/-! ## One activation -/

/-- One start of the daemon: the installation that it accepts and how its steps go. -/
structure Activation where
  installation : Installation
  env : Outcomes

namespace Activation

variable (a : Activation)

def device : String := a.installation.recipe.device

/-- The key file is not wanted, or it is written. -/
def keySaved : Bool :=
  !(a.installation.hasTpm2 && !a.installation.recipe.oemInstall) || a.env.keyFile.isOk

/-- The policy is not wanted, or it is made. -/
def policyMade : Bool :=
  !(a.installation.hasTpm2 && a.installation.hasPcrlock && !a.installation.recipe.oemInstall) ||
    a.env.makePolicy.isOk

/-- No step before the marker is opened fails on its own. -/
def reaches : Bool :=
  a.env.tempdir.isOk && a.env.writeRepartD.isOk && a.env.dryRun.succeeds && a.env.inhibit.isOk &&
    a.env.createKeysDir.isOk && a.keySaved && a.env.createPabDir.isOk && a.env.openMarker.isOk

/-- The marker that the activation makes. -/
def marker : Option String := if a.reaches then deviceName a.device else none

/-- The marker of the device on which the activation starts `systemd-repart` for real. -/
def partitioned : Option String := if a.policyMade && a.env.repart.spawn.isOk then a.marker else none

end Activation

/-- The markers have the given names, and `C` says whether only devices marked alone were partitioned. -/
structure Ready (names : String → Prop) (C : Prop) (w : World) : Prop where
  dirs : RunDirs names w.fs
  log : AllMarked w.started ↔ C

section Spec

variable {names : String → Prop} {C : Prop}

theorem Ready.record {w : World} (ready : Ready names C w) {program : String} {args : List String}
    (other : ∀ fs device, ¬ (Started.mk program args fs).Partitions device) :
    Ready names C { w with started := ⟨program, args, w.fs⟩ :: w.started } :=
  ⟨ready.dirs, (allMarked_cons_other (other w.fs)).trans ready.log⟩

/-- The key file is written as far as its outcome says. -/
theorem saveKey_decided (outcome : Except (Option Nat × Errno) Unit) (passphrase : String) :
    (saveKey outcome passphrase).Decided (fun w => Ready names C w ∧ w.fs.isDirAt keysDir = true)
      outcome.isOk fun w => Ready names C w ∧ w.fs.isDirAt keysDir = true := by
  have write : ∀ data, (Step.touch fun fs => fs.openWrite keyText (newFile keyMode) data).Decided
      (fun w => Ready names C w ∧ w.fs.isDirAt keysDir = true) true
      fun w => Ready names C w ∧ w.fs.isDirAt keysDir = true := by
    refine fun data => Step.touch_decided ?_
    rintro w ⟨ready, dir⟩
    obtain ⟨fs', written, dirs, dir'⟩ := ready.dirs.openKey dir (newFile keyMode) data
    exact ⟨fs', written, ⟨dirs, ready.log⟩, dir'⟩
  match outcome with
  | .ok () => exact write _
  | .error (none, e) => exact Step.check_decided _
  | .error (some n, e) => exact (write _).bind fun _ => Step.check_decided (.error (.io e))

theorem onlyIf_decided {P : World → Prop} {step : Step Unit} {b : Bool} (condition : Bool)
    (decided : step.Decided P b P) : (Step.onlyIf condition step).Decided P (!condition || b) P := by
  cases condition with
  | true => exact decided
  | false => exact .pure ()

theorem Ready.congr {names' : String → Prop} {w : World} (ready : Ready names C w)
    (same : ∀ n, names n ↔ names' n) : Ready names' C w :=
  ⟨{ ready.dirs with marked := fun n => (ready.dirs.marked n).trans (same n) }, ready.log⟩

/-- `/run/gnomeos-pab` is made, the marker opened. -/
theorem markDevice_decided (env : Outcomes) {device : String}
    (noUp : env.createPabDir.isOk = true → env.openMarker.isOk = true → Piece.up ∉ pathText device)
    {marker : Option String}
    (marks : marker = if env.createPabDir.isOk && env.openMarker.isOk then deviceName device else none) :
    (markDevice env device).Decided (Ready names C) marker.isSome
      (Ready (fun n => names n ∨ marker = some n) C) := by
  have unmarked : marker = none → ∀ w, Ready names C w →
      Ready (fun n => names n ∨ marker = some n) C w ∧ false = marker.isSome := by
    rintro none' w ready
    exact ⟨ready.congr fun n => by simp [none'], by simp [none']⟩
  refine (Step.io_decided env.createPabDir).ensures_bind ?_ ?_
  · intro failed e w ready
    exact unmarked (by rw [marks, failed]; rfl) w ready
  intro created _
  refine Program.Decided.ensures_bind (b := true)
    (R := fun w => Ready names C w ∧ w.fs.isDirAt pabDir = true) (Step.touch_decided ?_) ?_ ?_
  · intro w ready
    obtain ⟨fs', made, dirs, dir⟩ := ready.dirs.createPabDir
    exact ⟨fs', made, ⟨dirs, ready.log⟩, dir⟩
  · intro impossible
    cases impossible
  intro _ _
  refine (Step.io_decided env.openMarker).ensures_bind ?_ ?_
  · rintro failed e w ⟨ready, _⟩
    exact unmarked (by rw [marks, created, failed]; rfl) w ready
  intro opened _
  rw [created, opened] at marks
  cases named : deviceName device with
  | some n =>
      have marked : marker = some n := marks.trans named
      subst marked
      refine Step.touch_decided ?_
      rintro w ⟨ready, dir⟩
      obtain ⟨fs', written, dirs⟩ := ready.dirs.openMarker dir named (newFile 0o644)
      refine ⟨fs', written, ?_, ready.log⟩
      exact { dirs with marked := fun m => (dirs.marked m).trans (by rw [Option.some.injEq]) }
  | none =>
      have none' : marker = none := marks.trans named
      intro w ⟨ready, dir⟩
      obtain ⟨e, failed⟩ := ready.dirs.openMarker_error dir named (noUp created opened) (newFile 0o644)
      have stopped : Step.touch (fun fs => fs.openWrite (markerText device) (newFile 0o644) []) w =
          (.error (.io e), w) := by
        simp only [Step.touch, Program.change, failed]
      rw [stopped]
      exact unmarked none' w ready

/-- No earlier marker differs from the one of the device that the activation partitions. -/
def Activation.Alone (a : Activation) (names : String → Prop) : Prop :=
  ∀ n, a.partitioned = some n → ∀ m, names m → m = n

/-- What follows the real start of `systemd-repart` neither marks nor partitions a device. -/
theorem afterRepart_keeps {I : World → Prop} (env : Outcomes) (i : Installation)
    (record : ∀ w, I w → ∀ program args, program ≠ "systemd-repart" →
      I { w with started := ⟨program, args, w.fs⟩ :: w.started }) (disks : Json) :
    Program.Keeps I (do
      let partitions ← Step.check (partitions disks)
      Step.onlyIf (!i.recipe.oemInstall && i.hasTpm2) do
        let rootPartition ← Step.okOr "missing 50-root.conf" (partitions.lookup "50-root.conf")
        importToken env rootPartition
      Step.onlyIf (!i.recipe.oemInstall) (moveOver env i partitions)) := by
  have command : ∀ name program args child, program ≠ "systemd-repart" →
      Program.Keeps I (Step.command name program args child) :=
    fun name program args child other => (Program.Keeps.outside _).bind fun _ =>
      (Program.Keeps.update fun w holds => record w holds program args other).bind fun _ =>
        (Program.Keeps.outside _).bind fun _ => Program.Keeps.outside _
  have onlyIf : ∀ condition step, Program.Keeps I step → Program.Keeps I (Step.onlyIf condition step) := by
    intro condition step keeps
    cases condition with
    | true => exact keeps
    | false => exact Program.Keeps.pure ()
  have outside : ∀ {β : Type} (outcome : Except InstallerError β),
      Program.Keeps I (Step.check outcome) := fun outcome => Program.Keeps.outside outcome
  refine (outside _).bind fun found => (onlyIf _ _ ?_).bind fun _ => onlyIf _ _ ?_
  · refine (outside _).bind fun rootPartition => (outside _).bind fun _ => ?_
    refine (Program.Keeps.update fun w holds => record w holds _ _ (by decide)).bind fun _ => ?_
    exact (outside _).bind fun _ => (outside _).bind fun _ => outside _
  · refine (onlyIf _ _ (outside _)).bind fun _ => (outside _).bind fun usr => ?_
    refine (outside _).bind fun verity => (command _ _ _ _ (by decide)).bind fun _ => ?_
    exact (outside _).bind fun _ => (outside _).bind fun _ => outside _

/-- `systemd-repart` is started for real while the device is marked. -/
theorem Ready.repart {a : Activation} {w : World} (repartD : String) {n : String}
    (ready : Ready (fun m => names m ∨ a.marker = some m) C w) (device : deviceName a.device = some n)
    (named : a.marker = some n) (partitioned : a.partitioned = some n) :
    Ready (fun m => names m ∨ a.marker = some m) (C ∧ a.Alone names) { w with
      started := ⟨"systemd-repart", repartArgs repartD a.installation, w.fs⟩ :: w.started } := by
  refine ⟨ready.dirs, allMarked_cons_repart.trans (and_congr ready.log ?_)⟩
  refine (ready.dirs.markedOnly_iff device).trans ?_
  constructor
  · intro only k same m earlier
    rw [partitioned, Option.some.injEq] at same
    rw [← same]
    exact (only m).mp (Or.inl earlier)
  · intro alone m
    constructor
    · rintro (earlier | here)
      · exact alone n partitioned m earlier
      · rw [named, Option.some.injEq] at here
        exact here.symm
    · rintro rfl
      exact Or.inr named

/-- One activation adds its marker, and partitions a device marked alone if `Alone` says so. -/
theorem doInstall_spec (a : Activation)
    (noUp : a.reaches = true → Piece.up ∉ pathText a.device) :
    (doInstall a.env a.installation).Ensures (Ready names C) fun _ =>
      Ready (fun n => names n ∨ a.marker = some n) (C ∧ a.Alone names) := by
  have unpartitioned : a.partitioned = none → ∀ w,
      Ready (fun n => names n ∨ a.marker = some n) C w →
      Ready (fun n => names n ∨ a.marker = some n) (C ∧ a.Alone names) w := by
    intro none' w ready
    refine ⟨ready.dirs, ready.log.trans ⟨fun holds => ⟨holds, ?_⟩, And.left⟩⟩
    intro n partitioned
    rw [none'] at partitioned
    cases partitioned
  have unreached : a.reaches = false → ∀ w, Ready names C w →
      Ready (fun n => names n ∨ a.marker = some n) (C ∧ a.Alone names) w := by
    intro failed w ready
    have none' : a.marker = none := by simp [Activation.marker, failed]
    refine unpartitioned (by simp [Activation.partitioned, none']) w (ready.congr fun n => ?_)
    simp [none']
  have dryRun : ∀ repartD w, Ready names C w → Ready names C { w with
      started := ⟨"systemd-repart", dryRunArgs repartD a.device, w.fs⟩ :: w.started } :=
    fun repartD w ready => ready.record fun fs device partitions =>
      absurd partitions.2.1 (by simp [dryRunArgs])
  refine (Step.check_decided a.env.tempdir).ensures_bind
    (fun failed _ => unreached (by simp [Activation.reaches, failed])) fun tempdir repartD => ?_
  refine (Step.check_decided a.env.writeRepartD).ensures_bind
    (fun failed _ => unreached (by simp [Activation.reaches, failed])) fun written _ => ?_
  refine (Step.command_decided a.env.dryRun (dryRun repartD)).ensures_bind
    (fun failed _ => unreached (by simp [Activation.reaches, failed])) fun fits _ => ?_
  refine (Step.check_decided a.env.inhibit).ensures_bind
    (fun failed _ => unreached (by simp [Activation.reaches, failed])) fun inhibited _ => ?_
  refine (Step.io_decided a.env.createKeysDir).ensures_bind
    (fun failed _ => unreached (by simp [Activation.reaches, failed])) fun keysCreated _ => ?_
  refine Program.Decided.ensures_bind (b := true)
    (R := fun w => Ready names C w ∧ w.fs.isDirAt keysDir = true) (Step.touch_decided ?_)
    (fun impossible => nomatch impossible) fun _ _ => ?_
  · intro w ready
    obtain ⟨fs', made, dirs, dir⟩ := ready.dirs.createKeysDir
    exact ⟨fs', made, ⟨dirs, ready.log⟩, dir⟩
  refine (onlyIf_decided _ (saveKey_decided a.env.keyFile _)).ensures_bind
    (fun failed _ w ready => unreached ?_ w ready.1) fun saved _ => ?_
  · have unsaved : a.keySaved = false := failed
    simp [Activation.reaches, unsaved]
  have reaches : a.reaches = (a.env.createPabDir.isOk && a.env.openMarker.isOk) := by
    simp [Activation.reaches, tempdir, written, fits, inhibited, keysCreated,
      show a.keySaved = true from saved]
  refine Program.Ensures.strengthen (fun w holds => holds.1) ?_
  refine (markDevice_decided a.env (fun created opened => noUp (by rw [reaches, created, opened]; rfl))
    (show a.marker = _ by rw [← reaches]; rfl)).ensures_bind
    (fun failed _ w ready => unpartitioned ?_ w ready) fun marked _ => ?_
  · have none' : a.marker = none := by simpa using failed
    simp [Activation.partitioned, none']
  obtain ⟨n, named⟩ := Option.isSome_iff_exists.mp marked
  have device : deviceName a.device = some n := by
    rw [Activation.marker] at named
    split at named
    · exact named
    · cases named
  refine (onlyIf_decided _ (Step.check_decided a.env.makePolicy)).ensures_bind
    (fun failed _ => unpartitioned ?_) fun made _ => ?_
  · have unmade : a.policyMade = false := failed
    simp [Activation.partitioned, unmade]
  have after : ∀ w, Ready (fun n => names n ∨ a.marker = some n) (C ∧ a.Alone names) w →
      ∀ program args, program ≠ "systemd-repart" →
        Ready (fun n => names n ∨ a.marker = some n) (C ∧ a.Alone names)
          { w with started := ⟨program, args, w.fs⟩ :: w.started } :=
    fun w ready program args other => ready.record fun _ _ partitions => other partitions.1
  refine Program.Ensures.bind (fun _ => Ready (fun n => names n ∨ a.marker = some n)
    (C ∧ a.Alone names)) ?_ fun _ => (Program.Keeps.outside _).bind fun disks =>
      afterRepart_keeps a.env a.installation after disks
  refine Program.Ensures.cases
    (Q := fun _ => Ready (fun n => names n ∨ a.marker = some n) (C ∧ a.Alone names))
    ?_ (fun _ _ ready => ready) fun _ _ ready => ready
  refine (Step.io_decided a.env.repart.spawn).ensures_bind
    (fun failed _ => unpartitioned ?_) fun spawned _ => ?_
  · simp [Activation.partitioned, failed]
  have partitioned : a.partitioned = some n := by
    simp [Activation.partitioned, show a.policyMade = true from made, spawned, named]
  refine Program.Decided.ensures_bind (b := true)
    (R := Ready (fun n => names n ∨ a.marker = some n) (C ∧ a.Alone names))
    (Step.record_decided ?_) (fun impossible => nomatch impossible)
    fun _ _ => (Program.Keeps.outside _).bind fun status => Program.Keeps.outside _
  exact fun w ready => ready.repart _ device named partitioned

end Spec

/-! ## All activations of one boot -/

/-- After booting no device is marked and nothing has been started. -/
structure Booted (w : World) : Prop where
  dirs : RunDirs (fun _ => False) w.fs
  started : w.started = []

/-- An activation leaves the world as its installation leaves it, however that ends. -/
def Activation.Step (w : World) (a : Activation) (w' : World) : Prop :=
  w' = (doInstall a.env a.installation w).2

/-- No activation partitions a device after an earlier one has marked another. -/
def SameDevice (trace : List Activation) : Prop :=
  trace.Pairwise fun a b => ∀ m n, a.marker = some m → b.partitioned = some n → m = n

theorem sameDevice_snoc {trace : List Activation} {a : Activation} :
    SameDevice (trace ++ [a]) ↔
      SameDevice trace ∧ a.Alone fun m => ∃ earlier ∈ trace, earlier.marker = some m := by
  unfold SameDevice Activation.Alone
  rw [List.pairwise_append]
  constructor
  · rintro ⟨before, _, last⟩
    refine ⟨before, ?_⟩
    rintro n partitioned m ⟨earlier, member, marked⟩
    exact last earlier member a List.mem_cons_self m n marked partitioned
  · rintro ⟨before, alone⟩
    refine ⟨before, List.pairwise_singleton _ a, ?_⟩
    intro earlier member b inside m n marked partitioned
    rw [List.mem_singleton.mp inside] at partitioned
    exact alone n partitioned m ⟨earlier, member, marked⟩

theorem ready_of_run {w w' : World} {trace : List Activation} (booted : Booted w)
    (run : Run Activation.Step w trace w') :
    (∀ a ∈ trace, a.reaches = true → Piece.up ∉ pathText a.device) →
      Ready (fun m => ∃ a ∈ trace, a.marker = some m) (SameDevice trace) w' := by
  refine run.invariant (I := fun trace w =>
    (∀ a ∈ trace, a.reaches = true → Piece.up ∉ pathText a.device) →
      Ready (fun m => ∃ a ∈ trace, a.marker = some m) (SameDevice trace) w) ?_ ?_
  · intro _
    constructor
    · exact { booted.dirs with marked := fun n => (booted.dirs.marked n).trans (by simp) }
    · rw [booted.started]
      exact ⟨fun _ => List.Pairwise.nil, fun _ s member => nomatch member⟩
  · rintro trace w a w' ready rfl noUp
    have before := ready fun b member => noUp b (List.mem_append_left _ member)
    have after := doInstall_spec a (noUp a (by simp)) w before
    refine ⟨{ after.dirs with marked := fun n => (after.dirs.marked n).trans ?_ },
      after.log.trans sameDevice_snoc.symm⟩
    simp only [List.mem_append, List.mem_singleton, or_and_right, exists_or, exists_eq_left]

/-- A partition that the rules give a link lies on the disk that alone is marked. -/
theorem pabLinks_only {fs : FileSystem String} {device : String} (only : MarkedOnly fs device)
    (dev : BlockDevice) (links : pabLinks fs dev ≠ []) :
    dev.isPartition = true ∧
      (deviceName device = some dev.kernel ∨
        ∃ disk, dev.parent = some disk ∧ deviceName device = some disk) := by
  obtain ⟨n, named, listed⟩ := only
  have dir : fs.isDirAt pabDir = true := by
    obtain ⟨node, found⟩ := (fs.mem_listdir_iff _ _).mp ((listed n).mpr rfl)
    exact fs.parent_isDirAt found
  have tested : ∀ kernel, testMarker fs kernel = true → kernel = n := by
    intro kernel present
    refine (listed kernel).mp ((fs.mem_listdir_iff _ _).mpr ?_)
    cases found : fs.get (kernel :: pabDir) with
    | some node => exact ⟨node, rfl⟩
    | none =>
        have located : fs.locate true (pabText ++ [.name kernel]) = .ok (kernel :: pabDir) := by
          apply walk_of_scan_done
          refine (fs.scan_textOf true dir [.name kernel]).trans ?_
          simp [scan, found]
        simp [testMarker, FileSystem.stat, located, found] at present
  unfold pabLinks at links
  split at links
  · exact absurd rfl links
  · rename_i partition
    refine ⟨by simpa using partition, ?_⟩
    split at links
    · exact absurd rfl links
    · rename_i marked
      simp only [Bool.not_eq_true, Bool.not_eq_false', Bool.or_eq_true] at marked
      rcases marked with own | parent
      · exact Or.inl (named.trans (congrArg some (tested _ own).symm))
      · cases disk : dev.parent with
        | none => rw [disk] at parent; cases parent
        | some name =>
            rw [disk] at parent
            exact Or.inr ⟨name, rfl, named.trans (congrArg some (tested _ parent).symm)⟩

/--
Over every sequence of activations in one boot, `systemd-repart` was started
only on a device that alone was marked if and only if no activation partitioned
a device after an earlier one had marked another.  Then the rules link no
partition of another disk at that moment.
-/
theorem run_allMarked_iff {w w' : World} {trace : List Activation} (booted : Booted w)
    (run : Run Activation.Step w trace w')
    (noUp : ∀ a ∈ trace, a.reaches = true → Piece.up ∉ pathText a.device) :
    (AllMarked w'.started ↔ SameDevice trace) ∧
      (SameDevice trace → ∀ s ∈ w'.started, ∀ device, s.Partitions device →
        ∀ dev, pabLinks s.fs dev ≠ [] → dev.isPartition = true ∧
          (deviceName device = some dev.kernel ∨
            ∃ disk, dev.parent = some disk ∧ deviceName device = some disk)) := by
  have log := (ready_of_run booted run noUp).log
  refine ⟨log, fun same s member device partitions dev links => ?_⟩
  exact pabLinks_only (log.mpr same s member device partitions) dev links

/-! ## A retry on another disk -/

def sampleBoot : World where
  fs := {
    entries := [([], .dir 0o755), (["run"], .dir 0o755)]
    nodup := by simp
    root := rfl
    parents := by simp [Node.isDir] }
  started := []

theorem sampleBoot_booted : Booted sampleBoot where
  dirs := {
    run := rfl
    keys := Or.inl rfl
    key := fun _ found => nomatch found
    pab := Or.inl rfl
    files := fun n node found => by simp [sampleBoot, FileSystem.get, pabDir, List.lookup_cons, List.lookup_nil] at found
    marked := fun n => by simp [sampleBoot, FileSystem.get, pabDir] }
  started := rfl

def samplePartition (file node : String) : Json :=
  .object [("file", .string file), ("node", .string node)]

/-- Everything goes well, except perhaps the policy. -/
def sampleOutcomes (makePolicy : Except InstallerError Unit) : Outcomes where
  tempdir := .ok "/tmp/.tmpAbCdEf"
  writeRepartD := .ok ()
  dryRun := ⟨.ok (), .ok (some 0)⟩
  inhibit := .ok ()
  createKeysDir := .ok ()
  keyFile := .ok ()
  createPabDir := .ok ()
  openMarker := .ok ()
  makePolicy := makePolicy
  repart := ⟨.ok (), .ok (some 0)⟩
  parsed := .ok (.array
    [samplePartition "/tmp/.tmpAbCdEf/20-usr-verity-A.conf" "/dev/sdb2",
      samplePartition "/tmp/.tmpAbCdEf/21-usr-A.conf" "/dev/sdb3",
      samplePartition "/tmp/.tmpAbCdEf/50-root.conf" "/dev/sdb6"])
  cryptsetupToken := ⟨.ok (), .ok (some 0)⟩
  writeToken := .ok ()
  removeCredentials := .ok ()
  enableEfi := .ok ()
  swapVerity := ⟨.ok (), .ok (some 0)⟩
  stopZram := .ok ()
  removeLoop := .ok ()

def sampleActivation (device : String) (makePolicy : Except InstallerError Unit) : Activation where
  installation := ⟨⟨device, "cbde", false⟩, true, true⟩
  env := sampleOutcomes makePolicy

/-- The world after the given activations, the first one first. -/
def World.after (w : World) (trace : List Activation) : World :=
  trace.foldl (fun w a => (doInstall a.env a.installation w).2) w

theorem run_after (w : World) (trace : List Activation) :
    Run Activation.Step w trace (w.after trace) := by
  induction trace using List.reverseRecOn with
  | nil => exact .nil
  | append_singleton trace a ih => exact ih.snoc (by simp [World.after, Activation.Step])

def failedOnSda : Activation :=
  sampleActivation "sda" (.error (.command "systemd-pcrlock" (some 1)))

/-- The policy cannot be made for the first disk; the second one is partitioned with both marked. -/
theorem retry_marks_both : ∃ w trace w', Booted w ∧ Run Activation.Step w trace w' ∧
    (∀ a ∈ trace, Piece.up ∉ pathText a.device) ∧ ¬ AllMarked w'.started := by
  refine ⟨sampleBoot, [failedOnSda, sampleActivation "sdb" (.ok ())], _, sampleBoot_booted,
    run_after _ _, by decide, ?_⟩
  have both : ((sampleBoot.after [failedOnSda, sampleActivation "sdb" (.ok ())]).started[2]?).map
      (fun s => (s.program, s.args.head?, s.args.getLast?, s.fs.listdir pabDir)) =
      some ("systemd-repart", some "--dry-run=no", some ("/dev/" ++ "sdb"), ["sdb", "sda"]) := by
    rfl
  obtain ⟨s, started, fields⟩ := Option.map_eq_some_iff.mp both
  simp only [Prod.mk.injEq] at fields
  obtain ⟨program, real, last, listed⟩ := fields
  intro all
  obtain ⟨n, _, only⟩ := all s (List.mem_of_getElem? started) "sdb" ⟨program, real, last⟩
  have one := (only "sda").mp (by rw [listed]; decide)
  have other := (only "sdb").mp (by rw [listed]; decide)
  exact absurd (one.trans other.symm) (by decide)

/-- A retry on the same disk partitions it with only that disk marked. -/
theorem retry_same_marked : ∃ w trace w', Booted w ∧ Run Activation.Step w trace w' ∧
    trace.length = 2 ∧ w'.started.length = 5 ∧ AllMarked w'.started := by
  have run := run_after sampleBoot [failedOnSda, sampleActivation "sda" (.ok ())]
  have same : SameDevice [failedOnSda, sampleActivation "sda" (.ok ())] := by
    simp only [SameDevice, List.pairwise_cons, List.mem_singleton, List.not_mem_nil, IsEmpty.forall_iff,
      implies_true, List.Pairwise.nil, and_true]
    rintro b rfl m n marked partitioned
    have sda : failedOnSda.marker = some "sda" := by rfl
    have sda' : (sampleActivation "sda" (.ok ())).partitioned = some "sda" := by rfl
    rw [sda] at marked
    rw [sda'] at partitioned
    exact Option.some.inj (marked.symm.trans partitioned)
  exact ⟨sampleBoot, _, _, sampleBoot_booted, run, rfl, rfl,
    (run_allMarked_iff sampleBoot_booted run (by decide)).1.mpr same⟩

end GnomeBuildMeta.Installer
