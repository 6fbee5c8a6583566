import GnomeBuildMeta.Installer.Marker
import GnomeBuildMeta.Posix.Reaches

/-!
# Where the marker goes

`do_install` puts the same string behind `/run/gnomeos-pab/` and behind `/dev/`.
The marker is the one of the partitioned disk, whatever happens, only if the
string is the name of a device node in `/dev`.
-/

namespace GnomeBuildMeta.Installer

open GnomeBuildMeta.Control GnomeBuildMeta.Posix

/-- `format!("/dev/{device}")` -/
def devText (device : String) : PathText String := .empty :: textOf ["dev"] ++ pathText device

/-! ## Up to the marker -/

/-- The steps of `do_install` before the marker is opened. -/
def untilMarker (env : Outcomes) (i : Installation) : Step String := do
  let repartD ← Step.check env.tempdir
  Step.check env.writeRepartD
  Step.command "systemd-repart dry run" "systemd-repart" (dryRunArgs repartD i.recipe.device)
    env.dryRun
  Step.check env.inhibit
  Step.io env.createKeysDir
  Step.touch fun fs => fs.createDirAll 0o755 keysDirText.reverse
  Step.onlyIf (i.hasTpm2 && !i.recipe.oemInstall) (saveKey env.keyFile i.recipe.recoveryPassphrase)
  Step.io env.createPabDir
  Step.touch fun fs => fs.createDirAll 0o755 pabText.reverse
  Step.io env.openMarker
  return repartD

/-- The steps from the open marker on. -/
def fromMarker (env : Outcomes) (i : Installation) (repartD : String) : Step Unit := do
  Step.touch fun fs => fs.openWrite (markerText i.recipe.device) (newFile 0o644) []
  Step.onlyIf (i.hasTpm2 && i.hasPcrlock && !i.recipe.oemInstall) (Step.check env.makePolicy)
  Step.command "systemd-repart" "systemd-repart" (repartArgs repartD i) env.repart
  let disks ← Step.check env.parsed
  let partitions ← Step.check (partitions disks)
  Step.onlyIf (!i.recipe.oemInstall && i.hasTpm2) do
    let rootPartition ← Step.okOr "missing 50-root.conf" (partitions.lookup "50-root.conf")
    importToken env rootPartition
  Step.onlyIf (!i.recipe.oemInstall) (moveOver env i partitions)

theorem doInstall_eq (env : Outcomes) (i : Installation) :
    doInstall env i = untilMarker env i >>= fromMarker env i := by
  simp only [doInstall, untilMarker, fromMarker, markDevice, bind_assoc, pure_bind]

/-! ## What is asked of a device -/

/--
What `systemd-repart` can partition when it is given a path: an empty disk, an
image, the disk below a directory.
-/
abbrev Partitionable := FileSystem String → PathText String → Prop

/-- An installation of the device; the dry run succeeds only on what can be partitioned. -/
structure Possible (partitionable : Partitionable) (fs : FileSystem String) (device : String)
    (env : Outcomes) (i : Installation) : Prop where
  named : i.recipe.device = device
  dryRun : env.dryRun.succeeds = true → partitionable fs (devText device)

/--
The marker is an entry of `/run/gnomeos-pab`, and the disk is the device node of
the same name in `/dev`; a node is a `chardev` here, also that of a disk.
-/
def MarksDisk (fs : FileSystem String) (device : String) : Prop :=
  ∃ n major minor, fs.locate true (markerText device) = .ok (n :: pabDir) ∧
    fs.locate true (devText device) = .ok [n, "dev"] ∧
    fs.get [n, "dev"] = some (.chardev major minor)

/-- No file has been created or written. -/
def Untouched (fs fs' : FileSystem String) : Prop :=
  ∀ p node, fs'.get p = some node → node.isFile = true → fs.get p = some node

/-- The installation fails, and it has not touched a file, neither before the marker nor later. -/
structure FailsFirst (w : World) (env : Outcomes) (i : Installation) : Prop where
  fails : (doInstall env i w).1.isOk = false
  before : Untouched w.fs (untilMarker env i w).2.fs
  after : Untouched w.fs (doInstall env i w).2.fs

/-- Every marker that is opened is that of the disk, or every installation fails first. -/
def Confined (partitionable : Partitionable) (w : World) (device : String) : Prop :=
  (∀ env i, Possible partitionable w.fs device env i → ∀ repartD w',
      untilMarker env i w = (.ok repartD, w') → MarksDisk w'.fs device) ∨
    ∀ env i, Possible partitionable w.fs device env i → FailsFirst w env i

/-- The string names a device node in `/dev`. -/
def NamesNode (fs : FileSystem String) (device : String) : Prop :=
  ∃ n major minor, deviceName device = some n ∧ fs.get [n, "dev"] = some (.chardev major minor)

/-- The name `gnomeos-pab` is used for nothing else, and no link mentions it. -/
structure NameUnused (fs : FileSystem String) : Prop where
  elsewhere : ∀ p node, fs.get ("gnomeos-pab" :: p) = some node → p = ["run"]
  mentioned : ∀ p target, fs.get p = some (.symlink target) → .name "gnomeos-pab" ∉ target

/-! ## The dry run comes first -/

/-- Without a dry run that succeeds nothing is changed. -/
theorem unchanged_of_dryRun {env : Outcomes} {i : Installation} {w : World}
    (fails : env.dryRun.succeeds = false) :
    (untilMarker env i w).1.isOk = false ∧ (untilMarker env i w).2.fs = w.fs := by
  have ensures : (untilMarker env i).Ensures (fun w' => w'.fs = w.fs)
      fun result w' => result.isOk = false ∧ w'.fs = w.fs := by
    refine (Step.check_decided env.tempdir).ensures_bind (fun _ _ _ same => ⟨rfl, same⟩)
      fun _ repartD => ?_
    refine (Step.check_decided env.writeRepartD).ensures_bind (fun _ _ _ same => ⟨rfl, same⟩)
      fun _ _ => ?_
    refine (Step.command_decided env.dryRun (P := fun w' => w'.fs = w.fs) fun _ same => same).ensures_bind
      (fun _ _ _ same => ⟨rfl, same⟩) fun succeeds => ?_
    rw [fails] at succeeds
    cases succeeds
  exact ensures w rfl

theorem doInstall_of_failed {env : Outcomes} {i : Installation} {w : World}
    (fails : (untilMarker env i w).1.isOk = false) :
    (doInstall env i w).1.isOk = false ∧ (doInstall env i w).2 = (untilMarker env i w).2 := by
  rw [doInstall_eq]
  change (Program.bind (untilMarker env i) (fromMarker env i) w).1.isOk = false ∧
    (Program.bind (untilMarker env i) (fromMarker env i) w).2 = _
  unfold Program.bind
  cases run : untilMarker env i w with
  | mk result w' =>
      rw [run] at fails
      cases result with
      | ok repartD => cases fails
      | error e => exact ⟨rfl, rfl⟩

theorem failsFirst_of_dryRun {env : Outcomes} {i : Installation} {w : World}
    (fails : env.dryRun.succeeds = false) : FailsFirst w env i := by
  obtain ⟨failed, same⟩ := unchanged_of_dryRun (i := i) (w := w) fails
  obtain ⟨fails', after⟩ := doInstall_of_failed failed
  refine ⟨fails', ?_, ?_⟩
  · rw [same]
    exact fun _ _ found _ => found
  · rw [after, same]
    exact fun _ _ found _ => found

/-! ## Reaching the marker -/

/-- The directories are as before, and everything else that is not the key is the same. -/
structure Made (names : String → Prop) (fs fs' : FileSystem String) : Prop where
  dirs : RunDirs names fs'
  same : ∀ p, p ≠ keysDir → p ≠ "root.key" :: keysDir → p ≠ pabDir → fs'.get p = fs.get p

namespace Made

variable {names : String → Prop} {fs fs' : FileSystem String}

theorem createKeysDir (made : Made names fs fs') :
    ∃ fs'', fs'.createDirAll 0o755 keysDirText.reverse = .ok fs'' ∧ Made names fs fs'' ∧
      fs''.isDirAt keysDir = true := by
  obtain ⟨fs'', created, dirs, dir⟩ := made.dirs.createKeysDir
  obtain ⟨_, created', _, frame⟩ := fs'.createDirAll_ok 0o755 made.dirs.run made.dirs.keys
  cases created.symm.trans created'
  exact ⟨fs'', created, ⟨dirs, fun p keys key pab => (frame p keys).trans (made.same p keys key pab)⟩, dir⟩

theorem createPabDir (made : Made names fs fs') :
    ∃ fs'', fs'.createDirAll 0o755 pabText.reverse = .ok fs'' ∧ Made names fs fs'' ∧
      fs''.isDirAt pabDir = true ∧ fs''.get ("root.key" :: keysDir) = fs'.get ("root.key" :: keysDir) := by
  obtain ⟨fs'', created, dirs, dir⟩ := made.dirs.createPabDir
  obtain ⟨_, created', _, frame⟩ := fs'.createDirAll_ok 0o755 made.dirs.run made.dirs.pab
  cases created.symm.trans created'
  exact ⟨fs'', created, ⟨dirs, fun p keys key pab => (frame p pab).trans (made.same p keys key pab)⟩, dir,
    frame _ (by decide)⟩

theorem openKey (made : Made names fs fs') (dir : fs'.isDirAt keysDir = true) (stat : Stat)
    (data : List UInt8) :
    ∃ fs'', fs'.openWrite keyText stat data = .ok fs'' ∧ Made names fs fs'' ∧
      fs''.isDirAt keysDir = true ∧ ∃ stat', fs''.get ("root.key" :: keysDir) = some (.file stat' data) := by
  obtain ⟨fs'', written, dirs, dir'⟩ := made.dirs.openKey dir stat data
  have noLink : ∀ target, fs'.get ("root.key" :: keysDir) ≠ some (.symlink target) := by
    intro target link
    cases made.dirs.key _ link
  have located : fs'.locate true keyText = .ok ("root.key" :: keysDir) :=
    fs'.locate_follow_textOf dir noLink
  obtain ⟨_, stat', written', content⟩ := fs'.openWrite_ok located dir made.dirs.key stat data
  cases written.symm.trans written'
  have here : fs''.get ("root.key" :: keysDir) = some (.file stat' data) := by
    rw [content, if_pos rfl]
  have frame : ∀ p, p ≠ "root.key" :: keysDir → fs''.get p = fs'.get p := by
    intro p apart
    rw [content, if_neg apart]
  exact ⟨fs'', written, ⟨dirs, fun p keys key pab => (frame p key).trans (made.same p keys key pab)⟩, dir',
    stat', here⟩

end Made

/-- The bytes of the key file. -/
def keyData (i : Installation) : List UInt8 := i.recipe.recoveryPassphrase.toByteArray.toList

/-- The state in which the marker is opened. -/
structure Reached (names : String → Prop) (fs : FileSystem String) (i : Installation)
    (fs' : FileSystem String) : Prop where
  made : Made names fs fs'
  dir : fs'.isDirAt pabDir = true
  key : (i.hasTpm2 && !i.recipe.oemInstall) = true →
    ∃ stat, fs'.get ("root.key" :: keysDir) = some (.file stat (keyData i))

section Spec

variable {names : String → Prop} {fs : FileSystem String}

theorem saveKey_made (i : Installation) (outcome : Except (Option Nat × Errno) Unit) :
    (saveKey outcome i.recipe.recoveryPassphrase).Decided
      (fun w => Made names fs w.fs ∧ w.fs.isDirAt keysDir = true) outcome.isOk
      fun w => Made names fs w.fs ∧ (outcome.isOk = true →
        ∃ stat, w.fs.get ("root.key" :: keysDir) = some (.file stat (keyData i))) := by
  have write : ∀ data, (Step.touch fun fs => fs.openWrite keyText (newFile keyMode) data).Decided
      (fun w => Made names fs w.fs ∧ w.fs.isDirAt keysDir = true) true
      fun w => Made names fs w.fs ∧ ∃ stat, w.fs.get ("root.key" :: keysDir) = some (.file stat data) := by
    refine fun data => Step.touch_decided ?_
    rintro w ⟨made, dir⟩
    obtain ⟨fs', written, made', _, content⟩ := made.openKey dir (newFile keyMode) data
    exact ⟨fs', written, made', content⟩
  cases outcome with
  | ok done =>
      intro w holds
      obtain ⟨⟨made, content⟩, ended⟩ := write (keyData i) w holds
      exact ⟨⟨made, fun _ => content⟩, ended⟩
  | error failure =>
      obtain ⟨written, e⟩ := failure
      cases written with
      | none =>
          rintro w ⟨made, _⟩
          refine ⟨⟨made, fun impossible => ?_⟩, rfl⟩
          cases impossible
      | some n =>
          refine (write _).ensures_bind (fun impossible => Bool.noConfusion impossible) fun _ _ => ?_
          rintro w ⟨made, _⟩
          refine ⟨⟨made, fun impossible => ?_⟩, rfl⟩
          cases impossible

/-- The marker is opened exactly if no step before fails on its own. -/
theorem untilMarker_spec (dirs : RunDirs names fs) (env : Outcomes) (i : Installation) :
    (untilMarker env i).Ensures (fun w => w.fs = fs) fun result w =>
      result.isOk = (Activation.mk i env).reaches ∧ (result.isOk = true → Reached names fs i w.fs) := by
  have failed : (Activation.mk i env).reaches = false → ∀ (e : InstallerError) (w : World),
      (Except.error e : Except InstallerError String).isOk = (Activation.mk i env).reaches ∧
        ((Except.error e : Except InstallerError String).isOk = true → Reached names fs i w.fs) := by
    intro unreached e w
    refine ⟨unreached.symm, fun impossible => ?_⟩
    cases impossible
  refine (Step.check_decided env.tempdir).ensures_bind
    (fun fails e w _ => failed (by simp [Activation.reaches, fails]) e w) fun tempdir repartD => ?_
  refine (Step.check_decided env.writeRepartD).ensures_bind
    (fun fails e w _ => failed (by simp [Activation.reaches, fails]) e w) fun written _ => ?_
  refine (Step.command_decided env.dryRun (P := fun w => w.fs = fs) fun _ same => same).ensures_bind
    (fun fails e w _ => failed (by simp [Activation.reaches, fails]) e w) fun fits _ => ?_
  refine (Step.check_decided env.inhibit).ensures_bind
    (fun fails e w _ => failed (by simp [Activation.reaches, fails]) e w) fun inhibited _ => ?_
  refine (Step.io_decided env.createKeysDir).ensures_bind
    (fun fails e w _ => failed (by simp [Activation.reaches, fails]) e w) fun keysCreated _ => ?_
  refine Program.Decided.ensures_bind (b := true)
    (R := fun w => Made names fs w.fs ∧ w.fs.isDirAt keysDir = true) (Step.touch_decided ?_)
    (fun impossible => Bool.noConfusion impossible) fun _ _ => ?_
  · rintro w rfl
    obtain ⟨fs', created, made, dir⟩ := Made.createKeysDir ⟨dirs, fun _ _ _ _ => rfl⟩
    exact ⟨fs', created, made, dir⟩
  refine Program.Decided.ensures_bind (b := (Activation.mk i env).keySaved)
    (R := fun w => Made names fs w.fs ∧ ((Activation.mk i env).keySaved = true →
      (i.hasTpm2 && !i.recipe.oemInstall) = true →
        ∃ stat, w.fs.get ("root.key" :: keysDir) = some (.file stat (keyData i)))) ?_
    (fun fails e w _ => failed (by simp [Activation.reaches, fails]) e w) fun saved _ => ?_
  · cases wanted : i.hasTpm2 && !i.recipe.oemInstall with
    | false =>
        rintro w ⟨made, _⟩
        refine ⟨⟨made, fun _ impossible => Bool.noConfusion impossible⟩, ?_⟩
        simp [Activation.keySaved, wanted, Step.onlyIf, pure, Program.pure, Except.isOk, Except.toBool]
    | true =>
        intro w holds
        obtain ⟨⟨made, content⟩, ended⟩ := saveKey_made i env.keyFile w holds
        have same : (Activation.mk i env).keySaved = env.keyFile.isOk := by
          simp [Activation.keySaved, wanted]
        rw [same]
        exact ⟨⟨made, fun saved _ => content saved⟩, ended⟩
  refine (Step.io_decided env.createPabDir).ensures_bind
    (fun fails e w _ => failed (by simp [Activation.reaches, fails]) e w) fun pabCreated _ => ?_
  refine Program.Decided.ensures_bind (b := true) (R := fun w => Reached names fs i w.fs)
    (Step.touch_decided ?_) (fun impossible => Bool.noConfusion impossible) fun _ _ => ?_
  · rintro w ⟨made, key⟩
    obtain ⟨fs', created, made', dir, same⟩ := made.createPabDir
    refine ⟨fs', created, made', dir, fun wanted => ?_⟩
    rw [same]
    exact key saved wanted
  refine (Step.io_decided env.openMarker).ensures_bind
    (fun fails e w _ => failed (by simp [Activation.reaches, fails]) e w) fun opened _ => ?_
  have all : (Activation.mk i env).reaches = true := by
    simp [Activation.reaches, tempdir, written, fits, inhibited, keysCreated, saved, pabCreated, opened]
  intro w reached
  rw [all]
  exact ⟨rfl, fun _ => reached⟩

/-- The name of an entry leads to the marker and to the device of that name. -/
theorem marksDisk_of_named {fs' : FileSystem String} {i : Installation} (dev : fs.isDirAt ["dev"] = true)
    {device : String} (named : NamesNode fs device) (reached : Reached names fs i fs') :
    MarksDisk fs' device := by
  obtain ⟨n, major, minor, isName, node⟩ := named
  have dev' : fs'.isDirAt ["dev"] = true := by
    rw [FileSystem.isDirAt, reached.made.same _ (by decide) (by decide) (by decide)]
    exact dev
  have node' : fs'.get [n, "dev"] = some (.chardev major minor) := by
    rw [reached.made.same _ (by simp [keysDir]) (by simp [keysDir]) (by simp [pabDir])]
    exact node
  have noLink' : ∀ target, fs'.get [n, "dev"] ≠ some (.symlink target) := by
    intro target link
    rw [node'] at link
    cases link
  refine ⟨n, major, minor, reached.made.dirs.locate_marker reached.dir isName, ?_, node'⟩
  apply walk_of_scan_done
  exact (fs'.scan_textOf true dev' (pathText device)).trans
    (FileSystem.scan_entryName_of_not_link noLink' isName)

/-! ## No other string does -/

variable {look : Posix.Tree String} {follow : Bool} {cwd q : Path String} {text : PathText String} {k : Nat}

/-- Only the name itself leads into the directory. -/
theorem name_mem_of_reaches (mentioned : ∀ p target, look p = some (.symlink target) →
      .name "gnomeos-pab" ∉ target)
    (reaches : Reaches look follow cwd text k q) (inside : pabDir <:+ q) :
    pabDir <:+ cwd ∨ .name "gnomeos-pab" ∈ text := by
  have enters : ∀ {n : String} {cwd : Path String}, pabDir <:+ n :: cwd →
      pabDir <:+ cwd ∨ n = "gnomeos-pab" := by
    intro n cwd suffix
    rcases List.suffix_cons_iff.mp suffix with same | within
    · exact Or.inr (List.cons.inj same).1.symm
    · exact Or.inl within
  induction reaches with
  | done => exact Or.inl inside
  | empty _ ih | cur _ ih => exact (ih inside).imp_right (List.mem_cons_of_mem _)
  | up _ ih =>
      exact (ih inside).imp (fun suffix => suffix.trans (List.tail_suffix _)) (List.mem_cons_of_mem _)
  | dir _ _ ih =>
      rcases ih inside with suffix | later
      · rcases enters suffix with within | rfl
        · exact Or.inl within
        · exact Or.inr List.mem_cons_self
      · exact Or.inr (List.mem_cons_of_mem _ later)
  | leaf _ _ _ =>
      rcases enters inside with within | rfl
      · exact Or.inl within
      · exact Or.inr List.mem_cons_self
  | link found _ _ ih =>
      rcases ih inside with suffix | later
      · rw [linkStart] at suffix
        split at suffix
        · cases List.suffix_nil.mp suffix
        · exact Or.inl suffix
      · rcases List.mem_append.mp later with target | rest
        · exact absurd target (mentioned _ _ found)
        · exact Or.inr (List.mem_cons_of_mem _ rest)

/-- The name stands in the one directory, so a text that goes on behind it goes on from there. -/
theorem reaches_behind_name (grounded : Grounded look)
    (elsewhere : ∀ p node, look ("gnomeos-pab" :: p) = some node → p = ["run"])
    (dir : (look pabDir).any Node.isDir = true) (start : (look cwd).any Node.isDir = true)
    {before rest : PathText String}
    (reaches : Reaches look follow cwd (before ++ .name "gnomeos-pab" :: rest) k q) :
    ∃ k', Reaches look follow pabDir rest k' q := by
  obtain ⟨_, p, _, _, _, later, _⟩ := reaches.split grounded (List.cons_ne_nil _ _) start
  have isDir : ∀ {node}, look ("gnomeos-pab" :: p) = some node → "gnomeos-pab" :: p = pabDir ∧
      node.isDir = true := by
    intro node found
    have same : "gnomeos-pab" :: p = pabDir := by rw [elsewhere p node found]; rfl
    rw [← same, found] at dir
    exact ⟨same, dir⟩
  cases later with
  | dir here later =>
      obtain ⟨node, found, _⟩ := (Option.any_eq_true _ _).mp here
      exact ⟨_, (isDir found).1 ▸ later⟩
  | leaf found noDir _ =>
      rw [(isDir found).2] at noDir
      cases noDir
  | link found _ _ =>
      cases (isDir found).2

/-- The pieces that lead nowhere. -/
def Idle (text : PathText String) : Prop := ∀ piece ∈ text, piece = .empty ∨ piece = .cur

theorem reaches_behind_idle {idle rest : PathText String} (isIdle : Idle idle)
    (reaches : Reaches look follow cwd (idle ++ rest) k q) : Reaches look follow cwd rest k q := by
  induction idle with
  | nil => exact reaches
  | cons piece idle ih =>
      have rest' : Reaches look follow cwd (idle ++ rest) k q := by
        rcases isIdle piece List.mem_cons_self with rfl | rfl
        · cases reaches with
          | empty later => exact later
        · cases reaches with
          | cur later => exact later
      exact ih (fun piece inside => isIdle piece (List.mem_cons_of_mem _ inside)) rest'

/-- Out of a directory of files a text leads to an entry of it, or it leads upwards first. -/
theorem entry_or_up {n : String}
    (files : ∀ m node, look (m :: pabDir) = some node → node.isFile = true)
    (reaches : Reaches look true pabDir text k (n :: pabDir)) :
    entryName text = some n ∨ ∃ idle rest k', text = idle ++ .up :: rest ∧ Idle idle ∧
      Reaches look true ["run"] rest k' (n :: pabDir) := by
  have keeps : ∀ {piece rest}, piece = .empty ∨ piece = .cur →
      (∃ idle rest' k', rest = idle ++ .up :: rest' ∧ Idle idle ∧
        Reaches look true ["run"] rest' k' (n :: pabDir)) →
      ∃ idle rest' k', piece :: rest = idle ++ .up :: rest' ∧ Idle idle ∧
        Reaches look true ["run"] rest' k' (n :: pabDir) := by
    rintro piece rest isIdle ⟨idle, rest', k', rfl, idles, later⟩
    exact ⟨piece :: idle, rest', k', rfl, List.forall_mem_cons.mpr ⟨isIdle, idles⟩, later⟩
  induction text generalizing k with
  | nil =>
      have same := (reaches.unique .done).2
      exact absurd (congrArg List.length same) (by simp)
  | cons piece rest ih =>
      cases reaches with
      | empty later => exact (ih later).imp_right (keeps (Or.inl rfl))
      | cur later => exact (ih later).imp_right (keeps (Or.inr rfl))
      | up later => exact Or.inr ⟨[], rest, k, rfl, fun _ inside => absurd inside List.not_mem_nil, later⟩
      | dir isDir _ =>
          obtain ⟨node, found, dir⟩ := (Option.any_eq_true _ _).mp isDir
          have file := files _ node found
          cases node with
          | file _ _ => cases dir
          | dir _ | symlink _ | chardev _ _ => cases file
      | leaf _ _ _ => exact Or.inl rfl
      | link found _ _ => cases files _ _ found

theorem NameUnused.made {fs' : FileSystem String} (unused : NameUnused fs) (made : Made names fs fs') :
    NameUnused fs' := by
  have noLink : ∀ {p target}, fs'.get p = none ∨ fs'.isDirAt p = true →
      fs'.get p ≠ some (.symlink target) := by
    rintro p target (missing | isDir) link
    · rw [missing] at link
      cases link
    · rw [FileSystem.isDirAt, link] at isDir
      cases isDir
  constructor
  · intro p node found
    by_cases isPab : "gnomeos-pab" :: p = pabDir
    · exact (List.cons.inj isPab).2
    · rw [made.same _ (by simp [keysDir]) (by simp) isPab] at found
      exact unused.elsewhere p node found
  · intro p target link
    by_cases isKeys : p = keysDir
    · exact absurd (isKeys ▸ link) (noLink made.dirs.keys)
    · by_cases isKey : p = "root.key" :: keysDir
      · cases made.dirs.key _ (isKey ▸ link)
      · by_cases isPab : p = pabDir
        · exact absurd (isPab ▸ link) (noLink made.dirs.pab)
        · rw [made.same p isKeys isKey isPab] at link
          exact unused.mentioned p target link

/-- The tree with a file for the marker, where there is none yet. -/
def withMarker (fs : FileSystem String) (n : String) (p : Path String) : Option (Node String) :=
  if p = n :: pabDir then some ((fs.get p).getD (.file (newFile 0o644) [])) else fs.get p

theorem withMarker_of_get {n : String} (p : Path String) (node : Node String)
    (found : fs.get p = some node) : withMarker fs n p = some node := by
  rw [withMarker, found]
  split <;> rfl

theorem withMarker_isDir {n : String} {p : Path String} (isDir : fs.isDirAt p = true) :
    (withMarker fs n p).any Node.isDir = true := by
  obtain ⟨perm, found⟩ := (fs.isDirAt_iff p).mp isDir
  rw [withMarker_of_get p _ found]
  rfl

theorem withMarker_grounded {n : String} (dir : fs.isDirAt pabDir = true) :
    Grounded (withMarker fs n) := by
  refine ⟨withMarker_isDir fs.root, fun {m p node} found => withMarker_isDir ?_⟩
  rw [withMarker] at found
  split at found
  · next same =>
    rw [(List.cons.inj same).2]
    exact dir
  · exact fs.parent_isDirAt found

/-- All in the directory of the markers are files still. -/
theorem withMarker_files {n m : String} {node : Node String} (dirs : RunDirs names fs)
    (found : withMarker fs n (m :: pabDir) = some node) : node.isFile = true := by
  rw [withMarker] at found
  split at found
  · cases old : fs.get (m :: pabDir) with
    | none =>
        rw [old] at found
        cases found
        rfl
    | some node' =>
        rw [old] at found
        cases found
        exact dirs.files m _ old
  · exact dirs.files m node found

/-- The name of that directory is used as before, as long as the marker is not of that name. -/
theorem withMarker_elsewhere {n : String} {p : Path String} {node : Node String} (unused : NameUnused fs)
    (other : n ≠ "gnomeos-pab") (found : withMarker fs n ("gnomeos-pab" :: p) = some node) : p = ["run"] := by
  rw [withMarker] at found
  split at found
  · next same => exact absurd (List.cons.inj same).1.symm other
  · exact unused.elsewhere p node found

theorem withMarker_mentioned {n : String} {p : Path String} {target : PathText String}
    (dirs : RunDirs names fs) (unused : NameUnused fs) (link : withMarker fs n p = some (.symlink target)) :
    .name "gnomeos-pab" ∉ target := by
  by_cases here : p = n :: pabDir
  · cases withMarker_files dirs (here ▸ link)
  · rw [withMarker, if_neg here] at link
    exact unused.mentioned p target link

/-- A string that is not the name of an entry does not name the marker and the disk alike. -/
theorem not_marksDisk_of_unnamed {device : String} (dirs : RunDirs names fs)
    (dir : fs.isDirAt pabDir = true) (dev : fs.isDirAt ["dev"] = true) (unused : NameUnused fs)
    (unnamed : deviceName device = none) : ¬ MarksDisk fs device := by
  rintro ⟨n, major, minor, marker, disk, node⟩
  have diskNode : (fs.get [n, "dev"]).isSome = true := Option.isSome_of_eq_some node
  have grounded : Grounded (withMarker fs n) := withMarker_grounded dir
  have files : ∀ m node, withMarker fs n (m :: pabDir) = some node → node.isFile = true :=
    fun _ _ found => withMarker_files dirs found
  -- Both paths are read in the tree that has the marker.
  have marker' : walk fs.get true maxSymlinks [] (.empty :: (textOf pabDir ++ pathText device)) =
      .ok (n :: pabDir) := marker
  have disk' : walk fs.get true maxSymlinks [] (.empty :: (textOf ["dev"] ++ pathText device)) =
      .ok [n, "dev"] := disk
  rw [walk_empty, fs.grounded.walk_textOf true maxSymlinks dir] at marker'
  rw [walk_empty, fs.grounded.walk_textOf true maxSymlinks dev] at disk'
  have extends' : ∀ p node, fs.get p = some node → withMarker fs n p = some node := withMarker_of_get
  obtain ⟨_, _, toMarker⟩ := Reaches.of_walk_extended extends'
    (fun missing => ⟨.file (newFile 0o644) [], by rw [withMarker, if_pos rfl, missing]; rfl, rfl, rfl⟩)
    marker'
  obtain ⟨k, _, toDisk⟩ := Reaches.of_walk_extended extends'
    (fun missing => by rw [missing] at diskNode; cases diskNode) disk'
  rcases entry_or_up files toMarker with named | ⟨idle, rest, _, whole, isIdle, upward⟩
  · exact absurd (unnamed.symm.trans named) (by simp)
  rw [whole] at toDisk
  have other : n ≠ "gnomeos-pab" := by
    rintro rfl
    obtain ⟨node, held⟩ := Option.isSome_iff_exists.mp diskNode
    exact absurd (unused.elsewhere _ node held) (by decide)
  have elsewhere : ∀ p node, withMarker fs n ("gnomeos-pab" :: p) = some node → p = ["run"] :=
    fun _ _ found => withMarker_elsewhere unused other found
  have mentioned : ∀ p target, withMarker fs n p = some (.symlink target) →
      .name "gnomeos-pab" ∉ target := fun _ _ link => withMarker_mentioned dirs unused link
  rcases name_mem_of_reaches mentioned upward (List.suffix_cons n pabDir) with inside | passes
  · exact absurd inside (by decide)
  obtain ⟨before, behind, rfl⟩ := List.append_of_mem passes
  obtain ⟨_, fromPab⟩ := reaches_behind_name grounded elsewhere (withMarker_isDir dir)
    (withMarker_isDir dirs.run) upward
  have upward' : Reaches (withMarker fs n) true [] (before ++ .name "gnomeos-pab" :: behind) k
      [n, "dev"] := by
    cases reaches_behind_idle isIdle toDisk with
    | up later => exact later
  obtain ⟨_, fromPab'⟩ := reaches_behind_name grounded elsewhere (withMarker_isDir dir)
    (withMarker_isDir fs.root) upward'
  exact absurd (fromPab.unique fromPab').2 (by simp [pabDir])

/-- When the marker is opened, a device that does not name a node of `/dev` is not marked. -/
theorem not_marksDisk {device : String} {i : Installation} {fs' : FileSystem String}
    (dev : fs.isDirAt ["dev"] = true) (unused : NameUnused fs)
    (unnamed : ¬ NamesNode fs device) (reached : Reached names fs i fs') :
    ¬ MarksDisk fs' device := by
  have made := reached.made
  have dev' : fs'.isDirAt ["dev"] = true := by
    rw [FileSystem.isDirAt, made.same _ (by decide) (by decide) (by decide)]
    exact dev
  cases named : deviceName device with
  | none => exact not_marksDisk_of_unnamed made.dirs reached.dir dev' (unused.made made) named
  | some n =>
      rintro ⟨m, major, minor, marker, _, node⟩
      cases (made.dirs.locate_marker reached.dir named).symm.trans marker
      rw [made.same _ (by simp [keysDir]) (by simp [keysDir]) (by simp [pabDir])] at node
      exact unnamed ⟨n, major, minor, named, node⟩

end Spec

/-! ## Every string -/

theorem reaches_sample (i : Installation) : (Activation.mk i (sampleOutcomes (.ok ()))).reaches = true := by
  simp [Activation.reaches, Activation.keySaved, sampleOutcomes, Child.succeeds, Except.isOk, Except.toBool]

/-- There is an installation on a machine with a TPM whose key file is another one than before. -/
theorem exists_possible {partitionable : Partitionable} (w : World) {device : String}
    (part : partitionable w.fs (devText device)) :
    ∃ i, Possible partitionable w.fs device (sampleOutcomes (.ok ())) i ∧
      (i.hasTpm2 && !i.recipe.oemInstall) = true ∧
        ∀ stat, w.fs.get ("root.key" :: keysDir) ≠ some (.file stat (keyData i)) := by
  have nothing : "".toByteArray.toList = [] := by decide +kernel
  have something : "c".toByteArray.toList ≠ [] := by decide +kernel
  by_cases empty : ∃ stat, w.fs.get ("root.key" :: keysDir) = some (.file stat [])
  · obtain ⟨stat, old⟩ := empty
    refine ⟨⟨⟨device, "c", false⟩, true, true⟩, ⟨rfl, fun _ => part⟩, rfl, fun stat' same => ?_⟩
    rw [old] at same
    exact something (Node.file.inj (Option.some.inj same)).2.symm
  · refine ⟨⟨⟨device, "", false⟩, true, true⟩, ⟨rfl, fun _ => part⟩, rfl, fun stat same => ?_⟩
    refine empty ⟨stat, same.trans ?_⟩
    rw [keyData, nothing]

/-- A device that names an entry, or leads to nothing to partition, is confined. -/
theorem confined_of_named {partitionable : Partitionable} {names : String → Prop} {w : World}
    (dirs : RunDirs names w.fs) (dev : w.fs.isDirAt ["dev"] = true) {device : String}
    (named : NamesNode w.fs device ∨ ¬ partitionable w.fs (devText device)) :
    Confined partitionable w device := by
  rcases named with named | nothing
  · refine Or.inl fun env i possible repartD w' reaches => ?_
    have spec := untilMarker_spec dirs env i w rfl
    rw [reaches] at spec
    rw [← possible.named] at named ⊢
    exact marksDisk_of_named dev named (spec.2 rfl)
  · refine Or.inr fun env i possible => failsFirst_of_dryRun ?_
    exact Bool.eq_false_iff.mpr fun succeeds => nothing (possible.dryRun succeeds)

/-- No other device is: an installation writes the key before it opens the wrong marker. -/
theorem not_confined {partitionable : Partitionable} {names : String → Prop} {w : World}
    (dirs : RunDirs names w.fs) (dev : w.fs.isDirAt ["dev"] = true) (unused : NameUnused w.fs)
    {device : String} (unnamed : ¬ NamesNode w.fs device)
    (there : partitionable w.fs (devText device)) : ¬ Confined partitionable w device := by
  intro confined
  obtain ⟨i, possible, saves, other⟩ := exists_possible w there
  have spec := untilMarker_spec dirs (sampleOutcomes (.ok ())) i w rfl
  have reached := spec.2 (spec.1.trans (reaches_sample i))
  rcases confined with marks | fails
  · obtain ⟨repartD, run⟩ : ∃ repartD, (untilMarker (sampleOutcomes (.ok ())) i w).1 = .ok repartD := by
      cases result : (untilMarker (sampleOutcomes (.ok ())) i w).1 with
      | ok repartD => exact ⟨repartD, rfl⟩
      | error e =>
          rw [result, reaches_sample] at spec
          cases spec.1
    have marked := marks _ i possible repartD _ (Prod.ext run rfl)
    exact not_marksDisk dev unused unnamed reached marked
  · obtain ⟨stat, key⟩ := reached.key saves
    exact other stat ((fails _ i possible).before _ _ key rfl)

/--
A device is confined if it names a node of `/dev`, or if it leads to nothing
that `systemd-repart` could partition; no other device is.
-/
theorem confined_iff {partitionable : Partitionable} {names : String → Prop} {w : World}
    (dirs : RunDirs names w.fs) (dev : w.fs.isDirAt ["dev"] = true) (device : String) :
    (NamesNode w.fs device ∨ ¬ partitionable w.fs (devText device) →
        Confined partitionable w device) ∧
      (NameUnused w.fs → Confined partitionable w device →
        NamesNode w.fs device ∨ ¬ partitionable w.fs (devText device)) := by
  refine ⟨confined_of_named dirs dev, fun unused confined => ?_⟩
  by_contra neither
  obtain ⟨unnamed, there⟩ := not_or.mp neither
  exact not_confined dirs dev unused unnamed (not_not.mp there) confined

/-! ## A disk, and an image above `/dev` -/

/-- A booted system with a device node for an empty disk and an image without partitions. -/
def withDisks (image : List UInt8) : World where
  fs := {
    entries := [([], .dir 0o755), (["run"], .dir 0o755), (["dev"], .dir 0o755),
      (["sda", "dev"], .chardev 8 0), (["disk.img"], .file (newFile 0o644) image)]
    nodup := by simp
    root := rfl
    parents := by simp [Node.isDir, List.lookup_cons] }
  started := []

theorem withDisks_runDirs (image : List UInt8) : RunDirs (fun _ => False) (withDisks image).fs where
  run := rfl
  keys := Or.inl rfl
  key := fun _ found => by cases found
  pab := Or.inl rfl
  files := fun n node found => by
    simp [withDisks, FileSystem.get, pabDir, List.lookup_cons, List.lookup_nil] at found
  marked := fun n => by simp [withDisks, FileSystem.get, pabDir, List.lookup_cons, List.lookup_nil]

theorem withDisks_nameUnused (image : List UInt8) : NameUnused (withDisks image).fs := by
  constructor
  · intro p node found
    simp [withDisks, FileSystem.get, List.lookup_cons, List.lookup_nil] at found
  · intro p target link
    have listed := ((withDisks image).fs.mem_entries_iff p _).mpr link
    simp [withDisks] at listed

/-- The empty disk, and every file in which the partitions have room. -/
def emptyOrLarge : Partitionable := fun fs text =>
  match fs.stat text with
  | some (.chardev major minor) => (major, minor) = (8, 0)
  | some (.file _ data) => 30 * 1024 * 1024 * 1024 ≤ data.length
  | _ => False

theorem sda_confined : Confined emptyOrLarge (withDisks []) "sda" := by
  have named : NamesNode (withDisks []).fs "sda" := ⟨"sda", 8, 0, by decide, rfl⟩
  exact (confined_iff (withDisks_runDirs []) rfl "sda").1 (Or.inl named)

theorem image_partitionable {image : List UInt8} (large : 30 * 1024 * 1024 * 1024 ≤ image.length) :
    emptyOrLarge (withDisks image).fs (devText "../disk.img") := by
  have found : (withDisks image).fs.stat (devText "../disk.img") =
      some (.file (newFile 0o644) image) := rfl
  rw [emptyOrLarge, found]
  exact large

/-- The path of the image leads out of both directories, and its marker is made in `/run`. -/
theorem image_not_confined :
    let w := withDisks (List.replicate (32 * 1024 * 1024 * 1024) 0)
    ¬ Confined emptyOrLarge w "../disk.img" ∧
      ∃ env i, Possible emptyOrLarge w.fs "../disk.img" env i ∧
        w.fs.get ["disk.img", "run"] = none ∧
        ((doInstall env i w).2.fs.get ["disk.img", "run"]).isSome = true := by
  have unnamed : ∀ image, ¬ NamesNode (withDisks image).fs "../disk.img" := by
    rintro image ⟨n, _, _, named, _⟩
    have none' : deviceName "../disk.img" = none := by decide
    rw [none'] at named
    cases named
  have made : ∀ image, ((doInstall (sampleOutcomes (.ok ())) ⟨⟨"../disk.img", "cbde", false⟩, true, true⟩
      (withDisks image)).2.fs.get ["disk.img", "run"]).isSome = true := fun _ => rfl
  have large : 30 * 1024 * 1024 * 1024 ≤ (List.replicate (32 * 1024 * 1024 * 1024) (0 : UInt8)).length := by
    rw [List.length_replicate]
    decide
  have there := image_partitionable large
  exact ⟨not_confined (withDisks_runDirs _) rfl (withDisks_nameUnused _) (unnamed _) there,
    sampleOutcomes (.ok ()), ⟨⟨"../disk.img", "cbde", false⟩, true, true⟩, ⟨rfl, fun _ => there⟩, rfl,
    made _⟩

end GnomeBuildMeta.Installer
