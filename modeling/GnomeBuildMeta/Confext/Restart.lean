import GnomeBuildMeta.Confext.MigrateConfextRun

/-!
# Cutting a migration off

A run that is cut off leaves the effect of its first file operations.  The
conditions of the service still hold then, but a new run starts over in the
half-built layer, where only directories may exist already.
-/

namespace GnomeBuildMeta.Confext

open GnomeBuildMeta.Control
open GnomeBuildMeta.Posix

/-- The operation makes a link or a file, which must not exist yet. -/
def CopyOp.creates : CopyOp → Bool
  | .symlink _ _ | .openNew _ => true
  | .mkdir _ _ | .fchmod _ _ | .write _ _ => false

def FileOp.creates : FileOp → Bool
  | .copy op => op.creates
  | .createDirectories | .rename => false

/--
Cut off after `k` operations, the service starts again and ends with the layer
of the complete run.
-/
def Restarts (host : FileSystem String) (ops : List FileOp) (m complete : MutableLayers)
    (k : Nat) : Prop :=
  ∃ cut, execAll (ops.take k) m = .ok cut ∧ startConditions host cut = true ∧
    ∃ m', main host cut = (.ok (), m') ∧
      m'.etc.map FileSystem.get = complete.etc.map FileSystem.get

/-! ## Nothing is taken back -/

section Copies

variable {host fs fs' : FileSystem String} {ops : List CopyOp}

theorem CopyOp.result_isSome {op : CopyOp} {here : Option (Node String)}
    (exists' : here.isSome = true) : (op.result here).isSome = true := by
  obtain ⟨node, rfl⟩ := Option.isSome_iff_exists.mp exists'
  cases op with
  | write rel data => cases node <;> rfl
  | mkdir _ _ | symlink _ _ | openNew _ | fchmod _ _ => rfl

theorem CopyOp.result_isSome_of_creates {op : CopyOp} (creates : op.creates = true)
    (here : Option (Node String)) : (op.result here).isSome = true := by
  cases op with
  | symlink _ _ | openNew _ => rfl
  | mkdir _ _ | fchmod _ _ | write _ _ => cases creates

theorem copyAll_grows (sound : Sound host ops) (mirrors : Mirrors host fs)
    (done : copyAll ops fs = .ok fs') : fs.Grows fs' := by
  have kept : Mirrors host fs' ∧ fs.Grows fs' := by
    refine foldlM_invariant (I := fun s => Mirrors host s ∧ fs.Grows s) ?_
      ⟨mirrors, FileSystem.Grows.refl fs⟩ done
    rintro s op s' member ⟨holds, grown⟩ step
    refine ⟨sound.exec_mirrors member holds step, fun p exists' => ?_⟩
    rw [(sound.exec_inv member holds step).2]
    split
    · exact CopyOp.result_isSome (grown p exists')
    · exact grown p exists'
  exact kept.2

/-- What an operation has made is there in the end. -/
theorem exists_of_creates (sound : Sound host ops) (mirrors : Mirrors host fs)
    (done : copyAll ops fs = .ok fs') {op : CopyOp} (member : op ∈ ops)
    (creates : op.creates = true) : (fs'.get op.rel).isSome = true := by
  refine foldlM_progress (I := Mirrors host) (Q := fun s => (s.get op.rel).isSome = true)
    (fun s x s' inside holds step => sound.exec_mirrors inside holds step) ?_ member ?_ mirrors done
  · intro s x s' inside holds step exists'
    rw [(sound.exec_inv inside holds step).2]
    split
    · exact CopyOp.result_isSome exists'
    · exact exists'
  · intro s s' holds step
    rw [(sound.exec_inv member holds step).2, if_pos rfl]
    exact CopyOp.result_isSome_of_creates creates _

/-- An operation cannot make what is there from the beginning. -/
theorem free_of_creates (sound : Sound host ops) (mirrors : Mirrors host fs)
    (done : copyAll ops fs = .ok fs') {op : CopyOp} (member : op ∈ ops)
    (creates : op.creates = true) : fs.get op.rel = none := by
  obtain ⟨before, after, rfl⟩ := List.append_of_mem member
  obtain ⟨middle, first, later⟩ := copyAll_append.mp done
  have soundBefore : Sound host before := fun x inside => sound x (List.mem_append_left _ inside)
  have holds := soundBefore.copyAll_mirrors mirrors first
  obtain ⟨next, step, _⟩ := bind_ok_iff.mp ((List.foldlM_cons ..).symm.trans later)
  have fits := (sound.exec_inv member holds step).1
  have free : middle.get op.rel = none := by
    cases op with
    | symlink rel target => exact fits.2
    | openNew rel => exact fits.2
    | mkdir _ _ | fchmod _ _ | write _ _ => cases creates
  cases found : fs.get op.rel with
  | none => rfl
  | some node =>
      have grown := copyAll_grows soundBefore mirrors first op.rel (by rw [found]; rfl)
      rw [free] at grown
      cases grown

/-! ## Directories that are there already -/

/-- A layer with nothing but directories, as a run that was cut off early leaves it. -/
structure Skeleton (host made : FileSystem String) : Prop where
  mirrors : Mirrors host made
  dirs : ∀ p node, made.get p = some node → node.isDir = true

/-- The second layer is the first one together with the directories that were there. -/
def Ahead (made first second : FileSystem String) : Prop :=
  ∀ p, second.get p = (first.get p).or (made.get p)

theorem Skeleton.exec {made : FileSystem String} {op : CopyOp} (skeleton : Skeleton host made)
    (sound : Sound host ops) (member : op ∈ ops) (harmless : op.creates = false)
    (done : op.exec made = .ok fs') : Skeleton host fs' := by
  obtain ⟨fits, effect⟩ := sound.exec_inv member skeleton.mirrors done
  refine ⟨sound.exec_mirrors member skeleton.mirrors done, fun p node found => ?_⟩
  rw [effect] at found
  split at found
  case isFalse => exact skeleton.dirs p node found
  case isTrue same =>
    subst same
    cases op with
    | mkdir rel perm =>
        cases here : made.get rel with
        | none =>
            simp only [CopyOp.rel, here, CopyOp.result, Option.none_or, Option.some.injEq] at found
            rw [← found]
            rfl
        | some old =>
            simp only [CopyOp.rel, here, CopyOp.result, Option.some_or, Option.some.injEq] at found
            rw [← found]
            exact skeleton.dirs rel old here
    | fchmod rel perm | write rel data =>
        obtain ⟨old, here, isFile⟩ := (Option.any_eq_true _ _).mp fits
        have isDir := skeleton.dirs rel old here
        cases old with
        | file _ _ => cases isDir
        | dir _ | symlink _ | chardev _ _ => cases isFile
    | symlink _ _ | openNew _ => cases harmless

/-- A directory that is there already is the one that the run would make. -/
theorem Skeleton.or_made {made : FileSystem String} {op : CopyOp} (skeleton : Skeleton host made)
    (copies : op.Copies host) (proper : op.rel ≠ []) {here : Option (Node String)}
    (fits : op.Fits fs.get) (same : fs.get op.rel = here) :
    op.result (here.or (made.get op.rel)) = (op.result here).or (made.get op.rel) ∧
      (op.creates = true → made.get op.rel = none) := by
  cases there : made.get op.rel with
  | none => simp
  | some node =>
      have stands := skeleton.mirrors _ node proper there
      obtain ⟨perm, rfl⟩ := Node.isDir_iff.mp (skeleton.dirs _ node there)
      cases op with
      | mkdir rel perm' =>
          obtain ⟨source, dir, rfl⟩ := copies
          rw [show etc host (CopyOp.mkdir rel (mkdirMode source)).rel = _ from dir] at stands
          cases stands
          cases here <;> simp [CopyOp.result, CopyOp.creates]
      | symlink rel target =>
          rw [show etc host (CopyOp.symlink rel target).rel = _ from copies] at stands
          cases stands
      | openNew rel =>
          obtain ⟨stat, data, file⟩ := copies
          rw [show etc host (CopyOp.openNew rel).rel = _ from file] at stands
          cases stands
      | fchmod rel perm' =>
          obtain ⟨old, found, isFile⟩ := (Option.any_eq_true _ _).mp fits
          rw [show fs.get rel = _ from same] at found
          subst found
          exact ⟨rfl, Bool.noConfusion⟩
      | write rel data =>
          obtain ⟨old, found, isFile⟩ := (Option.any_eq_true _ _).mp fits
          rw [show fs.get rel = _ from same] at found
          subst found
          cases old with
          | file _ _ => exact ⟨rfl, Bool.noConfusion⟩
          | dir _ | symlink _ | chardev _ _ => cases isFile

/-- What an operation needs is there also if the directories were there before. -/
theorem Ahead.fits {made first second : FileSystem String} {op : CopyOp}
    (ahead : Ahead made first second) (dirs : ∀ p node, made.get p = some node → node.isDir = true)
    (free : op.creates = true → made.get op.rel = none) (fits : op.Fits first.get) :
    op.Fits second.get := by
  have keeps : ∀ p (test : Node String → Bool), (first.get p).any test = true →
      (second.get p).any test = true := by
    intro p test holds
    obtain ⟨node, found, passes⟩ := (Option.any_eq_true _ _).mp holds
    rw [ahead, found]
    exact passes
  cases op with
  | mkdir rel perm =>
      obtain ⟨parent, none' | dir⟩ := fits
      · refine ⟨keeps _ _ parent, ?_⟩
        rw [ahead, none', Option.none_or]
        cases there : made.get rel with
        | none => exact Or.inl rfl
        | some node => exact Or.inr (dirs _ node there)
      · exact ⟨keeps _ _ parent, Or.inr (keeps _ _ dir)⟩
  | symlink rel target | openNew rel =>
      refine ⟨keeps _ _ fits.1, ?_⟩
      rw [ahead, fits.2, Option.none_or]
      exact free rfl
  | fchmod rel perm | write rel data => exact keeps _ _ fits

/-- A run goes through also if directories were there before. -/
theorem Ahead.copyAll {made first first' second : FileSystem String}
    (skeleton : Skeleton host made) (sound : Sound host ops) (mirrors : Mirrors host first)
    (mirrors' : Mirrors host second) (ahead : Ahead made first second)
    (done : copyAll ops first = .ok first') :
    ∃ second', Confext.copyAll ops second = .ok second' ∧ Ahead made first' second' := by
  induction ops generalizing first second with
  | nil =>
      cases done
      exact ⟨second, rfl, ahead⟩
  | cons op ops ih =>
      obtain ⟨next, step, later⟩ := bind_ok_iff.mp ((List.foldlM_cons ..).symm.trans done)
      obtain ⟨copies, proper⟩ := sound op List.mem_cons_self
      obtain ⟨fits, effect⟩ := sound.exec_inv List.mem_cons_self mirrors step
      obtain ⟨merged, free⟩ := skeleton.or_made copies proper fits rfl
      have fits' := ahead.fits skeleton.dirs free fits
      obtain ⟨n, p, named⟩ := List.exists_cons_of_ne_nil proper
      obtain ⟨next', step'⟩ := CopyOp.exec_ok mirrors' copies named fits'
      have effect' := (sound.exec_inv List.mem_cons_self mirrors' step').2
      have ahead' : Ahead made next next' := by
        intro q
        rw [effect, effect']
        split
        · rename_i same
          rw [ahead, same]
          exact merged
        · exact ahead q
      obtain ⟨second', done', last⟩ := ih (fun x inside => sound x (List.mem_cons_of_mem _ inside))
        (sound.exec_mirrors List.mem_cons_self mirrors step)
        (sound.exec_mirrors List.mem_cons_self mirrors' step') ahead' later
      refine ⟨second', ?_, last⟩
      exact (List.foldlM_cons ..).trans (bind_ok_iff.mpr ⟨next', step', done'⟩)

end Copies

/-! ## Cut off runs -/

/-- Copying never touches the top of the layer. -/
theorem copyAll_top {host fs fs' : FileSystem String} {ops : List CopyOp} (sound : Sound host ops)
    (mirrors : Mirrors host fs) (done : copyAll ops fs = .ok fs') : fs'.get [] = fs.get [] := by
  refine (foldlM_invariant (I := fun s => Mirrors host s ∧ s.get [] = fs.get []) ?_
    ⟨mirrors, rfl⟩ done).2
  rintro s op s' member ⟨holds, same⟩ step
  refine ⟨sound.exec_mirrors member holds step, ?_⟩
  rw [(sound.exec_inv member holds step).2, if_neg (Ne.symm (sound op member).2), same]

/-- A new run over the directories of a run that was cut off ends like the complete run. -/
theorem copyAll_again {host made fs' : FileSystem String} {first later : List CopyOp}
    (sound : Sound host (first ++ later)) (harmless : ∀ op ∈ first, op.creates = false)
    (cut : copyAll first (.bare 0o755) = .ok made) (done : copyAll later made = .ok fs') :
    ∃ again, copyAll (first ++ later) made = .ok again ∧ again.get = fs'.get := by
  have soundFirst : Sound host first := fun op inside => sound op (List.mem_append_left _ inside)
  have soundLater : Sound host later := fun op inside => sound op (List.mem_append_right _ inside)
  have bare := mirrors_bare host 0o755
  have skeleton : Skeleton host made := by
    refine foldlM_invariant (I := Skeleton host) ?_ ⟨bare, ?_⟩ cut
    · intro s op s' member holds step
      exact holds.exec soundFirst member (harmless op member) step
    · intro p node found
      cases p with
      | nil =>
          cases found
          rfl
      | cons n p => cases found
  have start : Ahead made (.bare 0o755) made := by
    intro p
    cases p with
    | nil => exact copyAll_top soundFirst bare cut
    | cons n p => exact (Option.none_or ..).symm
  have whole : copyAll (first ++ later) (.bare 0o755) = .ok fs' :=
    copyAll_append.mpr ⟨made, cut, done⟩
  obtain ⟨again, rerun, ahead⟩ := start.copyAll skeleton sound bare skeleton.mirrors whole
  refine ⟨again, rerun, funext fun p => ?_⟩
  rw [ahead]
  cases there : made.get p with
  | none => exact Option.or_none ..
  | some node =>
      have grown := copyAll_grows soundLater skeleton.mirrors done p (by rw [there]; rfl)
      obtain ⟨node', found⟩ := Option.isSome_iff_exists.mp grown
      rw [found]
      rfl

/-- Up to the final renaming, the operations cut off at `k` are the first copies. -/
theorem take_operations {ops : List CopyOp} {k : Nat} (before : k ≤ ops.length) :
    (FileOp.createDirectories :: (ops.map .copy ++ [.rename])).take (k + 1) =
      .createDirectories :: (ops.take k).map .copy := by
  rw [List.take_succ_cons, List.take_append_of_le_length (by simpa using before), List.map_take]

/--
A run that is cut off before its final renaming can be restarted exactly if it
has made no link and no file yet.
-/
theorem restarts_iff {host : FileSystem String} {m complete : MutableLayers} {ops : List FileOp}
    {k : Nat} (starts : startConditions host m = true) (new : m.creating = none)
    (planned : operations host = .ok ops) (ran : main host m = (.ok (), complete))
    (before : k < ops.length) :
    Restarts host ops m complete k ↔ ∀ op ∈ ops.take k, op.creates = false := by
  obtain ⟨creating, old⟩ := m
  cases new
  have noEtc : old = none := by
    simp only [startConditions, Bool.and_eq_true] at starts
    simpa using starts.1.2
  subst noEtc
  obtain ⟨copies, fs', copying, done, rfl⟩ := main_ok_of_new.mp ran
  have same : ops = .createDirectories :: (copies.map .copy ++ [.rename]) := by
    obtain ⟨_, copying', same⟩ := bind_ok_iff.mp planned
    cases copying.symm.trans copying'
    cases same
    rfl
  subst same
  have sound := copyOps_sound copying
  cases k with
  | zero =>
      refine iff_of_true ⟨_, rfl, starts, _, ran, rfl⟩ fun op member => ?_
      cases member
  | succ k =>
      have bound : k ≤ copies.length := by
        simp only [List.length_cons, List.length_append, List.length_map, List.length_nil] at before
        omega
      have split := List.take_append_drop k copies
      rw [← split] at done
      obtain ⟨made, cutOff, later⟩ := copyAll_append.mp done
      have soundFirst : Sound host (copies.take k) :=
        fun op inside => sound op (List.mem_of_mem_take inside)
      have bare := mirrors_bare host 0o755
      have left : execAll (.createDirectories :: (copies.take k).map .copy) ⟨none, none⟩ =
          .ok ⟨some made, none⟩ :=
        execAll_cons.mpr ⟨_, rfl, execAll_copy.mpr ⟨made, cutOff, rfl⟩⟩
      simp only [Restarts, take_operations bound]
      constructor
      · rintro ⟨cut, reached, _, m', rerun, _⟩ op member
        cases left.symm.trans reached
        rcases List.mem_cons.mp member with rfl | inside
        · rfl
        · obtain ⟨copy, early, rfl⟩ := List.mem_map.mp inside
          obtain ⟨_, again, copying', joined, _⟩ := main_ok_of_new.mp rerun
          cases copying.symm.trans copying'
          cases creates : copy.creates with
          | false => exact creates
          | true =>
              have mirrors := soundFirst.copyAll_mirrors bare cutOff
              have there := exists_of_creates soundFirst bare cutOff early creates
              rw [free_of_creates sound mirrors joined (List.mem_of_mem_take early) creates] at there
              cases there
      · intro harmless
        have harmless' : ∀ op ∈ copies.take k, op.creates = false := fun op inside =>
          harmless (.copy op) (List.mem_cons_of_mem _ (List.mem_map.mpr ⟨op, inside, rfl⟩))
        obtain ⟨again, rerun, same⟩ := copyAll_again (split.symm ▸ sound) harmless' cutOff later
        rw [split] at rerun
        refine ⟨_, left, starts, _, main_ok_of_new.mpr ⟨copies, again, copying, rerun, rfl⟩, ?_⟩
        simp only [Option.map_some, same]

/-! ## Two cuts -/

/-- `/etc` has a machine id and an SSH key, and the base confext is empty. -/
def keyHost : FileSystem String where
  entries :=
    [([], .dir 0o755),
      (["etc"], .dir 0o755),
      (["initrd-release", "etc"], .file ⟨0o644, 1, 0, 0⟩ [7]),
      (["sysroot"], .dir 0o755),
      (["etc", "sysroot"], .dir 0o755),
      (["ssh", "etc", "sysroot"], .dir 0o755),
      (["key", "ssh", "etc", "sysroot"], .file ⟨0o600, 1, 0, 0⟩ [1, 2]),
      (["machine-id", "etc", "sysroot"], .file ⟨0o444, 1, 0, 0⟩ [3]),
      (["usr", "sysroot"], .dir 0o755),
      (["lib", "usr", "sysroot"], .dir 0o755),
      (["confexts", "lib", "usr", "sysroot"], .dir 0o755),
      (["gnomeos-base-config", "confexts", "lib", "usr", "sysroot"], .dir 0o755),
      (baseConfextEtc, .dir 0o755)]
  nodup := by simp [baseConfextEtc]
  root := rfl
  parents := by simp [List.lookup_cons, List.lookup_nil, Node.isDir, baseConfextEtc]

def keyOps : List FileOp :=
  [.createDirectories, .copy (.mkdir ["ssh"] 0o755), .copy (.openNew ["key", "ssh"]),
    .copy (.fchmod ["key", "ssh"] 0o600), .copy (.write ["key", "ssh"] [1, 2]),
    .copy (.openNew ["machine-id"]), .copy (.fchmod ["machine-id"] 0o444),
    .copy (.write ["machine-id"] [3]), .rename]

def noLayers : MutableLayers := ⟨none, none⟩

theorem keyOps_run : operations keyHost = .ok keyOps ∧ startConditions keyHost noLayers = true ∧
    ∃ complete, main keyHost noLayers = (.ok (), complete) :=
  ⟨rfl, rfl, _, rfl⟩

/-- Cut off right after the first file was opened, no run gets through again. -/
theorem cut_at_file_stuck : ∃ host m complete ops k, startConditions host m = true ∧
    m.creating = none ∧ operations host = .ok ops ∧ main host m = (.ok (), complete) ∧
    k < ops.length ∧ ¬ Restarts host ops m complete k := by
  obtain ⟨planned, starts, complete, ran⟩ := keyOps_run
  refine ⟨keyHost, noLayers, complete, keyOps, 3, starts, rfl, planned, ran, by decide, ?_⟩
  have stuck : ∃ cut, execAll (keyOps.take 3) noLayers = .ok cut ∧
      (main keyHost cut).1 = .error .eexist := ⟨_, rfl, rfl⟩
  rintro ⟨cut, reached, _, m', rerun, _⟩
  obtain ⟨cut', reached', failed⟩ := stuck
  cases reached.symm.trans reached'
  rw [rerun] at failed
  cases failed

/-- Cut off between the directory and the file in it, the migration restarts. -/
theorem cut_at_directory_restarts : ∃ complete, main keyHost noLayers = (.ok (), complete) ∧
    Restarts keyHost keyOps noLayers complete 2 := by
  obtain ⟨planned, starts, complete, ran⟩ := keyOps_run
  exact ⟨complete, ran, (restarts_iff starts rfl planned ran (by decide)).mpr (by decide)⟩

end GnomeBuildMeta.Confext
