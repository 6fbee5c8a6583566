import GnomeBuildMeta.Zswap.SetupRuns

/-!
# The swap file can always be made again

Whatever has become of earlier commands on a swap file, `create` makes it anew
if the calls that do not depend on files succeed: `remove_file` comes before
`create_new`, and the directories that are there are left as they are.
-/

namespace GnomeBuildMeta.Zswap

open GnomeBuildMeta.Control GnomeBuildMeta.Posix

/-- A swap file can be at the name in the directory: that exists, and holds nothing there but a file. -/
structure Usable (fs : FileSystem String) (swapfile : Text) (q : Path String) (n : String) : Prop where
  parent : ∃ above, pathText (String.ofList swapfile) = above ++ [.name n] ∧ fs.locate true above = .ok q
  dir : fs.isDirAt q = true
  free : ∀ node, fs.get (n :: q) = some node → node.isFile = true

namespace Usable

variable {fs fs' : FileSystem String} {swapfile : Text} {q : Path String} {n : String}

theorem notDir (usable : Usable fs swapfile q n) {node : Node String} (found : fs.get (n :: q) = some node) :
    node.isDir = false ∧ node.isSymlink = false := by
  have isFile := usable.free node found
  cases node with
  | file _ _ => exact ⟨rfl, rfl⟩
  | dir _ | symlink _ | chardev _ _ => cases isFile

theorem locate (usable : Usable fs swapfile q n) (follow : Bool) :
    fs.locate follow (pathText (String.ofList swapfile)) = .ok (n :: q) := by
  obtain ⟨above, text, located⟩ := usable.parent
  obtain ⟨k, enough, reaches⟩ := Reaches.of_walk located (FileSystem.isSome_of_isDirAt usable.dir)
  rw [text, FileSystem.locate, show maxSymlinks = k + (maxSymlinks - k) by omega,
    reaches.walk_append usable.dir (by simp)]
  cases found : fs.get (n :: q) with
  | none => exact walk_missing found
  | some node => exact walk_other found (usable.notDir found).1 (usable.notDir found).2

/-- It can be there still when nothing but the file has changed. -/
theorem kept (usable : Usable fs swapfile q n) (same : ∀ p, p ≠ n :: q → fs'.get p = fs.get p)
    (free : ∀ node, fs'.get (n :: q) = some node → node.isFile = true) : Usable fs' swapfile q n := by
  have other : q ≠ n :: q := (List.cons_ne_self n q).symm
  obtain ⟨above, text, located⟩ := usable.parent
  obtain ⟨k, enough, reaches⟩ := Reaches.of_walk located (FileSystem.isSome_of_isDirAt usable.dir)
  have reaches' : Reaches fs'.get true [] above k q :=
    reaches.congr_off (fun _ => usable.notDir) (fun p node apart found => (same p apart).trans found) other
  refine ⟨⟨above, text, reaches'.walk_eq enough⟩, ?_, free⟩
  rw [FileSystem.isDirAt, same q other]
  exact usable.dir

/-- There is nothing for `create_dir_all` to do, however far it comes. -/
theorem createDirAll_drop (usable : Usable fs swapfile q n) (left : Nat) :
    fs.createDirAll 0o755 ((Setup.parentPieces (pathText (String.ofList swapfile))).drop left) = .ok fs := by
  obtain ⟨above, text, located⟩ := usable.parent
  have isdir : fs.isdir above = true := FileSystem.isdir_iff.mpr ⟨q, located, usable.dir⟩
  obtain ⟨more, split⟩ :
      (Setup.parentPieces (pathText (String.ofList swapfile))).drop left <:+ above.reverse := by
    refine (List.drop_suffix _ _).trans ?_
    rw [text, Setup.parentPieces]
    simp only [List.reverse_append, List.reverse_cons, List.reverse_nil, List.nil_append, List.cons_append]
    rw [List.dropWhile_cons_of_neg (by simp)]
    exact List.dropWhile_suffix _
  rw [← List.reverse_reverse above, ← split, List.reverse_append] at isdir
  exact FileSystem.createDirAll_of_isdir (FileSystem.isdir_of_append isdir)

end Usable

namespace Setup

variable {swapfile : Text} {q : Path String} {n : String} {w w' : SetupWorld}

theorem makeDirs_drop (usable : Usable w.fs swapfile q n) (left : Nat) :
    makeDirs ((parentPieces (pathText (String.ofList swapfile))).drop left) w = (.ok (), w) := by
  simp only [makeDirs, Program.change, usable.createDirAll_drop left, Except.mapError, Except.map]

/-- Only the outcome of `create_dir_all` matters. -/
theorem create_eq (usable : Usable w.fs swapfile q n) (label : String) (size : Nat) (out : SetupOutcomes) :
    create (String.ofList swapfile) label size out w =
      match out.createDirs with
      | .ok () => makeSwap (String.ofList swapfile) label size out w
      | .error (_, e) => (.error (.io e), w) := by
  change Program.bind (createDirAll _ _) (fun _ => _) w = _
  match given : out.createDirs with
  | .ok () =>
      have made := makeDirs_drop usable 0
      rw [List.drop_zero] at made
      simp only [Program.bind, createDirAll, made]
  | .error (left, e) =>
      have made := makeDirs_drop usable left
      simp only [Program.bind, createDirAll, bind, ignored, made, Program.fail]

/-- The file can be where it was, and the rest is what it was. -/
structure Stays (before : SetupWorld) (swapfile : Text) (q : Path String) (n : String) (w : SetupWorld) :
    Prop where
  usable : Usable w.fs swapfile q n
  same : ∀ p, p ≠ n :: q → w.fs.get p = before.fs.get p

theorem Stays.trans {before : SetupWorld} (one : Stays before swapfile q n w)
    (two : Stays w swapfile q n w') : Stays before swapfile q n w' :=
  ⟨two.usable, fun p other => (two.same p other).trans (one.same p other)⟩

theorem Stays.of_left {c : SetupCommand} (usable : Usable w.fs swapfile q n)
    (left : LeftFile c (w.fs.locate false (pathText (String.ofList swapfile))).toOption w w') :
    Stays w swapfile q n w' := by
  rw [usable.locate] at left
  have same : ∀ p, p ≠ n :: q → w'.fs.get p = w.fs.get p := by
    intro p other
    refine left.elsewhere p fun here => other ?_
    exact (Option.some.inj here).symm
  refine ⟨usable.kept same fun node found => ?_, same⟩
  rcases left.here _ rfl with unchanged | isFile
  · rw [unchanged] at found
    exact usable.free node found
  · exact isFile node found

end Setup

/-- What one command does to its swap file, another one can undo. -/
theorem SetupCommand.run_stays (c : SetupCommand) (out : SetupOutcomes) {q : Path String} {n : String}
    {w : SetupWorld} (usable : Usable w.fs c.swapfile q n) : Setup.Stays w c.swapfile q n (c.run out w).2 := by
  cases c with
  | stop swapfile label => exact .of_left usable (Setup.stop_left swapfile label out w)
  | create swapfile label size =>
      have usable' : Usable w.fs swapfile q n := usable
      change Setup.Stays w swapfile q n (Setup.create _ _ _ _ w).2
      rw [Setup.create_eq usable']
      split
      · exact .of_left usable (Setup.makeSwap_ensures swapfile label size out w rfl)
      · exact ⟨usable, fun _ _ => rfl⟩

/-! ## A command without errors -/

/-- The calls that do not depend on files succeed, and so do the programs. -/
structure SetupOutcomes.Fine (out : SetupOutcomes) : Prop where
  createDirs : out.createDirs = .ok ()
  remove : out.remove = .ok ()
  openNew : out.openNew = .ok ()
  chattr : out.chattr = .ok (some 0)
  setLen : out.setLen = .ok ()
  mkswap : out.mkswap = .ok (some 0)
  loopControl : out.loopControl = .ok ()
  nextFree : out.nextFree = .ok ()
  attach : out.attach = .ok ()

namespace Setup

variable {swapfile : Text} {q : Path String} {n : String} {w₁ : SetupWorld}

/-- A program that succeeds on the file it is started for. -/
theorem command_decided {P I R : SetupWorld → Prop} {program : String} {args : List String}
    {text : PathText String} {f : Path String} {effect : Path String → Step Unit}
    (started : ∀ w, P w → I { w with began := ⟨program, args, w.fs, w.noCow⟩ :: w.began })
    (leads : ∀ w, I w → w.fs.locate true text = .ok f) (does : (effect f).Decided I true R) :
    (command program args (.ok (some 0)) (onFile text effect)).Decided P true R :=
  fun w holds => onFile_ensures leads does _ (started w holds)

/-- The file that was there is gone. -/
theorem removeFile_gone (usable : Usable w₁.fs swapfile q n) :
    (removeFile (pathText (String.ofList swapfile)) w₁).2.fs.get (n :: q) = none := by
  cases found : w₁.fs.get (n :: q) with
  | none =>
      simp only [removeFile, Program.change, FileSystem.unlink, usable.locate, found, bind, Except.bind,
        Except.mapError, Option.isNone_none, if_true]
  | some node =>
      have leaf : w₁.fs.isDirAt (n :: q) = false := by
        rw [FileSystem.isDirAt, found]
        exact (usable.notDir found).1
      simp only [removeFile, Program.change, FileSystem.unlink, usable.locate, found, bind, Except.bind,
        Except.mapError, Option.isNone_some, Bool.false_eq_true, if_false, dif_pos leaf, pure, Except.pure]
      rw [FileSystem.get_removeAt, if_pos rfl]

/-- So a new one can be made. -/
theorem openNew_makes {c : SetupCommand} {w : SetupWorld}
    (cleared : Cleared (pathText (String.ofList swapfile)) w₁ w) (usable : Usable w.fs swapfile q n)
    (free : w.fs.get (n :: q) = none) :
    (openNew (pathText (String.ofList swapfile)) w).1 = .ok (n :: q) ∧
      Making (pathText (String.ofList swapfile)) w₁ c (n :: q) []
        (openNew (pathText (String.ofList swapfile)) w).2 := by
  have after := openNew_ensures (c := c) w cleared
  have made : (openNew (pathText (String.ofList swapfile)) w).1 = .ok (n :: q) := by
    unfold openNew
    rw [usable.locate]
    simp only [FileSystem.createAt, dif_pos free, dif_pos usable.dir]
  rw [made] at after
  exact ⟨made, after⟩

theorem makeSwap_makes (label : Text) (size : Nat) {out : SetupOutcomes} (fine : out.Fine)
    (usable : Usable w₁.fs swapfile q n) :
    (makeSwap (String.ofList swapfile) (String.ofList label) size out).Ensures (fun w => w = w₁)
      fun result w => result = .ok () ∧ n :: q ∈ w.noCow ∧
        Makes w₁ swapfile label size (n :: q) (out.format (List.replicate size 0)) w := by
  have io_fine : ∀ {P : SetupWorld → Prop}, (io (.ok ())).Decided P true P := Program.Decided.outside _
  have loop_fine : ∀ {P : SetupWorld → Prop}, (loopDevice (.ok ())).Decided P true P :=
    Program.Decided.outside _
  unfold makeSwap
  simp only [fine.remove, fine.openNew, fine.chattr, fine.setLen, fine.mkswap, fine.loopControl,
    fine.nextFree, fine.attach]
  let NewFile := Makes w₁ swapfile label size (n :: q)
  refine Program.Decided.followed (R := fun w => Cleared (pathText (String.ofList swapfile)) w₁ w ∧
    w.fs.get (n :: q) = none) ?_ fun _ => ?_
  · rintro w rfl
    exact ⟨⟨removeFile_ensures _ w rfl, removeFile_gone usable⟩, rfl⟩
  refine io_fine.followed fun _ => ?_
  refine Program.Ensures.bind_value (n :: q) (R := NewFile []) ?_ ?_
  · rintro w ⟨cleared, free⟩
    have usable' : Usable w.fs swapfile q n :=
      (Stays.of_left usable (cleared.left (.create swapfile label size))).usable
    exact openNew_makes cleared usable' free
  refine Program.Decided.followed (R := fun w => NewFile [] w ∧ n :: q ∈ w.noCow) ?_ fun _ => ?_
  · refine command_decided (I := NewFile []) (fun w making => ?_) (fun w making => making.located) ?_
    · exact making.began_cons (.chattr rfl rfl rfl ⟨making.located, making.file⟩)
    · exact fun w making => ⟨⟨{ making with }, List.mem_cons_self⟩, rfl⟩
  refine io_fine.followed fun _ => ?_
  refine Program.Decided.followed (R := fun w => NewFile (List.replicate size 0) w ∧ n :: q ∈ w.noCow)
    ?_ fun _ => ?_
  · refine Program.Decided.update fun w before => ?_
    rw [← resize_nil]
    exact ⟨before.1.edit _, before.2⟩
  refine Program.Decided.followed
    (R := fun w => NewFile (out.format (List.replicate size 0)) w ∧ n :: q ∈ w.noCow) ?_ fun _ => ?_
  · refine command_decided (I := fun w => NewFile (List.replicate size 0) w ∧ n :: q ∈ w.noCow)
      (fun w before => ?_) (fun w before => before.1.located) ?_
    · exact ⟨before.1.began_cons (.mkswap rfl rfl rfl ⟨before.1.located, before.1.file⟩ before.2), before.2⟩
    · exact Program.Decided.update fun w before => ⟨before.1.edit _, before.2⟩
  refine loop_fine.followed fun _ => loop_fine.followed fun _ => ?_
  exact fun w after => ⟨rfl, after.2, after.1⟩

end Setup

theorem SetupCommand.run_fine {out : SetupOutcomes} (fine : out.Fine) {swapfile : Text} (label : Text)
    (size : Nat) {q : Path String} {n : String} {w : SetupWorld} (usable : Usable w.fs swapfile q n) :
    ∃ w', (SetupCommand.create swapfile label size).run out w = (.ok (), w') ∧ n :: q ∈ w'.noCow ∧
      Setup.Makes w swapfile label size (n :: q) (out.format (List.replicate size 0)) w' := by
  obtain ⟨succeeds, made⟩ := Setup.makeSwap_makes label size fine usable w rfl
  refine ⟨_, ?_, made⟩
  change Setup.create _ _ _ _ w = _
  rw [Setup.create_eq usable, fine.createDirs]
  exact Prod.ext succeeds rfl

/-! ## After every sequence of commands -/

/--
Whatever earlier commands on a swap file have left behind, complete or not,
`create` makes it: empty but for what `mkswap` writes, of the mode 0600 and
without copies on write.  Nothing else has changed since the first of them.
-/
theorem run_restarts {before w : SetupWorld} {trace : List Executed} {swapfile label : Text} {size : Nat}
    {q : Path String} {n : String} {out : SetupOutcomes} (run : Run Executed.Step before trace w)
    (same : ∀ e ∈ trace, e.command.swapfile = swapfile) (usable : Usable before.fs swapfile q n)
    (fine : out.Fine) :
    ∃ w', (SetupCommand.create swapfile label size).run out w = (.ok (), w') ∧
      w'.fs.get (n :: q) = some (.file Setup.swapStat (out.format (List.replicate size 0))) ∧
      n :: q ∈ w'.noCow ∧ ∀ p, p ≠ n :: q → w'.fs.get p = before.fs.get p := by
  have stays : Setup.Stays before swapfile q n w := by
    refine run.invariant (I := fun trace w => (∀ e ∈ trace, e.command.swapfile = swapfile) →
      Setup.Stays before swapfile q n w) (fun _ => ⟨usable, fun _ _ => rfl⟩) ?_ same
    rintro trace middle e w kept ⟨_, rfl⟩ same
    have earlier := kept fun other member => same other (List.mem_append_left _ member)
    have own : e.command.swapfile = swapfile := same e (by simp)
    rw [← own] at earlier ⊢
    exact earlier.trans (e.command.run_stays e.out earlier.usable)
  obtain ⟨w', succeeds, noCow, made⟩ := SetupCommand.run_fine fine label size stays.usable
  exact ⟨w', succeeds, made.file, noCow, fun p other => (made.same p other).trans (stays.same p other)⟩

theorem varHost_usable : Usable varHost varSwap ["var"] "swap" where
  parent := ⟨[.empty, .name "var"], rfl, rfl⟩
  dir := rfl
  free node found := by cases found

theorem fineOutcomes_fine : fineOutcomes.Fine := ⟨rfl, rfl, rfl, rfl, rfl, rfl, rfl, rfl, rfl⟩

theorem interrupted_restarts :
    ∃ w',
      (SetupCommand.create varSwap [] 3).run fineOutcomes (afterTrace ⟨varHost, [], []⟩ interrupted) =
        (.ok (), w') ∧
      w'.fs.get ["swap", "var"] = some (.file Setup.swapStat [83, 0, 0]) ∧
      ["swap", "var"] ∈ w'.noCow ∧ ∀ p, p ≠ ["swap", "var"] → w'.fs.get p = varHost.get p :=
  run_restarts interrupted_run (by simp [interrupted, SetupCommand.swapfile]) varHost_usable fineOutcomes_fine

end GnomeBuildMeta.Zswap
