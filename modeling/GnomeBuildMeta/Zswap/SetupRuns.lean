import GnomeBuildMeta.Control.Run
import GnomeBuildMeta.Zswap.Setup

/-!
# Swap files come and go

The programs that `zswap-setup` starts only ever see a file that it has just
made itself.  No other file is touched, whatever the path of the swap file
leads over, and what an earlier command has left behind is in nobody's way.
-/

namespace GnomeBuildMeta.Zswap

open GnomeBuildMeta.Control GnomeBuildMeta.Posix

/-! ## What a command leaves -/

/-- Where the entry is that the command takes away or makes. -/
def SetupCommand.place (out : SetupOutcomes) (w : SetupWorld) : SetupCommand → Option (Path String)
  | .create swapfile _ _ =>
      let text := pathText (String.ofList swapfile)
      match Setup.createDirAll out.createDirs text w with
      | (.ok (), w) => (w.fs.locate false text).toOption
      | (.error _, _) => none
  | .stop swapfile _ => (w.fs.locate false (pathText (String.ofList swapfile))).toOption

/-- The path of the swap file leads to a file with the mode 0600 and the given contents. -/
structure Began.Finds (b : Began) (swapfile : List Char) (p : Path String) (data : List UInt8) : Prop where
  located : b.fs.locate true (pathText (String.ofList swapfile)) = .ok p
  file : b.fs.get p = some (.file Setup.swapStat data)

/-- The program is one that the command starts, on the file that it has made. -/
inductive Began.Safe (b : Began) (place : Option (Path String)) : SetupCommand → Prop where
  | chattr {swapfile label : Text} {size : Nat} {p : Path String} (here : place = some p)
      (program : b.program = "chattr") (args : b.args = ["+C", String.ofList swapfile])
      (finds : b.Finds swapfile p []) : Safe b place (.create swapfile label size)
  | mkswap {swapfile label : Text} {size : Nat} {p : Path String} (here : place = some p)
      (program : b.program = "mkswap")
      (args : b.args = ["--label", String.ofList label, String.ofList swapfile])
      (finds : b.Finds swapfile p (List.replicate size 0)) (noCow : p ∈ b.noCow) :
      Safe b place (.create swapfile label size)

/-- The world after a command, or after a part of it. -/
structure Left (c : SetupCommand) (place : Option (Path String)) (before w : SetupWorld) : Prop where
  elsewhere : ∀ p, place ≠ some p → before.fs.Unchanged w.fs p
  began : ∀ b ∈ w.began, b ∈ before.began ∨ b.Safe place c

/-- No directory is new, and in its place there is nothing, or a file, if not what there was. -/
structure LeftFile (c : SetupCommand) (place : Option (Path String)) (before w : SetupWorld) : Prop where
  elsewhere : ∀ p, place ≠ some p → w.fs.get p = before.fs.get p
  here : ∀ p, place = some p → w.fs.get p = before.fs.get p ∨
    ∀ node, w.fs.get p = some node → node.isFile = true
  began : ∀ b ∈ w.began, b ∈ before.began ∨ b.Safe place c

theorem LeftFile.left {c : SetupCommand} {place : Option (Path String)} {before w : SetupWorld}
    (after : LeftFile c place before w) : Left c place before w :=
  ⟨fun p other => Or.inl (after.elsewhere p other), after.began⟩

namespace Setup

/-! ## The steps of `create` -/

theorem ignored_ensures {step : Step Unit} {P : SetupWorld → Prop} {R : SetupWorld → Prop}
    (ensures : step.Ensures P fun _ => R) :
    (ignored step).Ensures P fun result w => result = .ok () ∧ R w :=
  fun w holds => ⟨rfl, ensures w holds⟩

theorem io_keeps {P : SetupWorld → Prop} (outcome : Except Errno Unit) :
    (io outcome).Ensures P fun _ => P :=
  fun _ holds => holds

theorem loopDevice_keeps {P : SetupWorld → Prop} (outcome : Except Errno Unit) :
    (loopDevice outcome).Ensures P fun _ => P := fun _ holds => holds

theorem makeDirs_ensures {w₀ : SetupWorld} (pieces : PathText String) :
    (makeDirs pieces).Ensures (fun w => w = w₀)
      fun _ w => w₀.fs.MoreDirs w.fs ∧ w.began = w₀.began := by
  refine Program.Ensures.change (fun w w' same result => ?_) fun w e same _ => ?_
  · subst same
    cases made : w.fs.createDirAll 0o755 pieces with
    | ok fs =>
        rw [made] at result
        cases result
        exact ⟨FileSystem.createDirAll_moreDirs made, rfl⟩
    | error e =>
        rw [made] at result
        cases result
  · subst same
    exact ⟨.refl _, rfl⟩

theorem createDirAll_ensures {w₀ : SetupWorld} (outcome : Except (Nat × Errno) Unit)
    (text : PathText String) :
    (createDirAll outcome text).Ensures (fun w => w = w₀)
      fun _ w => w₀.fs.MoreDirs w.fs ∧ w.began = w₀.began := by
  match outcome with
  | .ok () => exact makeDirs_ensures _
  | .error (left, e) =>
      refine Program.Ensures.bind (fun _ w => w₀.fs.MoreDirs w.fs ∧ w.began = w₀.began) ?_ fun _ => ?_
      · refine (ignored_ensures (makeDirs_ensures _)).cases (fun _ _ after => after.2) fun _ _ after => after.2
      · exact fun w holds => holds

/-- The entry to which the text led is gone, unless it could not be removed. -/
structure Cleared (text : PathText String) (w₁ w : SetupWorld) : Prop where
  began : w.began = w₁.began
  fs : w.fs = w₁.fs ∨ ∃ p, w₁.fs.locate false text = .ok p ∧ (w₁.fs.get p).isSome = true ∧
    ∀ q, w.fs.get q = if q = p then none else w₁.fs.get q

theorem removeFile_ensures {w₁ : SetupWorld} (text : PathText String) :
    (removeFile text).Ensures (fun w => w = w₁) fun _ => Cleared text w₁ := by
  refine Program.Ensures.change (fun w w' same result => ?_) fun w e same _ => ?_
  · subst same
    cases located : w.fs.locate false text with
    | error e =>
        rw [located] at result
        cases result
    | ok p =>
        cases removed : w.fs.unlink text with
        | error e =>
            rw [located, removed] at result
            cases result
        | ok fs =>
            rw [located, removed] at result
            cases result
            obtain ⟨q, located', there, _, gone⟩ := FileSystem.unlink_inv removed
            exact ⟨rfl, Or.inr ⟨q, located', there, gone⟩⟩
  · subst same
    exact ⟨rfl, Or.inl rfl⟩

section Making

variable {text : PathText String} {w₁ w : SetupWorld} {place : Option (Path String)} {f : Path String}
  {data : List UInt8} {c : SetupCommand}

theorem Cleared.same (cleared : Cleared text w₁ w) {q : Path String}
    (other : (w₁.fs.locate false text).toOption ≠ some q) : w.fs.get q = w₁.fs.get q := by
  rcases cleared.fs with same | ⟨p, located, _, gone⟩
  · rw [same]
  · rw [gone, if_neg]
    rintro rfl
    exact other (by rw [located]; rfl)

/-- The text leads to the new file, and elsewhere nothing has changed. -/
structure Making (text : PathText String) (w₁ : SetupWorld) (c : SetupCommand) (f : Path String)
    (data : List UInt8) (w : SetupWorld) : Prop where
  place : (w₁.fs.locate false text).toOption = some f
  located : w.fs.locate true text = .ok f
  file : w.fs.get f = some (.file swapStat data)
  same : ∀ q, q ≠ f → w.fs.get q = w₁.fs.get q
  began : ∀ b ∈ w.began, b ∈ w₁.began ∨ b.Safe (some f) c

theorem openNew_ensures : (openNew text).Ensures (Cleared text w₁) fun result w =>
    match result with
    | .ok f => Making text w₁ c f [] w
    | .error _ => Cleared text w₁ w := by
  intro w cleared
  unfold openNew
  cases located : w.fs.locate false text with
  | error e => exact cleared
  | ok p =>
      simp only
      cases made : w.fs.createAt p (.file swapStat []) with
      | error e => exact cleared
      | ok fs =>
          obtain ⟨free, content⟩ := FileSystem.createAt_inv made
          have place : (w₁.fs.locate false text).toOption = some p := by
            rcases cleared.fs with same | ⟨q, located', there, gone⟩
            · rw [← same, located]
              rfl
            · rw [located', FileSystem.locate_of_removed located' there gone located]
              rfl
          refine ⟨place, (FileSystem.locate_of_created located free content).1, ?_, fun q other => ?_, ?_⟩
          · rw [content, if_pos rfl]
          · rw [content, if_neg other]
            refine cleared.same fun here => other ?_
            rw [place] at here
            exact (Option.some.inj here).symm
          · intro b inside
            rw [cleared.began] at inside
            exact Or.inl inside

/-- A program is started in a state with `P`; what it does keeps `I`, and gives `R` if it succeeds. -/
theorem command_ensures {P I R : SetupWorld → Prop} {program : String} {args : List String}
    {status : Except Errno (Option Int)} {effect : Step Unit}
    (started : ∀ w, P w → I { w with began := ⟨program, args, w.fs, w.noCow⟩ :: w.began })
    (does : effect.Ensures I fun _ w => I w ∧ R w) :
    (command program args status effect).Ensures P fun result w => I w ∧ (result = .ok () → R w) := by
  refine Program.Ensures.bind (fun _ => I) started fun _ => ?_
  refine Program.Ensures.bind (fun _ => I) ?_ fun code => ?_
  · intro w holds
    cases status with
    | ok code => exact holds
    | error e => exact ⟨holds, fun h => by cases h⟩
  · split
    · intro w holds
      exact ⟨(does w holds).1, fun _ => (does w holds).2⟩
    · exact fun w holds => ⟨holds, fun h => by cases h⟩

theorem onFile_ensures {P : SetupWorld → Prop} {Q : Except SetupError Unit → SetupWorld → Prop}
    {effect : Path String → Step Unit} (leads : ∀ w, P w → w.fs.locate true text = .ok f)
    (ensures : (effect f).Ensures P Q) : (onFile text effect).Ensures P Q := by
  intro w holds
  unfold onFile
  rw [leads w holds]
  exact ensures w holds

theorem Making.edit (making : Making text w₁ c f data w) (change : List UInt8 → List UInt8) :
    Making text w₁ c f (change data) { w with fs := w.fs.editAt f change } where
  place := making.place
  located := FileSystem.locate_editAt making.located (by rw [making.file]; rfl)
  file := by
    rw [FileSystem.get_editAt, if_pos rfl, making.file]
    rfl
  same q other := by
    rw [FileSystem.get_editAt, if_neg other]
    exact making.same q other
  began := making.began

theorem Making.began_cons (making : Making text w₁ c f data w) {b : Began} (safe : b.Safe (some f) c) :
    Making text w₁ c f data { w with began := b :: w.began } := by
  refine { making with began := fun other inside => ?_ }
  rcases List.mem_cons.mp inside with rfl | earlier
  · exact Or.inr safe
  · exact making.began other earlier

theorem resize_nil (size : Nat) : resize size [] = List.replicate size 0 := by
  simp [resize]

theorem Cleared.left (cleared : Cleared text w₁ w) (c : SetupCommand) :
    LeftFile c (w₁.fs.locate false text).toOption w₁ w where
  elsewhere q other := cleared.same other
  here q place := by
    rcases cleared.fs with same | ⟨p, located, _, gone⟩
    · exact Or.inl (by rw [same])
    · rw [located] at place
      cases place
      refine Or.inr fun node found => ?_
      rw [gone, if_pos rfl] at found
      cases found
  began b inside := Or.inl (cleared.began ▸ inside)

theorem Making.left (making : Making text w₁ c f data w) :
    LeftFile c (w₁.fs.locate false text).toOption w₁ w where
  elsewhere q other := making.same q fun same => other (same ▸ making.place)
  here q place := by
    rw [making.place] at place
    cases place
    refine Or.inr fun node found => ?_
    rw [making.file] at found
    cases found
    rfl
  began b inside := by
    rw [making.place]
    exact making.began b inside

end Making

section Programs

variable {w₁ : SetupWorld} {swapfile label : Text} {size : Nat} {f : Path String}

/-- The file of a command to create one. -/
abbrev Makes (w₁ : SetupWorld) (swapfile label : Text) (size : Nat) :
    Path String → List UInt8 → SetupWorld → Prop :=
  Making (pathText (String.ofList swapfile)) w₁ (.create swapfile label size)

/-- `chattr` finds the new file empty. -/
theorem chattr_ensures (status : Except Errno (Option Int)) :
    (command "chattr" ["+C", String.ofList swapfile] status
      (onFile (pathText (String.ofList swapfile)) setNoCow)).Ensures (Makes w₁ swapfile label size f [])
      fun result w => Makes w₁ swapfile label size f [] w ∧ (result = .ok () → f ∈ w.noCow) := by
  refine command_ensures (fun w making => ?_) (onFile_ensures (fun w making => making.located) ?_)
  · exact making.began_cons (.chattr rfl rfl rfl ⟨making.located, making.file⟩)
  · exact fun w making => ⟨{ making with }, List.mem_cons_self⟩

/-- `mkswap` finds it of the given size, and without copies on write. -/
theorem mkswap_ensures (status : Except Errno (Option Int)) (format : List UInt8 → List UInt8) :
    (command "mkswap" ["--label", String.ofList label, String.ofList swapfile] status
      (onFile (pathText (String.ofList swapfile)) fun p => edit p format)).Ensures
      (fun w => Makes w₁ swapfile label size f (List.replicate size 0) w ∧ f ∈ w.noCow)
      fun result w => (∃ data, Makes w₁ swapfile label size f data w) ∧ (result = .ok () → True) := by
  refine command_ensures ?_ (onFile_ensures (f := f) ?_ ?_)
  · rintro w ⟨making, noCow⟩
    exact ⟨_, making.began_cons (.mkswap rfl rfl rfl ⟨making.located, making.file⟩ noCow)⟩
  · rintro w ⟨data, making⟩
    exact making.located
  · rintro w ⟨data, making⟩
    exact ⟨⟨_, making.edit format⟩, trivial⟩

/-- Once the directories are there, nothing but the place of the swap file is touched. -/
theorem makeSwap_ensures (swapfile label : Text) (size : Nat) (out : SetupOutcomes) :
    (makeSwap (String.ofList swapfile) (String.ofList label) size out).Ensures (fun w => w = w₁) fun _ =>
      LeftFile (.create swapfile label size)
        (w₁.fs.locate false (pathText (String.ofList swapfile))).toOption w₁ := by
  refine Program.Ensures.bind (fun _ => Cleared (pathText (String.ofList swapfile)) w₁) ?_ fun _ => ?_
  · refine Program.Ensures.cases (ignored_ensures (P := fun w => w = w₁)
      (R := Cleared (pathText (String.ofList swapfile)) w₁) ?_)
      (fun _ _ after => after.2) fun _ w after => after.2.left _
    refine Program.Ensures.bind (fun _ w => w = w₁) ?_ fun _ => removeFile_ensures _
    refine (io_keeps out.remove).cases (fun _ _ same => same) ?_
    rintro _ w rfl
    exact ⟨rfl, Or.inl rfl⟩
  refine Program.Ensures.bind (fun _ => Cleared (pathText (String.ofList swapfile)) w₁)
    ((io_keeps _).cases (fun _ _ after => after) fun _ w after => after.left _) fun _ => ?_
  refine Program.Ensures.bind (fun f => Makes w₁ swapfile label size f []) ?_ fun f => ?_
  · exact Program.Ensures.cases openNew_ensures (fun _ _ after => after) fun _ w after => after.left _
  refine Program.Ensures.bind (fun _ w => Makes w₁ swapfile label size f [] w ∧ f ∈ w.noCow) ?_ fun _ => ?_
  · exact (chattr_ensures _).cases (fun _ _ after => ⟨after.1, after.2 rfl⟩) fun _ w after => after.1.left
  refine Program.Ensures.bind (fun _ w => Makes w₁ swapfile label size f [] w ∧ f ∈ w.noCow)
    ((io_keeps _).cases (fun _ _ after => after) fun _ w after => after.1.left) fun _ => ?_
  refine Program.Ensures.bind
    (fun _ w => Makes w₁ swapfile label size f (List.replicate size 0) w ∧ f ∈ w.noCow) ?_ fun _ => ?_
  · rintro w ⟨making, noCow⟩
    rw [← resize_nil]
    exact ⟨making.edit (resize size), noCow⟩
  refine Program.Ensures.bind (fun _ => LeftFile (.create swapfile label size)
    (w₁.fs.locate false (pathText (String.ofList swapfile))).toOption w₁) ?_ fun _ => ?_
  · refine (mkswap_ensures _ _).cases (fun _ _ after => ?_) fun _ _ after => ?_
    · obtain ⟨⟨data, making⟩, _⟩ := after
      exact making.left
    · obtain ⟨⟨data, making⟩, _⟩ := after
      exact making.left
  · refine Program.Keeps.bind (loopDevice_keeps _) fun _ => ?_
    exact Program.Keeps.bind (loopDevice_keeps _) fun _ => loopDevice_keeps _

end Programs

theorem create_left (swapfile label : Text) (size : Nat) (out : SetupOutcomes) (w : SetupWorld) :
    Left (.create swapfile label size) (SetupCommand.place out w (.create swapfile label size)) w
      (create (String.ofList swapfile) (String.ofList label) size out w).2 := by
  have dirs := createDirAll_ensures out.createDirs (pathText (String.ofList swapfile)) w rfl
  unfold SetupCommand.place create
  change Left _ _ w (Program.bind _ _ w).2
  unfold Program.bind
  simp only
  cases run : createDirAll out.createDirs (pathText (String.ofList swapfile)) w with
  | mk result w₁ =>
      rw [run] at dirs
      obtain ⟨more, began⟩ := dirs
      cases result with
      | error e => exact ⟨fun p _ => more p, fun b inside => Or.inl (began ▸ inside)⟩
      | ok _ =>
          have left := (makeSwap_ensures swapfile label size out w₁ rfl).left
          refine ⟨fun p other => (more p).trans (left.elsewhere p other), fun b inside => ?_⟩
          rw [← began]
          exact left.began b inside

theorem stop_left (swapfile label : Text) (out : SetupOutcomes) (w : SetupWorld) :
    LeftFile (.stop swapfile label) (SetupCommand.place out w (.stop swapfile label)) w
      (stop (String.ofList swapfile) out w).2 := by
  have early : ∀ w', w' = w → Cleared (pathText (String.ofList swapfile)) w w' := by
    rintro _ rfl
    exact ⟨rfl, Or.inl rfl⟩
  have whole : (stop (String.ofList swapfile) out).Ensures (fun w' => w' = w)
      fun _ => Cleared (pathText (String.ofList swapfile)) w := by
    refine Program.Ensures.bind (fun _ w' => w' = w) ?_ fun _ => ?_
    · exact (loopDevice_keeps _).cases (fun _ _ same => same) fun _ => early
    refine Program.Ensures.bind (fun _ w' => w' = w) ?_ fun _ => ?_
    · exact (loopDevice_keeps _).cases (fun _ _ same => same) fun _ => early
    refine Program.Ensures.bind (fun _ w' => w' = w) ?_ fun _ => removeFile_ensures _
    exact (io_keeps _).cases (fun _ _ same => same) fun _ => early
  exact (whole w rfl).left _

end Setup

theorem SetupCommand.run_left (c : SetupCommand) (out : SetupOutcomes) (w : SetupWorld) :
    Left c (c.place out w) w (c.run out w).2 := by
  cases c with
  | create swapfile label size => exact Setup.create_left swapfile label size out w
  | stop swapfile label => exact (Setup.stop_left swapfile label out w).left

/-! ## Every sequence of commands -/

/-- A command that has been run, with the place where it has worked. -/
structure Executed where
  command : SetupCommand
  out : SetupOutcomes
  place : Option (Path String)

def Executed.Step (w : SetupWorld) (e : Executed) (w' : SetupWorld) : Prop :=
  e.place = e.command.place e.out w ∧ w' = (e.command.run e.out w).2

/-- What is where no command has worked is as it was, and the programs have seen new files only. -/
structure Kept (before : SetupWorld) (trace : List Executed) (w : SetupWorld) : Prop where
  elsewhere : ∀ p, (∀ e ∈ trace, e.place ≠ some p) → before.fs.Unchanged w.fs p
  began : ∀ b ∈ w.began, b ∈ before.began ∨ ∃ e ∈ trace, b.Safe e.place e.command

/--
Over every sequence of commands, whatever fails in them: no file has changed
but in the places of the swap files, and `chattr` and `mkswap` have only been
started on a file that the command had just made there.
-/
theorem run_kept {w w' : SetupWorld} {trace : List Executed} (run : Run Executed.Step w trace w') :
    Kept w trace w' := by
  refine run.invariant (I := Kept w) ⟨fun _ _ => Or.inl rfl, fun b inside => Or.inl inside⟩ ?_
  rintro trace middle e w' kept ⟨place, rfl⟩
  have left := e.command.run_left e.out middle
  rw [← place] at left
  refine ⟨fun p others => ?_, fun b inside => ?_⟩
  · exact (kept.elsewhere p fun earlier member => others earlier (List.mem_append_left _ member)).trans
      (left.elsewhere p (others e (by simp)))
  · rcases left.began b inside with before | safe
    · rcases kept.began b before with start | ⟨earlier, member, safe⟩
      · exact Or.inl start
      · exact Or.inr ⟨earlier, List.mem_append_left _ member, safe⟩
    · exact Or.inr ⟨e, by simp, safe⟩

/-! ## A swap file in /var -/

def varHost : FileSystem String where
  entries := [([], .dir 0o755), (["var"], .dir 0o755)]
  nodup := by simp
  root := rfl
  parents := by simp [List.lookup_cons, List.lookup_nil, Node.isDir]

def varSwap : Text := "/var/swap".toList

/-- A header in the first byte. -/
def fineOutcomes : SetupOutcomes where
  createDirs := .ok ()
  remove := .ok ()
  openNew := .ok ()
  chattr := .ok (some 0)
  setLen := .ok ()
  mkswap := .ok (some 0)
  format := fun data => data.set 0 83
  loopControl := .ok ()
  nextFree := .ok ()
  attach := .ok ()
  openLabel := .ok ()
  detach := .ok ()

/-- `mkswap` is killed, and the command is run again. -/
def interrupted : List Executed :=
  [⟨.create varSwap [] 2, { fineOutcomes with mkswap := .ok none }, some ["swap", "var"]⟩,
    ⟨.create varSwap [] 3, fineOutcomes, some ["swap", "var"]⟩]

def afterTrace (w : SetupWorld) (trace : List Executed) : SetupWorld :=
  trace.foldl (fun w e => (e.command.run e.out w).2) w

theorem interrupted_run : Run Executed.Step ⟨varHost, [], []⟩ interrupted
    (afterTrace ⟨varHost, [], []⟩ interrupted) := by
  have first : Run Executed.Step ⟨varHost, [], []⟩ [] ⟨varHost, [], []⟩ := .nil
  exact (first.snoc ⟨rfl, rfl⟩).snoc ⟨rfl, rfl⟩

theorem interrupted_kept : (afterTrace ⟨varHost, [], []⟩ interrupted).fs.get ["swap", "var"] =
      some (.file Setup.swapStat [83, 0, 0]) ∧
    (afterTrace ⟨varHost, [], []⟩ interrupted).began.length = 4 ∧
    Kept ⟨varHost, [], []⟩ interrupted (afterTrace ⟨varHost, [], []⟩ interrupted) :=
  ⟨rfl, rfl, run_kept interrupted_run⟩

end GnomeBuildMeta.Zswap
