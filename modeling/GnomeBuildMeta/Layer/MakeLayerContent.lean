import GnomeBuildMeta.Layer.MakeLayerSteps

/-!
# The exact content of the output

As long as every whiteout lies in a directory of upper, a run completes and the
output holds exactly what was wanted, with the directories above it.  Each
creation on the way finds its parent directory and a free name.
-/

namespace GnomeBuildMeta.Layer.MakeLayer

open GnomeBuildMeta.Posix GnomeBuildMeta.Control

variable {α : Type} [DecidableEq α]

/-- Every path of lower that is to be whited out lies in a directory of upper. -/
def WhiteoutsInDirs (args : Args α) : Prop :=
  ∀ n p node, args.lowerTree (n :: p) = some node → whiteoutWanted args (n :: p) = true →
    args.host.isDirAt (p ++ args.upper) = true

/-! ## What is created -/

/-- An entry of the output that is about to be created, and the state it finds. -/
structure Creation (α : Type) [DecidableEq α] where
  out : FileSystem α
  rel : Path α

/-- The parent is a directory itself, and the name is free. -/
def Creation.Safe (args : Args α) (c : Creation α) : Prop :=
  c.out.isDirAt (c.rel ++ [args.output]).tail = true ∧ c.out.get (c.rel ++ [args.output]) = none

/-- The directories that `copy_parent_dirs` makes. -/
def MakesDirs (args : Args α) (out : FileSystem α) : Path α → Creation α → Prop
  | [], c => out.isdir (args.outputText []) = false ∧ c = ⟨out, []⟩
  | n :: rel, c =>
      out.isdir (args.outputText (n :: rel)) = false ∧
        (MakesDirs args out rel c ∨
          ∃ parents, copyParentDirs args out rel = .ok parents ∧ c = ⟨parents, n :: rel⟩)

/-- What a step makes: directories, and its own entry if that is none. -/
def Step.Creates (args : Args α) (out : FileSystem α) (t : Step α) (c : Creation α) : Prop :=
  t.wanted args = true ∧
    match t.kind with
    | .dir => MakesDirs args out t.rel c
    | .link | .file | .white =>
        MakesDirs args out t.rel.tail c ∨
          ∃ parents, copyParentDirs args out t.rel.tail = .ok parents ∧ c = ⟨parents, t.rel⟩

/-- Whatever a run creates before it completes or stops. -/
def Creates (args : Args α) (start : FileSystem α) (c : Creation α) : Prop :=
  During (Step.run args) (Step.Creates args) start (steps args) c

/-! ## Content -/

/-- What is written for an entry of upper, or for one that upper does not have. -/
def copied (args : Args α) (rel : Path α) : Node α :=
  match args.upperTree rel with
  | some (.file stat data) => .file { stat with uid := args.uid, gid := args.gid } data
  | some node => node
  | none => .chardev 0 0

/-- Directories are written for those of upper only. -/
theorem copied_isDir (args : Args α) (rel : Path α) :
    (copied args rel).isDir = (args.upperTree rel).any Node.isDir := by
  cases upper : args.upperTree rel with
  | none =>
      rw [copied, upper]
      rfl
  | some node =>
      rw [copied, upper]
      cases node <;> rfl

namespace Job

variable (job : Job α)

def startTree : Posix.Tree α := job.outputTree job.start

/-- The output directory stays as it is if it was there. -/
def node (rel : Path α) : Node α := (job.startTree rel).getD (copied job.toArgs rel)

theorem startTree_cons (n : α) (p : Path α) : job.startTree (n :: p) = none := by
  cases found : job.startTree (n :: p) with
  | none => rfl
  | some node =>
      rcases job.fresh _ ((job.start.mem_entries_iff _ _).mpr found) with root | ⟨here, _⟩
      · cases root
      · simp at here

theorem node_cons (n : α) (p : Path α) : job.node (n :: p) = copied job.toArgs (n :: p) := by
  rw [node, startTree_cons]
  rfl

theorem node_dir {rel : Path α} (dir : job.host.isDirAt (rel ++ job.upper) = true) :
    ∃ perm, job.node rel = .dir perm := by
  obtain ⟨perm, source⟩ := (job.host.isDirAt_iff _).mp dir
  have source : job.upperTree rel = some (.dir perm) := source
  cases found : job.startTree rel with
  | none => exact ⟨perm, by rw [node, found, copied, source]; rfl⟩
  | some old =>
      rcases job.fresh _ ((job.start.mem_entries_iff _ _).mpr found) with root | ⟨_, isDir⟩
      · exact absurd root (by simp)
      · obtain ⟨perm', rfl⟩ := Node.isDir_iff.mp isDir
        exact ⟨perm', by rw [node, found]; rfl⟩

end Job

/-- The output holds exactly the paths of `S`. -/
structure Content (job : Job α) (S : Path α → Prop) (out : FileSystem α) : Prop where
  start : ∀ rel, (job.startTree rel).isSome = true → S rel
  present : ∀ rel, S rel → job.outputTree out rel = some (job.node rel)
  absent : ∀ rel, ¬ S rel → job.outputTree out rel = none

namespace Content

variable {job : Job α} {S : Path α → Prop} {out : FileSystem α}

theorem of_start (job : Job α) : Content job (fun rel => (job.startTree rel).isSome = true) job.start where
  start _ here := here
  present rel here := by
    obtain ⟨node, found⟩ := Option.isSome_iff_exists.mp here
    rw [Job.node, found]
    exact found
  absent rel gone := by
    cases found : job.outputTree job.start rel with
    | none => rfl
    | some node => exact absurd (show (job.startTree rel).isSome = true by simp [Job.startTree, found]) gone

theorem congr {T : Path α → Prop} (content : Content job S out) (same : ∀ rel, T rel ↔ S rel) :
    Content job T out := by
  have equal : T = S := funext fun rel => propext (same rel)
  rw [equal]
  exact content

theorem of_some (content : Content job S out) {rel : Path α} {node : Node α}
    (found : job.outputTree out rel = some node) : S rel := by
  by_contra gone
  rw [content.absent rel gone] at found
  cases found

theorem parent (content : Content job S out) {n : α} {p : Path α} (here : S (n :: p)) : S p := by
  obtain ⟨perm, found⟩ := (out.isDirAt_iff _).mp (out.parent_isDirAt (content.present _ here))
  exact content.of_some found

theorem up (content : Content job S out) {p rel : Path α} (here : S p) (suffix : rel <:+ p) :
    S rel := by
  induction p with
  | nil => exact List.suffix_nil.mp suffix ▸ here
  | cons n p ih =>
      rcases List.suffix_cons_iff.mp suffix with rfl | inner
      · exact here
      · exact ih (content.parent here) inner

/-- No link lies at or above a directory of upper. -/
theorem noLink (content : Content job S out) {p : Path α}
    (dir : job.host.isDirAt (p ++ job.upper) = true) {q : Path α} (above : q <:+ p ++ [job.output])
    (target : PathText α) : out.get q ≠ some (.symlink target) := by
  intro link
  have inTree : ∀ rel, rel <:+ p → q = rel ++ [job.output] → False := by
    rintro rel suffix rfl
    have found := content.present rel (content.of_some link)
    obtain ⟨perm, node⟩ := job.node_dir (job.host.isDirAt_upward dir suffix)
    rw [node] at found
    cases found.symm.trans link
  rcases suffix_append_cases above with outside | ⟨rel, below, same⟩
  · rcases List.suffix_cons_iff.mp outside with same | atRoot
    · exact inTree [] List.nil_suffix same
    · rw [List.suffix_nil.mp atRoot] at link
      obtain ⟨perm, root⟩ := out.get_root
      cases link.symm.trans root
  · exact inTree rel below same

theorem isdir_iff (content : Content job S out) {p : Path α}
    (dir : job.host.isDirAt (p ++ job.upper) = true) :
    out.isdir (job.outputText p) = true ↔ S p := by
  have plain : out.isdir (job.outputText p) = out.isDirAt (p ++ [job.output]) := by
    unfold FileSystem.isdir Args.outputText
    rw [out.stat_textOf (fun q above _ => content.noLink dir above)
      (content.noLink dir List.suffix_rfl)]
    rfl
  rw [plain, out.isDirAt_iff]
  constructor
  · rintro ⟨perm, found⟩
    exact content.of_some found
  · intro here
    obtain ⟨perm, node⟩ := job.node_dir dir
    exact ⟨perm, node ▸ content.present p here⟩

/-- One more entry at a free path. -/
theorem extend (content : Content job S out) {rel : Path α} (free : ¬ S rel) {out' : FileSystem α}
    (made : ∀ q, out'.get q = if q = rel ++ [job.output] then some (copied job.toArgs rel)
      else out.get q) :
    Content job (fun other => S other ∨ other = rel) out' := by
  have other : ∀ r, r ≠ rel → job.outputTree out' r = job.outputTree out r := by
    intro r differs
    exact (made _).trans (if_neg fun equal => differs (List.append_cancel_right equal))
  have fresh : job.startTree rel = none := by
    cases found : job.startTree rel with
    | none => rfl
    | some node => exact absurd (content.start rel (by rw [found]; rfl)) free
  constructor
  · exact fun r here => Or.inl (content.start r here)
  · intro r here
    by_cases same : r = rel
    · rw [same, Job.node, fresh]
      exact (made _).trans (if_pos rfl)
    · rw [other r same]
      exact content.present r (here.resolve_right same)
  · intro r gone
    obtain ⟨before, differs⟩ := not_or.mp gone
    rw [other r differs]
    exact content.absent r before

/-- One directory of upper is made where its parent is. -/
theorem makeDir (content : Content job S out) {rel : Path α} (free : ¬ S rel)
    (dir : job.host.isDirAt (rel ++ job.upper) = true)
    (parent : out.isDirAt (rel ++ [job.output]).tail = true) :
    (∃ out', (do copystat job.toArgs rel (← out.mkdir (job.outputText rel) 0o777)) = .ok out' ∧
      Content job (fun other => S other ∨ other = rel) out') ∧
        Creation.Safe job.toArgs ⟨out, rel⟩ := by
  obtain ⟨n, q, place⟩ : ∃ n q, rel ++ [job.output] = n :: q := by cases rel <;> exact ⟨_, _, rfl⟩
  have gone : out.get (rel ++ [job.output]) = none := content.absent rel free
  refine ⟨?_, parent, gone⟩
  obtain ⟨perm, source⟩ := (job.host.isDirAt_iff _).mp dir
  have statted : job.host.stat (job.upperText rel) = some (.dir perm) := by
    rw [Args.upperText, job.host.stat_textOf (FileSystem.plain_of_get source) (by simp [source])]
    exact source
  rw [place, List.tail_cons] at parent
  rw [place] at gone
  have here : (out.insert n q (.dir 0o777) parent gone).get (n :: q) = some (.dir 0o777) := by
    rw [out.get_insert parent gone, if_pos rfl]
  refine ⟨(out.insert n q (.dir 0o777) parent gone).chmodAt (n :: q) perm, ?_, ?_⟩
  · simp only [FileSystem.mkdir, Args.outputText, place, out.create_ok _ parent gone, bind,
      Except.bind, copystat, statted, modeBits]
    exact FileSystem.chmod_dir _ perm here
  · refine content.extend free fun r => ?_
    rw [FileSystem.get_chmodAt, place]
    by_cases same : r = n :: q
    · rw [if_pos same, if_pos same, same, here, copied, show job.upperTree rel = _ from source]
      rfl
    · rw [if_neg same, if_neg same, out.get_insert parent gone, if_neg same]

end Content

/-- `copy_parent_dirs` makes the missing directories at and above a directory of upper. -/
theorem copyParentDirs_content {job : Job α} {S : Path α → Prop} {out : FileSystem α}
    (content : Content job S out) {p : Path α} (dir : job.host.isDirAt (p ++ job.upper) = true) :
    (∃ out', copyParentDirs job.toArgs out p = .ok out' ∧
      Content job (fun rel => S rel ∨ rel <:+ p) out') ∧
        ∀ c, MakesDirs job.toArgs out p c → c.Safe job.toArgs := by
  induction p with
  | nil =>
      by_cases here : S []
      · have isdir := (content.isdir_iff dir).mpr here
        refine ⟨⟨out, by rw [copyParentDirs, if_pos isdir], content.congr fun rel => ?_⟩, ?_⟩
        · rw [List.suffix_nil]
          exact ⟨fun either => either.elim id fun same => same ▸ here, Or.inl⟩
        · rintro c ⟨missing, _⟩
          rw [isdir] at missing
          cases missing
      · have isdir := Bool.eq_false_iff.mpr fun isdir => here ((content.isdir_iff dir).mp isdir)
        obtain ⟨⟨out', made, content'⟩, safe⟩ := content.makeDir here dir out.isDirAt_root
        refine ⟨⟨out', ?_, content'.congr fun rel => by rw [List.suffix_nil]⟩, ?_⟩
        · rw [copyParentDirs, isdir]
          exact made
        · rintro c ⟨_, rfl⟩
          exact safe
  | cons n p ih =>
      by_cases here : S (n :: p)
      · have isdir := (content.isdir_iff dir).mpr here
        refine ⟨⟨out, by rw [copyParentDirs, if_pos isdir], content.congr fun rel => ?_⟩, ?_⟩
        · exact ⟨fun either => either.elim id fun suffix => content.up here suffix, Or.inl⟩
        · rintro c ⟨missing, _⟩
          rw [isdir] at missing
          cases missing
      · have isdir := Bool.eq_false_iff.mpr fun isdir => here ((content.isdir_iff dir).mp isdir)
        have above := job.host.isDirAt_upward dir (List.suffix_cons n p)
        obtain ⟨⟨parents, run, content'⟩, safe'⟩ := ih above
        have free : ¬ (S (n :: p) ∨ n :: p <:+ p) := by
          rintro (before | suffix)
          · exact here before
          · exact absurd suffix.length_le (by simp)
        have parent : parents.isDirAt (n :: p ++ [job.output]).tail = true := by
          obtain ⟨perm, node⟩ := job.node_dir above
          exact (parents.isDirAt_iff _).mpr
            ⟨perm, node ▸ content'.present p (Or.inr List.suffix_rfl)⟩
        obtain ⟨⟨out', made, content''⟩, safe⟩ := content'.makeDir free dir parent
        refine ⟨⟨out', ?_, content''.congr fun rel => ?_⟩, ?_⟩
        · rw [copyParentDirs, isdir, run]
          exact made
        · rw [List.suffix_cons_iff, or_assoc, or_comm (a := rel = n :: p)]
        · rintro c ⟨_, inner | ⟨parents', run', rfl⟩⟩
          · exact safe' c inner
          · cases run.symm.trans run'
            exact safe

/-! ## One step -/

section Steps

variable {job : Job α} {S : Path α → Prop} {out : FileSystem α} {n : α} {p : Path α}

/-- An entry is made at a free path, once the directories above it are there. -/
theorem leaf_content (content : Content job S out)
    (dir : job.host.isDirAt (p ++ job.upper) = true) (free : ¬ S (n :: p))
    {finish : FileSystem α → Except Errno (FileSystem α)}
    (finishes : ∀ parents, Content job (fun rel => S rel ∨ rel <:+ p) parents →
      parents.isDirAt (p ++ [job.output]) = true → parents.get (n :: (p ++ [job.output])) = none →
        ∃ out', finish parents = .ok out' ∧ ∀ q, out'.get q =
          if q = n :: (p ++ [job.output]) then some (copied job.toArgs (n :: p)) else parents.get q) :
    (∃ out', (copyParentDirs job.toArgs out p >>= finish) = .ok out' ∧
      Content job (fun rel => S rel ∨ rel <:+ n :: p) out') ∧
        ∀ c, (MakesDirs job.toArgs out p c ∨
          ∃ parents, copyParentDirs job.toArgs out p = .ok parents ∧ c = ⟨parents, n :: p⟩) →
            c.Safe job.toArgs := by
  obtain ⟨⟨parents, run, content'⟩, safe⟩ := copyParentDirs_content content dir
  have free' : ¬ (S (n :: p) ∨ n :: p <:+ p) := by
    rintro (before | suffix)
    · exact free before
    · exact absurd suffix.length_le (by simp)
  have parent : parents.isDirAt (p ++ [job.output]) = true := by
    obtain ⟨perm, node⟩ := job.node_dir dir
    exact (parents.isDirAt_iff _).mpr ⟨perm, node ▸ content'.present p (Or.inr List.suffix_rfl)⟩
  have gone : parents.get (n :: (p ++ [job.output])) = none := content'.absent _ free'
  obtain ⟨out', done, made⟩ := finishes parents content' parent gone
  refine ⟨⟨out', ?_, (content'.extend free' made).congr fun rel => ?_⟩, ?_⟩
  · rw [run]
    exact done
  · rw [List.suffix_cons_iff, or_assoc, or_comm (a := rel = n :: p)]
  · rintro c (inner | ⟨parents', run', rfl⟩)
    · exact safe c inner
    · cases run.symm.trans run'
      exact ⟨parent, gone⟩

/-- The name at which an entry is created exclusively. -/
theorem create_copied {parents : FileSystem α} {node : Node α}
    (made : copied job.toArgs (n :: p) = node) (parent : parents.isDirAt (p ++ [job.output]) = true)
    (gone : parents.get (n :: (p ++ [job.output])) = none) :
    ∃ out', parents.create (job.outputText (n :: p)) node = .ok out' ∧ ∀ q, out'.get q =
      if q = n :: (p ++ [job.output]) then some (copied job.toArgs (n :: p)) else parents.get q :=
  ⟨_, parents.create_ok node parent gone, made ▸ parents.get_insert parent gone⟩

theorem copy2_copied {parents : FileSystem α} {stat : Stat} {data : List UInt8}
    (content : Content job S parents) (source : job.upperTree (n :: p) = some (.file stat data))
    (parent : parents.isDirAt (p ++ [job.output]) = true)
    (gone : parents.get (n :: (p ++ [job.output])) = none) :
    ∃ out', copy2 job.toArgs parents (n :: p) = .ok out' ∧ ∀ q, out'.get q =
      if q = n :: (p ++ [job.output]) then some (copied job.toArgs (n :: p)) else parents.get q := by
  have dir : job.host.isDirAt (p ++ job.upper) = true := job.host.parent_isDirAt source
  have plain : parents.Plain (n :: (p ++ [job.output])) := by
    intro q above proper target
    exact content.noLink dir ((List.suffix_cons_iff.mp above).resolve_left proper) target
  have notDir : parents.isdir (job.outputText (n :: p)) = false := by
    unfold FileSystem.isdir Args.outputText
    rw [List.cons_append, parents.stat_textOf plain (by simp [gone]), gone]
    rfl
  have lstatted : job.host.lstat (job.upperText (n :: p)) = some (.file stat data) := by
    unfold Args.upperText
    rw [job.host.lstat_textOf (FileSystem.plain_of_get source)]
    exact source
  refine ⟨_, ?_, parents.get_insert parent gone⟩
  simp only [copy2, notDir, Bool.false_eq_true, ↓reduceIte, lstatted, copied, source]
  exact parents.writeFile_new _ data parent gone

theorem copyLink_content (content : Content job S out) {target : PathText α}
    (source : job.upperTree (n :: p) = some (.symlink target)) (free : ¬ S (n :: p)) :
    (∃ out', copyLink job.toArgs out (n :: p) = .ok out' ∧
      Content job (fun rel => S rel ∨ rel <:+ n :: p) out') ∧
        ∀ c, (MakesDirs job.toArgs out p c ∨
          ∃ parents, copyParentDirs job.toArgs out p = .ok parents ∧ c = ⟨parents, n :: p⟩) →
            c.Safe job.toArgs := by
  have read : job.host.readlink (job.upperText (n :: p)) = some target := by
    unfold Args.upperText
    rw [job.host.readlink_textOf (FileSystem.plain_of_get source)]
    exact congrArg (Option.bind · Node.target) source
  unfold copyLink
  rw [read]
  exact leaf_content content (job.host.parent_isDirAt source) free fun parents _ =>
    create_copied (by rw [copied, source])

theorem copyFile_content (content : Content job S out) {stat : Stat} {data : List UInt8}
    (source : job.upperTree (n :: p) = some (.file stat data)) (free : ¬ S (n :: p)) :
    (∃ out', copyFile job.toArgs out (n :: p) = .ok out' ∧
      Content job (fun rel => S rel ∨ rel <:+ n :: p) out') ∧
        ∀ c, (MakesDirs job.toArgs out p c ∨
          ∃ parents, copyParentDirs job.toArgs out p = .ok parents ∧ c = ⟨parents, n :: p⟩) →
            c.Safe job.toArgs :=
  leaf_content content (job.host.parent_isDirAt source) free fun _ content' =>
    copy2_copied content' source

theorem createWhite_content (content : Content job S out)
    (dir : job.host.isDirAt (p ++ job.upper) = true) (absent : job.upperTree (n :: p) = none)
    (free : ¬ S (n :: p)) :
    (∃ out', createWhite job.toArgs out (n :: p) = .ok out' ∧
      Content job (fun rel => S rel ∨ rel <:+ n :: p) out') ∧
        ∀ c, (MakesDirs job.toArgs out p c ∨
          ∃ parents, copyParentDirs job.toArgs out p = .ok parents ∧ c = ⟨parents, n :: p⟩) →
            c.Safe job.toArgs :=
  leaf_content content dir free fun parents _ => create_copied (by rw [copied, absent])

theorem Step.Fits.upperParent {t : Step α} (fits : t.Fits job.toArgs)
    (inDirs : WhiteoutsInDirs job.toArgs) (want : t.wanted job.toArgs = true) :
    job.host.isDirAt (t.rel.tail ++ job.upper) = true := by
  by_cases white : t.kind = .white
  · obtain ⟨kind, rel⟩ := t
    subst white
    obtain ⟨n, p, node, rfl, found⟩ := fits
    exact inDirs n p node found want
  · exact fits.parent.1 white

theorem Step.Fits.absent_of_white {t : Step α} (fits : t.Fits job.toArgs)
    (inDirs : WhiteoutsInDirs job.toArgs) (white : t.kind = .white)
    (want : t.wanted job.toArgs = true) : job.upperTree t.rel = none := by
  have dir := fits.upperParent inDirs want
  obtain ⟨kind, rel⟩ := t
  subst white
  obtain ⟨n, p, node, rfl, _⟩ := fits
  exact absent_of_whiteoutWanted dir want

/-- Only a step for a directory is about a directory of upper. -/
theorem Step.Fits.noDir {t : Step α} (fits : t.Fits job.toArgs)
    (inDirs : WhiteoutsInDirs job.toArgs) (want : t.wanted job.toArgs = true) (leaf : t.kind ≠ .dir)
    (perm : Nat) : job.upperTree t.rel ≠ some (.dir perm) := by
  intro dir
  by_cases white : t.kind = .white
  · rw [fits.absent_of_white inDirs white want] at dir
    cases dir
  · obtain ⟨kind, rel⟩ := t
    cases kind with
    | dir => exact leaf rfl
    | link =>
        obtain ⟨n, p, target, rfl, source⟩ := fits
        cases source.symm.trans dir
    | file =>
        obtain ⟨n, p, node, rfl, source, noDir, _⟩ := fits
        cases source.symm.trans dir
        cases noDir
    | white => exact white rfl

/-- What a wanted step does, if its path is free or it makes a directory. -/
theorem Step.run_content {t : Step α} (fits : t.Fits job.toArgs)
    (inDirs : WhiteoutsInDirs job.toArgs) (content : Content job S out)
    (free : t.wanted job.toArgs = true → t.kind ≠ .dir → ¬ S t.rel) :
    (∃ out', t.run job.toArgs out = .ok out' ∧
      Content job (fun rel => S rel ∨ t.wanted job.toArgs = true ∧ rel <:+ t.rel) out') ∧
        ∀ c, t.Creates job.toArgs out c → c.Safe job.toArgs := by
  cases want : t.wanted job.toArgs with
  | false =>
      refine ⟨⟨out, by rw [Step.run, want]; rfl, content.congr fun rel => ?_⟩, ?_⟩
      · exact ⟨fun either => either.elim id fun both => (nomatch both.1), Or.inl⟩
      · rintro c ⟨impossible, _⟩
        rw [want] at impossible
        cases impossible
  | true =>
      have same : ∀ rel, (S rel ∨ true = true ∧ rel <:+ t.rel) ↔ (S rel ∨ rel <:+ t.rel) :=
        fun rel => by rw [eq_self_iff_true, true_and]
      have run : t.run job.toArgs out = t.copy job.toArgs out := if_pos want
      have dir := fits.upperParent inDirs want
      have free := free want
      rw [run]
      obtain ⟨kind, rel⟩ := t
      cases kind with
      | dir =>
          obtain ⟨n, p, perm, rfl, source⟩ := fits
          have here := (job.host.isDirAt_iff (n :: p ++ job.upper)).mpr ⟨perm, source⟩
          obtain ⟨⟨out', done, content'⟩, safe⟩ := copyParentDirs_content content here
          exact ⟨⟨out', done, content'.congr same⟩, fun c creates => safe c creates.2⟩
      | link =>
          obtain ⟨n, p, target, rfl, source⟩ := fits
          obtain ⟨⟨out', done, content'⟩, safe⟩ := copyLink_content content source (free nofun)
          exact ⟨⟨out', done, content'.congr same⟩, fun c creates => safe c creates.2⟩
      | file =>
          obtain ⟨n, p, node, rfl, source, noDir, noLink⟩ := fits
          have kind := job.kind_of_get (Or.inr (List.suffix_append _ job.upper)) source
          rw [noDir, noLink] at kind
          cases node with
          | file stat data =>
              obtain ⟨⟨out', done, content'⟩, safe⟩ := copyFile_content content source (free nofun)
              exact ⟨⟨out', done, content'.congr same⟩, fun c creates => safe c creates.2⟩
          | dir _ | symlink _ | chardev _ _ => cases kind
      | white =>
          obtain ⟨n, p, node, rfl, _⟩ := fits
          obtain ⟨⟨out', done, content'⟩, safe⟩ := createWhite_content content dir
            (absent_of_whiteoutWanted dir want) (free nofun)
          exact ⟨⟨out', done, content'.congr same⟩, fun c creates => safe c creates.2⟩

end Steps

/-! ## A whole run -/

/-- The script wants the path: it differs from lower, or is to be whited out. -/
def Changed (args : Args α) (rel : Path α) : Prop :=
  differs args rel = true ∨
    (args.lowerTree rel).isSome = true ∧ whiteoutWanted args rel = true

theorem Step.Fits.wanted_eq {args : Args α} {t : Step α} (fits : t.Fits args) :
    t.wanted args = if t.kind = .white then whiteoutWanted args t.rel else differs args t.rel := by
  obtain ⟨kind, rel⟩ := t
  cases kind with
  | dir =>
      obtain ⟨n, p, perm, rfl, source⟩ := fits
      simp [Step.wanted, differs, source]
  | link =>
      obtain ⟨n, p, target, rfl, source⟩ := fits
      simp [Step.wanted, differs, source]
  | file =>
      obtain ⟨n, p, node, rfl, source, noDir, noLink⟩ := fits
      cases node with
      | file _ _ | chardev _ _ => simp [Step.wanted, differs, source]
      | dir _ => cases noDir
      | symlink _ => cases noLink
  | white => rfl

theorem exists_of_differs {args : Args α} {n : α} {p : Path α}
    (differ : differs args (n :: p) = true) :
    ∃ kind, kind ≠ .white ∧ Step.Fits args ⟨kind, n :: p⟩ := by
  cases source : args.upperTree (n :: p) with
  | none =>
      rw [differs, source] at differ
      cases differ
  | some node =>
      cases node with
      | dir perm => exact ⟨.dir, Kind.noConfusion, n, p, perm, rfl, source⟩
      | symlink target => exact ⟨.link, Kind.noConfusion, n, p, target, rfl, source⟩
      | file _ _ | chardev _ _ => exact ⟨.file, Kind.noConfusion, n, p, _, rfl, source, rfl, rfl⟩

/-- The two roots are directories. -/
theorem not_changed_root (job : Job α) : ¬ Changed job.toArgs [] := by
  obtain ⟨upperPerm, upperRoot⟩ := (job.host.isDirAt_iff _).mp job.upperDir
  obtain ⟨lowerPerm, lowerRoot⟩ := (job.host.isDirAt_iff _).mp job.lowerDir
  have atUpper : job.upperTree [] = some (.dir upperPerm) := upperRoot
  rintro (differ | ⟨_, want⟩)
  · rw [differs, atUpper] at differ
    have plain := FileSystem.plain_of_get lowerRoot
    have both := job.host.isdir_and_not_islink_textOf plain
    rw [job.lowerDir, Bool.and_eq_true, Bool.not_eq_true'] at both
    have isdir : job.host.isdir (job.lowerText []) = true := both.1
    have islink : job.host.islink (job.lowerText []) = false := both.2
    simp [dirIsNew, isdir, islink] at differ
  · have there : job.host.lexists (job.upperText []) = true := by
      rw [Args.upperText, List.nil_append,
        job.host.lexists_textOf (FileSystem.plain_of_get upperRoot)]
      exact congrArg Option.isSome upperRoot
    simp [whiteoutWanted, there] at want

theorem changed_iff (job : Job α) {rel : Path α} :
    Changed job.toArgs rel ↔
      ∃ t ∈ steps job.toArgs, t.wanted job.toArgs = true ∧ t.rel = rel := by
  constructor
  · intro changed
    cases rel with
    | nil => exact absurd changed (not_changed_root job)
    | cons n p =>
        rcases changed with differ | ⟨here, want⟩
        · obtain ⟨kind, upper, fits⟩ := exists_of_differs differ
          refine ⟨⟨kind, n :: p⟩, (mem_steps_iff job).mpr fits, ?_, rfl⟩
          rw [fits.wanted_eq, if_neg upper]
          exact differ
        · obtain ⟨node, found⟩ := Option.isSome_iff_exists.mp here
          exact ⟨⟨.white, n :: p⟩, (mem_steps_iff job).mpr ⟨n, p, node, rfl, found⟩, want, rfl⟩
  · rintro ⟨⟨kind, rel⟩, inside, want, rfl⟩
    have fits := (mem_steps_iff job).mp inside
    by_cases white : kind = .white
    · subst white
      obtain ⟨n, p, node, rfl, found⟩ := fits
      exact Or.inr ⟨Option.isSome_iff_exists.mpr ⟨node, found⟩, want⟩
    · rw [fits.wanted_eq, if_neg white] at want
      exact Or.inl want

/-- What is wanted lies in directories of upper. -/
theorem upper_dir_above_changed (job : Job α) (inDirs : WhiteoutsInDirs job.toArgs) {rel sub : Path α}
    (changed : Changed job.toArgs sub) (suffix : rel <:+ sub) (proper : rel ≠ sub) :
    job.host.isDirAt (rel ++ job.upper) = true := by
  obtain ⟨t, inside, want, rfl⟩ := (changed_iff job).mp changed
  have fits := (mem_steps_iff job).mp inside
  have parent := fits.upperParent inDirs want
  obtain ⟨n, p, place⟩ := fits.cons
  rw [place] at suffix proper parent
  exact job.host.isDirAt_upward parent ((List.suffix_cons_iff.mp suffix).resolve_left proper)

/-- What a completed run leaves: the output directory, and every path that is wanted. -/
def Kept (job : Job α) (rel : Path α) : Prop :=
  (job.startTree rel).isSome = true ∨ ∃ sub, rel <:+ sub ∧ Changed job.toArgs sub

/-- No path is made twice, and none below an entry that is no directory. -/
theorem not_done (job : Job α) (inDirs : WhiteoutsInDirs job.toArgs) {done rest : List (Step α)}
    {t : Step α} (split : steps job.toArgs = done ++ t :: rest) (want : t.wanted job.toArgs = true)
    (leaf : t.kind ≠ .dir) :
    ¬ ((job.startTree t.rel).isSome = true ∨
      ∃ t' ∈ done, t'.wanted job.toArgs = true ∧ t.rel <:+ t'.rel) := by
  have fits : t.Fits job.toArgs := (mem_steps_iff job).mp (by rw [split]; simp)
  obtain ⟨n, p, place⟩ := fits.cons
  rintro (atStart | ⟨t', before, want', suffix⟩)
  · rw [place, job.startTree_cons] at atStart
    cases atStart
  · have fits' : t'.Fits job.toArgs := (mem_steps_iff job).mp (by rw [split]; simp [before])
    by_cases same : t'.rel = t.rel
    · have kinds := steps_apart job split before same
      by_cases white : t.kind = .white
      · have upper := fits'.isSome_of_upper fun white' => kinds ⟨fun _ => white, fun _ => white'⟩
        rw [same, fits.absent_of_white inDirs white want] at upper
        cases upper
      · have white' : t'.kind = .white := by
          by_contra upper'
          exact kinds ⟨fun impossible => absurd impossible upper', fun impossible => absurd impossible white⟩
        have upper := fits.isSome_of_upper white
        rw [← same, fits'.absent_of_white inDirs white' want'] at upper
        cases upper
    · have changed := (changed_iff job).mpr ⟨t', by rw [split]; simp [before], want', rfl⟩
      obtain ⟨perm, dir⟩ := (job.host.isDirAt_iff _).mp
        (upper_dir_above_changed job inDirs changed suffix fun equal => same equal.symm)
      exact fits.noDir inDirs want leaf perm dir

theorem main_content (job : Job α) (inDirs : WhiteoutsInDirs job.toArgs) :
    (∃ out, main job.toArgs job.start = .ok out ∧ Content job (Kept job) out) ∧
      ∀ c, Creates job.toArgs job.start c → c.Safe job.toArgs := by
  have fits : ∀ {done rest : List (Step α)} {t : Step α}, steps job.toArgs = done ++ t :: rest →
      t.Fits job.toArgs := fun split => (mem_steps_iff job).mp (by rw [split]; simp)
  let reached : List (Step α) → Path α → Prop := fun done rel =>
    (job.startTree rel).isSome = true ∨
      ∃ t ∈ done, t.wanted job.toArgs = true ∧ rel <:+ t.rel
  have loop : (∃ out, (steps job.toArgs).foldlM (Step.run job.toArgs) job.start = .ok out ∧
      Content job (reached (steps job.toArgs)) out) ∧
        ∀ c, Creates job.toArgs job.start c → c.Safe job.toArgs := by
    refine foldlM_of_prefix (I := fun done => Content job (reached done)) ?_ ?_
    · intro done t rest out split content
      obtain ⟨⟨out', run, content'⟩, safe⟩ :=
        Step.run_content (fits split) inDirs content (not_done job inDirs split)
      refine ⟨⟨out', run, content'.congr fun rel => ?_⟩, safe⟩
      simp [reached, or_assoc, or_and_right, exists_or]
    · exact (Content.of_start job).congr fun rel => by simp [reached]
  obtain ⟨⟨out, run, content⟩, safe⟩ := loop
  refine ⟨⟨out, (main_eq _ _).trans run, content.congr fun rel => or_congr_right ?_⟩, safe⟩
  constructor
  · rintro ⟨sub, suffix, changed⟩
    obtain ⟨t, inside, want, rfl⟩ := (changed_iff job).mp changed
    exact ⟨t, inside, want, suffix⟩
  · rintro ⟨t, inside, want, suffix⟩
    exact ⟨t.rel, suffix, (changed_iff job).mpr ⟨t, inside, want, rfl⟩⟩

end GnomeBuildMeta.Layer.MakeLayer
