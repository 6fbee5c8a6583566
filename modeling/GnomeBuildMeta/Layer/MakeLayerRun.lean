import GnomeBuildMeta.Control.Except
import GnomeBuildMeta.Layer.MakeLayer

/-!
# What a run of make-layer.py leaves in its output

Every entry of the output is accounted for by the two trees at every moment of
a run (`Sound`), no entry is ever removed, and a completed run has an entry for
each path of upper that the script finds different and for each path of lower
that it whites out.
-/

namespace GnomeBuildMeta.Layer.MakeLayer

open GnomeBuildMeta.Posix GnomeBuildMeta.Control

variable {α : Type} [DecidableEq α]

namespace Args

variable (args : Args α)

def lowerTree : Posix.Tree α := args.host.below args.lower

def upperTree : Posix.Tree α := args.host.below args.upper

def outputTree (out : FileSystem α) : Posix.Tree α := out.below [args.output]

end Args

/--
Two trees of directories, regular files and links, and a directory in which the
output does not exist yet or is an empty directory.
-/
structure Job (α : Type) [DecidableEq α] extends Args α where
  start : FileSystem α
  lowerDir : host.isDirAt lower = true
  upperDir : host.isDirAt upper = true
  kinds : ∀ e ∈ host.entries, lower <:+ e.1 ∨ upper <:+ e.1 →
    (e.2.isDir || e.2.isFile || e.2.isSymlink) = true
  fresh : ∀ e ∈ start.entries, e.1 = [] ∨ e.1 = [output] ∧ e.2.isDir = true

/-- A directory for an output `o` that is still to be made. -/
theorem fresh_bare : ∀ e ∈ (FileSystem.bare (α := String) 0o755).entries,
    e.1 = [] ∨ e.1 = ["o"] ∧ e.2.isDir = true := by
  simp [FileSystem.bare]

/-- The script finds the entry of upper at `rel` different from lower. -/
def differs (args : Args α) (rel : Path α) : Bool :=
  match args.upperTree rel with
  | some (.dir _) => dirIsNew args rel
  | some (.symlink _) => linkDiffers args rel
  | some _ => fileDiffers args rel
  | none => false

/-- A directory of the output has a reason in the two trees. -/
def DirReason (args : Args α) (rel : Path α) : Prop :=
  args.host.isDirAt (rel ++ args.lower) = true ∨ ∃ sub, rel <:+ sub ∧ differs args sub = true

/-- An entry of the output is accounted for by the two trees. -/
def Faithful (args : Args α) (rel : Path α) : Node α → Prop
  | .dir _ => args.host.isDirAt (rel ++ args.upper) = true ∧ DirReason args rel
  | .file stat data =>
      (∃ source, args.upperTree rel = some (.file source data) ∧ source.perm = stat.perm) ∧
        differs args rel = true
  | .symlink target => args.upperTree rel = some (.symlink target) ∧ differs args rel = true
  | .chardev major minor => major = 0 ∧ minor = 0 ∧ args.upperTree rel = none

/-- Every entry of the output is accounted for. -/
def Sound (args : Args α) (out : FileSystem α) : Prop :=
  ∀ rel node, args.outputTree out rel = some node → Faithful args rel node

theorem Job.sound_start (job : Job α) : Sound job.toArgs job.start := by
  intro rel node found
  rcases job.fresh _ ((job.start.mem_entries_iff _ _).mpr found) with root | ⟨here, dir⟩
  · exact absurd root (by simp)
  · have empty : rel = [] := List.append_left_eq_self.mp here
    subst empty
    obtain ⟨perm, rfl⟩ := Node.isDir_iff.mp dir
    exact ⟨job.upperDir, Or.inl job.lowerDir⟩

/-- An entry of either tree is a directory, a regular file or a link. -/
theorem Job.kind_of_get (job : Job α) {p : Path α} {node : Node α}
    (inside : job.lower <:+ p ∨ job.upper <:+ p) (found : job.host.get p = some node) :
    (node.isDir || node.isFile || node.isSymlink) = true :=
  job.kinds _ ((job.host.mem_entries_iff _ _).mpr found) inside

theorem DirReason.parent {args : Args α} {n : α} {p : Path α} (reason : DirReason args (n :: p)) :
    DirReason args p := by
  rcases reason with dir | ⟨sub, below, differ⟩
  · obtain ⟨perm, found⟩ := (args.host.isDirAt_iff _).mp dir
    exact Or.inl (args.host.parent_isDirAt found)
  · exact Or.inr ⟨sub, (List.suffix_cons n p).trans below, differ⟩

/-! ## Lookups in the output -/

/-- In a sound output no link lies at or above a directory of upper. -/
theorem Sound.noLink {args : Args α} {out : FileSystem α} (sound : Sound args out) {p : Path α}
    (dir : args.host.isDirAt (p ++ args.upper) = true) {q : Path α} (above : q <:+ p ++ [args.output])
    (target : PathText α) : out.get q ≠ some (.symlink target) := by
  intro link
  rcases suffix_append_cases above with outside | ⟨rel, below, rfl⟩
  · rcases List.suffix_cons_iff.mp outside with rfl | atRoot
    · have top : args.upperTree [] = some (.symlink target) := (sound [] _ link).1
      obtain ⟨other, atTop⟩ :=
        (args.host.isDirAt_iff _).mp (args.host.isDirAt_upward dir List.nil_suffix)
      exact absurd (top.symm.trans atTop) (by simp)
    · rw [List.suffix_nil.mp atRoot] at link
      obtain ⟨perm, root⟩ := out.get_root
      exact absurd (link.symm.trans root) (by simp)
  · have linked : args.upperTree rel = some (.symlink target) := (sound rel _ link).1
    obtain ⟨perm, found⟩ := (args.host.isDirAt_iff _).mp (args.host.isDirAt_upward dir below)
    exact absurd (linked.symm.trans found) (by simp)

/-- Below a directory of upper the output resolves plainly. -/
theorem Sound.plain {args : Args α} {out : FileSystem α} (sound : Sound args out) {n : α}
    {p : Path α} (dir : args.host.isDirAt (p ++ args.upper) = true) :
    out.Plain (n :: (p ++ [args.output])) := by
  intro q above proper target
  rcases List.suffix_cons_iff.mp above with same | inner
  · exact absurd same proper
  · exact sound.noLink dir inner target

/-- `os.path.isdir(os.path.join(args.output, rel))` for a directory of upper. -/
theorem Sound.isdir_output {args : Args α} {out : FileSystem α} (sound : Sound args out)
    {p : Path α} (dir : args.host.isDirAt (p ++ args.upper) = true) :
    out.isdir (args.outputText p) = out.isDirAt (p ++ [args.output]) := by
  unfold FileSystem.isdir Args.outputText
  rw [out.stat_textOf (fun q above _ => sound.noLink dir above)
    (sound.noLink dir List.suffix_rfl)]
  rfl

/-! ## Parent directories -/

theorem copystat_keepsKinds {args : Args α} {rel : Path α} {out out' : FileSystem α}
    (done : copystat args rel out = .ok out') : out.KeepsKinds out' := by
  unfold copystat at done
  split at done
  · cases done
  · exact FileSystem.chmod_keepsKinds done

theorem copyParentDirs_keepsKinds {args : Args α} {out out' : FileSystem α} {p : Path α}
    (done : copyParentDirs args out p = .ok out') : out.KeepsKinds out' := by
  induction p generalizing out' with
  | nil =>
      unfold copyParentDirs at done
      split at done
      · cases done
        exact FileSystem.KeepsKinds.refl out
      · obtain ⟨made, created, stamped⟩ := bind_ok_iff.mp done
        exact (FileSystem.create_keepsKinds created).trans (copystat_keepsKinds stamped)
  | cons n p ih =>
      unfold copyParentDirs at done
      split at done
      · cases done
        exact FileSystem.KeepsKinds.refl out
      · obtain ⟨parents, above, rest⟩ := bind_ok_iff.mp done
        obtain ⟨made, created, stamped⟩ := bind_ok_iff.mp rest
        exact (ih above).trans
          ((FileSystem.create_keepsKinds created).trans (copystat_keepsKinds stamped))

/-- Making one missing directory of upper keeps the output sound. -/
theorem mkdir_copystat_sound {args : Args α} {out made out' : FileSystem α} (sound : Sound args out)
    {rel : Path α} {n : α} {q : Path α} (place : rel ++ [args.output] = n :: q)
    (parent : out.isDirAt q = true) (dir : args.host.isDirAt (rel ++ args.upper) = true)
    (reason : DirReason args rel) (created : out.mkdir (args.outputText rel) 0o777 = .ok made)
    (stamped : copystat args rel made = .ok out') :
    Sound args out' ∧ out'.isDirAt (rel ++ [args.output]) = true := by
  obtain ⟨perm, source⟩ := (args.host.isDirAt_iff _).mp dir
  have statted : args.host.stat (args.upperText rel) = some (.dir perm) := by
    rw [Args.upperText, args.host.stat_textOf (FileSystem.plain_of_get source) (by simp [source])]
    exact source
  unfold FileSystem.mkdir Args.outputText at created
  rw [place] at created
  obtain ⟨free, content⟩ := out.create_inv made parent created
  have here : made.get (n :: q) = some (.dir 0o777) := by rw [content, if_pos rfl]
  simp only [copystat, statted, modeBits, Args.outputText, place, made.chmod_dir perm here,
    Except.ok.injEq] at stamped
  subst stamped
  constructor
  · intro rel' node found
    unfold Args.outputTree FileSystem.below at found
    rw [FileSystem.get_chmodAt, ← place] at found
    by_cases same : rel' = rel
    · subst same
      rw [if_pos rfl, place, here] at found
      cases found
      exact ⟨dir, reason⟩
    · have apart : rel' ++ [args.output] ≠ rel ++ [args.output] :=
        fun equal => same (List.append_cancel_right equal)
      rw [if_neg apart, content, ← place, if_neg apart] at found
      exact sound rel' node found
  · rw [FileSystem.isDirAt_iff]
    refine ⟨perm, ?_⟩
    rw [FileSystem.get_chmodAt, place, if_pos rfl, here]
    rfl

/-- `copy_parent_dirs` on a directory of upper that has a reason to be in the output. -/
theorem copyParentDirs_sound {args : Args α} {out out' : FileSystem α} (sound : Sound args out)
    {p : Path α} (dir : args.host.isDirAt (p ++ args.upper) = true) (reason : DirReason args p)
    (done : copyParentDirs args out p = .ok out') :
    Sound args out' ∧ out'.isDirAt (p ++ [args.output]) = true := by
  induction p generalizing out' with
  | nil =>
      unfold copyParentDirs at done
      rw [sound.isdir_output dir] at done
      split at done
      · rename_i present
        cases done
        exact ⟨sound, present⟩
      · obtain ⟨made, created, stamped⟩ := bind_ok_iff.mp done
        exact mkdir_copystat_sound sound rfl out.isDirAt_root dir reason created stamped
  | cons n p ih =>
      unfold copyParentDirs at done
      rw [sound.isdir_output dir] at done
      split at done
      · rename_i present
        cases done
        exact ⟨sound, present⟩
      · obtain ⟨parents, above, rest⟩ := bind_ok_iff.mp done
        obtain ⟨made, created, stamped⟩ := bind_ok_iff.mp rest
        obtain ⟨perm, found⟩ := (args.host.isDirAt_iff _).mp dir
        obtain ⟨sound', parent⟩ := ih (args.host.parent_isDirAt found) reason.parent above
        exact mkdir_copystat_sound sound' rfl parent dir reason created stamped

/-- `copy_parent_dirs` never completes on a location that something else than a directory takes. -/
theorem copyParentDirs_taken {args : Args α} {out : FileSystem α} {rel : Path α} {node : Node α}
    (found : args.outputTree out rel = some node) (other : node.isDir = false)
    (noLink : node.isSymlink = false) (out' : FileSystem α) :
    copyParentDirs args out rel ≠ .ok out' := by
  have plainLink : ∀ target, out.get (rel ++ [args.output]) ≠ some (.symlink target) := by
    intro target link
    cases found.symm.trans link
    cases noLink
  have notDir : out.isdir (args.outputText rel) = false := by
    unfold FileSystem.isdir Args.outputText
    rw [out.stat_textOf (FileSystem.plain_of_get found) plainLink]
    change Option.any Node.isDir (args.outputTree out rel) = false
    rw [found]
    exact other
  have blocked : ∀ fs : FileSystem α, out.Grows fs → ∀ fs',
      fs.mkdir (args.outputText rel) 0o777 ≠ .ok fs' := by
    intro fs grows fs' made
    obtain ⟨taken, here⟩ := Option.isSome_iff_exists.mp
      (grows (rel ++ [args.output]) (Option.isSome_iff_exists.mpr ⟨node, found⟩))
    rw [FileSystem.mkdir, Args.outputText, fs.create_taken _ here] at made
    cases made
  intro done
  cases rel with
  | nil =>
      simp only [copyParentDirs, notDir, Bool.false_eq_true, ↓reduceIte] at done
      obtain ⟨made, created, _⟩ := bind_ok_iff.mp done
      exact blocked out (FileSystem.Grows.refl out) made created
  | cons n rel =>
      simp only [copyParentDirs, notDir, Bool.false_eq_true, ↓reduceIte] at done
      obtain ⟨parents, above, rest⟩ := bind_ok_iff.mp done
      obtain ⟨made, created, _⟩ := bind_ok_iff.mp rest
      exact blocked parents (copyParentDirs_keepsKinds above).grows made created

/-! ## One entry -/

/-- An output that gains one accounted entry stays sound. -/
theorem Sound.extend {args : Args α} {out out' : FileSystem α} (sound : Sound args out)
    {n : α} {p : Path α} {node : Node α} (faithful : Faithful args (n :: p) node)
    (content : ∀ q, out'.get q =
      if q = n :: (p ++ [args.output]) then some node else out.get q) :
    Sound args out' := by
  intro rel other found
  unfold Args.outputTree FileSystem.below at found
  rw [content] at found
  split at found
  · rename_i same
    have here : rel = n :: p := List.append_cancel_right (same.trans (List.cons_append ..).symm)
    cases found
    exact here ▸ faithful
  · exact sound rel other found

/-- What one accounted step of a walk does: it keeps soundness and leaves an entry. -/
def Adds (args : Args α) (out out' : FileSystem α) (rel : Path α) : Prop :=
  Sound args out' ∧ out.Grows out' ∧ (args.outputTree out' rel).isSome = true

theorem copyDir_adds {args : Args α} {out out' : FileSystem α} (sound : Sound args out)
    {rel : Path α} {perm : Nat} (source : args.upperTree rel = some (.dir perm))
    (differ : differs args rel = true) (done : copyDir args out rel = .ok out') :
    Adds args out out' rel := by
  have dir : args.host.isDirAt (rel ++ args.upper) = true :=
    (args.host.isDirAt_iff _).mpr ⟨perm, source⟩
  have reason : DirReason args rel := Or.inr ⟨rel, List.suffix_rfl, differ⟩
  obtain ⟨sound', here⟩ := copyParentDirs_sound sound dir reason done
  obtain ⟨perm', found⟩ := (out'.isDirAt_iff _).mp here
  exact ⟨sound', (copyParentDirs_keepsKinds done).grows, Option.isSome_iff_exists.mpr ⟨_, found⟩⟩

theorem copyLink_adds {args : Args α} {out out' : FileSystem α} (sound : Sound args out)
    {n : α} {p : Path α} {target : PathText α}
    (source : args.upperTree (n :: p) = some (.symlink target))
    (differ : differs args (n :: p) = true) (done : copyLink args out (n :: p) = .ok out') :
    Adds args out out' (n :: p) := by
  have read : args.host.readlink (args.upperText (n :: p)) = some target := by
    unfold Args.upperText
    rw [args.host.readlink_textOf (FileSystem.plain_of_get source)]
    exact congrArg (Option.bind · Node.target) source
  obtain ⟨parents, above, rest⟩ := bind_ok_iff.mp done
  simp only [read] at rest
  obtain ⟨sound', parent⟩ := copyParentDirs_sound sound (args.host.parent_isDirAt source)
    (Or.inr ⟨_, List.suffix_cons n p, differ⟩) above
  obtain ⟨_, content⟩ := parents.create_inv out' (n := n) parent rest
  have faithful : Faithful args (n :: p) (.symlink target) := ⟨source, differ⟩
  refine ⟨sound'.extend faithful content,
    ((copyParentDirs_keepsKinds above).trans (FileSystem.create_keepsKinds rest)).grows, ?_⟩
  change (out'.get (n :: (p ++ [args.output]))).isSome = true
  rw [content, if_pos rfl]
  rfl

theorem copyFile_adds {args : Args α} {out out' : FileSystem α} (sound : Sound args out)
    {n : α} {p : Path α} {stat : Stat} {data : List UInt8}
    (source : args.upperTree (n :: p) = some (.file stat data))
    (differ : differs args (n :: p) = true) (done : copyFile args out (n :: p) = .ok out') :
    Adds args out out' (n :: p) := by
  have dir := args.host.parent_isDirAt source
  obtain ⟨parents, above, rest⟩ := bind_ok_iff.mp done
  obtain ⟨sound', parent⟩ := copyParentDirs_sound sound dir
    (Or.inr ⟨_, List.suffix_cons n p, differ⟩) above
  -- the output has nothing there, or a file made from the same source
  have noLink : ∀ target, parents.get (n :: (p ++ [args.output])) ≠ some (.symlink target) := by
    intro target link
    exact absurd (source.symm.trans (sound' (n :: p) _ link).1) (by simp)
  have notDir : parents.isdir (args.outputText (n :: p)) = false := by
    unfold FileSystem.isdir Args.outputText
    rw [List.cons_append, parents.stat_textOf (sound'.plain dir) noLink]
    cases found : parents.get (n :: (p ++ [args.output])) with
    | none => simp
    | some node =>
        cases node with
        | dir perm =>
            obtain ⟨other, upperDir⟩ := (args.host.isDirAt_iff _).mp (sound' (n :: p) _ found).1
            exact absurd (source.symm.trans upperDir) (by simp)
        | file _ _ | symlink _ | chardev _ _ => simp [Node.isDir]
  have lstatted : args.host.lstat (args.upperText (n :: p)) = some (.file stat data) := by
    unfold Args.upperText
    rw [args.host.lstat_textOf (FileSystem.plain_of_get source)]
    exact source
  simp only [copy2, notDir, Bool.false_eq_true, ↓reduceIte, lstatted] at rest
  have content := parents.writeFile_inv out' (n := n) parent noLink rest
  have faithful : Faithful args (n :: p)
      (.file { stat with uid := args.uid, gid := args.gid } data) := ⟨⟨stat, source, rfl⟩, differ⟩
  refine ⟨sound'.extend faithful content,
    ((copyParentDirs_keepsKinds above).trans (FileSystem.writeFile_keepsKinds rest)).grows, ?_⟩
  change (out'.get (n :: (p ++ [args.output]))).isSome = true
  rw [content, if_pos rfl]
  rfl

theorem createWhite_adds {args : Args α} {out out' : FileSystem α} (sound : Sound args out)
    {n : α} {p : Path α} {node : Node α} (source : args.lowerTree (n :: p) = some node)
    (absent : args.upperTree (n :: p) = none)
    (dir : args.host.isDirAt (p ++ args.upper) = true)
    (done : createWhite args out (n :: p) = .ok out') : Adds args out out' (n :: p) := by
  obtain ⟨parents, above, rest⟩ := bind_ok_iff.mp done
  obtain ⟨sound', parent⟩ := copyParentDirs_sound sound dir
    (Or.inl (args.host.parent_isDirAt source)) above
  obtain ⟨_, content⟩ := parents.create_inv out' (n := n) parent rest
  have faithful : Faithful args (n :: p) (.chardev 0 0) := ⟨rfl, rfl, absent⟩
  refine ⟨sound'.extend faithful content,
    ((copyParentDirs_keepsKinds above).trans (FileSystem.create_keepsKinds rest)).grows, ?_⟩
  change (out'.get (n :: (p ++ [args.output]))).isSome = true
  rw [content, if_pos rfl]
  rfl

/-! ## The entries of one visited directory -/

section Sorting

variable {fs : FileSystem α} {top p : Path α}

theorem mem_realDirs_iff (dir : fs.isDirAt (p ++ top) = true) {rel : Path α} :
    rel ∈ (sortVisit fs top (fs.visit top p)).realDirs ↔
      ∃ n perm, rel = n :: p ∧ fs.get (rel ++ top) = some (.dir perm) := by
  have descend := fun n => fs.mem_descend_iff (n := n) dir
  simp only [sortVisit, List.mem_filter, List.mem_map] at descend ⊢
  constructor
  · rintro ⟨⟨n, listed, rfl⟩, notLink⟩
    obtain ⟨perm, found⟩ := (fs.isDirAt_iff _).mp ((descend n).mp ⟨listed, notLink⟩)
    exact ⟨n, perm, rfl, found⟩
  · rintro ⟨n, perm, rfl, found⟩
    obtain ⟨listed, notLink⟩ := (descend n).mpr ((fs.isDirAt_iff _).mpr ⟨perm, found⟩)
    exact ⟨⟨n, listed, rfl⟩, notLink⟩

/-- The names of a visited directory are listed either among its directories or its files. -/
theorem mem_visit_iff {n : α} :
    (n ∈ (fs.visit top p).dirs ∨ n ∈ (fs.visit top p).files) ↔
      ∃ node, fs.get (n :: (p ++ top)) = some node := by
  rw [← fs.mem_listdir_iff]
  simp only [FileSystem.visit, List.mem_filter]
  cases fs.isdir (textOf (n :: (p ++ top))) <;> simp

theorem mem_realLinks_iff (dir : fs.isDirAt (p ++ top) = true) {rel : Path α} :
    rel ∈ (sortVisit fs top (fs.visit top p)).realLinks ↔
      ∃ n target, rel = n :: p ∧ fs.get (rel ++ top) = some (.symlink target) := by
  have linked : ∀ n, fs.islink (textOf (n :: p ++ top)) = true ↔
      ∃ target, fs.get (n :: p ++ top) = some (.symlink target) := by
    intro n
    rw [List.cons_append, fs.islink_textOf (fs.plain_cons_of_isDirAt dir)]
    cases found : fs.get (n :: (p ++ top)) with
    | none => simp
    | some node => cases node <;> simp [Node.isSymlink]
  simp only [sortVisit, List.mem_append, List.mem_filter, List.mem_map]
  constructor
  · rintro (⟨⟨n, _, rfl⟩, link⟩ | ⟨⟨n, _, rfl⟩, link⟩)
    all_goals
      obtain ⟨target, found⟩ := (linked n).mp link
      exact ⟨n, target, rfl, found⟩
  · rintro ⟨n, target, rfl, found⟩
    have link := (linked n).mpr ⟨target, found⟩
    rcases mem_visit_iff.mpr ⟨_, found⟩ with listed | listed
    · exact Or.inl ⟨⟨n, listed, rfl⟩, link⟩
    · exact Or.inr ⟨⟨n, listed, rfl⟩, link⟩

theorem mem_realFiles_iff {rel : Path α} :
    rel ∈ (sortVisit fs top (fs.visit top p)).realFiles ↔
      ∃ n node, rel = n :: p ∧ fs.get (rel ++ top) = some node ∧
        node.isDir = false ∧ node.isSymlink = false := by
  simp only [sortVisit, List.mem_filter, List.mem_map, Bool.not_eq_true']
  constructor
  · rintro ⟨⟨n, listed, rfl⟩, notLink⟩
    obtain ⟨node, found⟩ := mem_visit_iff.mp (Or.inr listed)
    change fs.islink (textOf (n :: (p ++ top))) = false at notLink
    rw [fs.islink_textOf (FileSystem.plain_of_get found), found] at notLink
    have noSymlink : node.isSymlink = false := notLink
    refine ⟨n, node, rfl, found, ?_, noSymlink⟩
    have notDir : fs.isdir (textOf (n :: (p ++ top))) = false := by
      simpa using (List.mem_filter.mp listed).2
    rw [FileSystem.isdir, fs.stat_textOf (FileSystem.plain_of_get found), found] at notDir
    · exact notDir
    · intro target link
      rw [found] at link
      cases link
      cases noSymlink
  · rintro ⟨n, node, rfl, found, noDir, noSymlink⟩
    have notLink : fs.islink (textOf (n :: p ++ top)) = false := by
      rw [fs.islink_textOf (FileSystem.plain_of_get found), found]
      exact noSymlink
    have notDir : fs.isdir (textOf (n :: (p ++ top))) = false := by
      rw [List.cons_append] at found
      rw [FileSystem.isdir, fs.stat_textOf (FileSystem.plain_of_get found), found]
      · exact noDir
      · intro target link
        rw [found] at link
        cases link
        cases noSymlink
    refine ⟨⟨n, ?_, rfl⟩, notLink⟩
    rcases mem_visit_iff.mpr ⟨node, found⟩ with listed | listed
    · have isDir := (List.mem_filter.mp listed).2
      rw [notDir] at isDir
      cases isDir
    · exact listed

end Sorting

/--
A loop over entries whose every wanted copy is accounted for.  `base` is an
earlier state of the output that the copies may rely on.
-/
theorem copyWhen_fold {args : Args α} {wanted : Path α → Bool}
    {copy : FileSystem α → Path α → Except Errno (FileSystem α)} {rels : List (Path α)}
    (base : FileSystem α)
    (adds : ∀ out out' rel, rel ∈ rels → Sound args out → base.Grows out → wanted rel = true →
      copy out rel = .ok out' → Adds args out out' rel)
    {out out' : FileSystem α} (sound : Sound args out) (grown : base.Grows out)
    (run : rels.foldlM (copyWhen wanted copy) out = .ok out') :
    Sound args out' ∧ out.Grows out' ∧
      ∀ rel ∈ rels, wanted rel = true → (args.outputTree out' rel).isSome = true := by
  induction rels generalizing out with
  | nil =>
      cases run
      exact ⟨sound, FileSystem.Grows.refl _, fun _ member => nomatch member⟩
  | cons first rest ih =>
      rw [List.foldlM_cons, bind_ok_iff] at run
      obtain ⟨middle, one, later⟩ := run
      have addsRest := fun out out' rel (member : rel ∈ rest) =>
        adds out out' rel (List.mem_cons_of_mem _ member)
      unfold copyWhen at one
      by_cases want : wanted first = true
      · rw [if_pos want] at one
        obtain ⟨sound', grows, here⟩ := adds out middle first List.mem_cons_self sound grown want one
        obtain ⟨soundEnd, growsEnd, all⟩ := ih addsRest sound' (grown.trans grows) later
        refine ⟨soundEnd, grows.trans growsEnd, ?_⟩
        intro rel member wantRel
        rcases List.mem_cons.mp member with rfl | inRest
        · exact growsEnd _ here
        · exact all rel inRest wantRel
      · rw [if_neg want] at one
        cases one
        obtain ⟨soundEnd, growsEnd, all⟩ := ih addsRest sound grown later
        refine ⟨soundEnd, growsEnd, ?_⟩
        intro rel member wantRel
        rcases List.mem_cons.mp member with rfl | inRest
        · exact absurd wantRel want
        · exact all rel inRest wantRel

/-! ## The walk over upper -/

theorem visitUpper_adds (job : Job α) {out out' : FileSystem α} {p : Path α}
    (dir : job.host.isDirAt (p ++ job.upper) = true) (sound : Sound job.toArgs out)
    (run : visitUpper job.toArgs out (job.host.visit job.upper p) = .ok out') :
    Sound job.toArgs out' ∧ out.Grows out' ∧
      ∀ n, differs job.toArgs (n :: p) = true →
        (job.outputTree out' (n :: p)).isSome = true := by
  have inside : ∀ rel : Path α, job.upper <:+ rel ++ job.upper :=
    fun rel => List.suffix_append rel job.upper
  obtain ⟨afterDirs, dirsRun, rest⟩ := bind_ok_iff.mp run
  obtain ⟨afterLinks, linksRun, filesRun⟩ := bind_ok_iff.mp rest
  obtain ⟨soundDirs, growDirs, dirsDone⟩ := copyWhen_fold out
    (fun current next rel member soundCurrent _ want done => by
      obtain ⟨n, perm, rfl, source⟩ := (mem_realDirs_iff dir).mp member
      exact copyDir_adds soundCurrent source
        (by rw [differs, show job.upperTree (n :: p) = _ from source]; exact want) done)
    sound (FileSystem.Grows.refl out) dirsRun
  obtain ⟨soundLinks, growLinks, linksDone⟩ := copyWhen_fold out
    (fun current next rel member soundCurrent _ want done => by
      obtain ⟨n, target, rfl, source⟩ := (mem_realLinks_iff dir).mp member
      exact copyLink_adds soundCurrent source
        (by rw [differs, show job.upperTree (n :: p) = _ from source]; exact want) done)
    soundDirs growDirs linksRun
  obtain ⟨soundFiles, growFiles, filesDone⟩ := copyWhen_fold out
    (fun current next rel member soundCurrent _ want done => by
      obtain ⟨n, node, rfl, source, noDir, noLink⟩ := mem_realFiles_iff.mp member
      have kind := job.kind_of_get (Or.inr (inside _)) source
      rw [noDir, noLink] at kind
      cases node with
      | file stat data =>
          exact copyFile_adds soundCurrent source
            (by rw [differs, show job.upperTree (n :: p) = _ from source]; exact want) done
      | dir _ | symlink _ | chardev _ _ => cases kind)
    soundLinks (growDirs.trans growLinks) filesRun
  refine ⟨soundFiles, growDirs.trans (growLinks.trans growFiles), ?_⟩
  intro n differ
  cases source : job.upperTree (n :: p) with
  | none => rw [differs, source] at differ; cases differ
  | some node =>
      rw [differs, source] at differ
      have kind := job.kind_of_get (Or.inr (inside (n :: p))) source
      cases node with
      | dir perm =>
          exact growFiles _ (growLinks _
            (dirsDone _ ((mem_realDirs_iff dir).mpr ⟨n, perm, rfl, source⟩) differ))
      | symlink target =>
          exact growFiles _
            (linksDone _ ((mem_realLinks_iff dir).mpr ⟨n, target, rfl, source⟩) differ)
      | file stat data =>
          exact filesDone _ (mem_realFiles_iff.mpr ⟨n, _, rfl, source, rfl, rfl⟩) differ
      | chardev major minor => cases kind

/-- After the walk over upper the output has an entry for each path found different. -/
def Covers (args : Args α) (out : FileSystem α) : Prop :=
  ∀ n p, differs args (n :: p) = true → (args.outputTree out (n :: p)).isSome = true

theorem upperWalk_covers (job : Job α) {out : FileSystem α}
    (run : (job.host.osWalk job.upper).foldlM (visitUpper job.toArgs) job.start = .ok out) :
    Sound job.toArgs out ∧ Covers job.toArgs out := by
  have step : ∀ out v out', v ∈ job.host.osWalk job.upper → Sound job.toArgs out →
      visitUpper job.toArgs out v = .ok out' → Sound job.toArgs out' ∧ out.Grows out' := by
    intro out v out' member sound one
    obtain ⟨dir, listed⟩ := job.host.of_mem_osWalk job.upperDir member
    rw [listed] at one
    obtain ⟨sound', grows, _⟩ := visitUpper_adds job dir sound one
    exact ⟨sound', grows⟩
  have stepSound := fun out v out' member sound one => (step out v out' member sound one).1
  refine ⟨foldlM_invariant stepSound job.sound_start run, ?_⟩
  intro n p differ
  have exists' : ∃ node, job.upperTree (n :: p) = some node := by
    cases source : job.upperTree (n :: p) with
    | none => rw [differs, source] at differ; cases differ
    | some node => exact ⟨node, rfl⟩
  obtain ⟨node, source⟩ := exists'
  have dir := job.host.parent_isDirAt source
  refine foldlM_progress (I := Sound job.toArgs)
    (Q := fun out => (job.outputTree out (n :: p)).isSome = true)
    stepSound ?_ (job.host.mem_osWalk dir) ?_ job.sound_start run
  · intro out v out' member sound one has
    exact (step out v out' member sound one).2 _ has
  · intro out out' sound one
    exact (visitUpper_adds job dir sound one).2.2 n differ

/-! ## The walk over lower -/

/--
No entry of lower that lies under a link of upper passes the test for a
whiteout, so no whiteout is made through that link.
-/
def NoWhiteoutThroughLink (args : Args α) : Prop :=
  ∀ rel node, args.lowerTree rel = some node → UnderLink args.upperTree rel →
    whiteoutWanted args rel = false

/-- What replaces a directory of lower is copied. -/
theorem differs_of_lower_dir {args : Args α} {rel : Path α} {node : Node α} {perm : Nat}
    (lower : args.lowerTree rel = some (.dir perm)) (upper : args.upperTree rel = some node)
    (leaf : node.isDir = false) : differs args rel = true := by
  have plain := FileSystem.plain_of_get lower
  have notLink : args.host.islink (args.lowerText rel) = false := by
    unfold Args.lowerText
    rw [args.host.islink_textOf plain, show args.host.get _ = _ from lower]
    rfl
  have notFile : args.host.isfile (args.lowerText rel) = false := by
    unfold FileSystem.isfile Args.lowerText
    rw [args.host.stat_textOf plain (by simp [show args.host.get _ = _ from lower]),
      show args.host.get _ = _ from lower]
    rfl
  rw [differs, upper]
  cases node with
  | dir _ => cases leaf
  | symlink _ => simp [linkDiffers, notLink]
  | file _ _ | chardev _ _ => simp [fileDiffers, notFile]

/-- A path that is whited out in a directory of upper has no entry in upper. -/
theorem absent_of_whiteoutWanted {args : Args α} {n : α} {p : Path α}
    (dir : args.host.isDirAt (p ++ args.upper) = true)
    (want : whiteoutWanted args (n :: p) = true) : args.upperTree (n :: p) = none := by
  have gone := (Bool.and_eq_true_iff.mp want).1
  rw [Bool.not_eq_true', Args.upperText, List.cons_append,
    args.host.lexists_textOf (FileSystem.plain_cons_of_isDirAt dir), Option.isSome_eq_false_iff,
    Option.isNone_iff_eq_none] at gone
  exact gone

theorem whiteoutWanted_of_absent {args : Args α} {n : α} {p : Path α}
    (absent : args.upperTree (n :: p) = none) (dir : args.host.isDirAt (p ++ args.upper) = true) :
    whiteoutWanted args (n :: p) = true := by
  have plain : args.host.Plain (n :: (p ++ args.upper)) := FileSystem.plain_cons_of_isDirAt dir
  obtain ⟨perm, parent⟩ := (args.host.isDirAt_iff _).mp dir
  have gone : args.host.lexists (args.upperText (n :: p)) = false := by
    unfold Args.upperText
    rw [List.cons_append, args.host.lexists_textOf plain]
    exact congrArg Option.isSome absent
  have present : args.host.lexists (args.upperText p) = true := by
    unfold Args.upperText
    rw [args.host.lexists_textOf plain.tail, parent]
    rfl
  simp [whiteoutWanted, gone, present]

/-- A whiteout that is made lies in a directory of upper. -/
theorem whiteout_parent (job : Job α) (noThrough : NoWhiteoutThroughLink job.toArgs)
    {out out' : FileSystem α} (sound : Sound job.toArgs out) (covers : Covers job.toArgs out)
    {n : α} {p : Path α} {node : Node α} (source : job.lowerTree (n :: p) = some node)
    (want : whiteoutWanted job.toArgs (n :: p) = true)
    (done : createWhite job.toArgs out (n :: p) = .ok out') :
    job.upperTree (n :: p) = none ∧ job.host.isDirAt (p ++ job.upper) = true := by
  have notUnder : ¬ UnderLink job.upperTree (n :: p) := by
    intro under
    rw [noThrough _ node source under] at want
    cases want
  have plain : job.host.Plain (n :: (p ++ job.upper)) :=
    FileSystem.plain_append job.upperDir notUnder
  simp only [whiteoutWanted, List.tail_cons, Bool.and_eq_true, Bool.not_eq_true'] at want
  obtain ⟨gone, present⟩ := want
  unfold Args.upperText at gone present
  rw [List.cons_append, job.host.lexists_textOf plain, Option.isSome_eq_false_iff,
    Option.isNone_iff_eq_none] at gone
  rw [job.host.lexists_textOf plain.tail] at present
  obtain ⟨above, parent⟩ := Option.isSome_iff_exists.mp present
  refine ⟨gone, ?_⟩
  have kind := job.kind_of_get (Or.inr (List.suffix_append p job.upper)) parent
  cases above with
  | dir perm => exact (job.host.isDirAt_iff _).mpr ⟨perm, parent⟩
  | symlink target => exact absurd parent (plain.parent target)
  | chardev major minor => cases kind
  | file stat data =>
      -- lower has a directory there, so the file was copied and blocks the way
      obtain ⟨perm, lowerDir⟩ := (job.host.isDirAt_iff _).mp (job.host.parent_isDirAt source)
      have differ : differs job.toArgs p = true := differs_of_lower_dir lowerDir parent rfl
      cases p with
      | nil =>
          obtain ⟨other, top⟩ := (job.host.isDirAt_iff _).mp job.upperDir
          exact absurd (parent.symm.trans top) (by simp)
      | cons m q =>
          obtain ⟨copied, here⟩ := Option.isSome_iff_exists.mp (covers m q differ)
          have faithful := sound _ _ here
          obtain ⟨parents, blocked, _⟩ := bind_ok_iff.mp done
          cases copied with
          | file stat' data' => exact absurd blocked (copyParentDirs_taken here rfl rfl parents)
          | dir perm' =>
              obtain ⟨other, upperDir⟩ := (job.host.isDirAt_iff _).mp faithful.1
              exact absurd (parent.symm.trans upperDir) (by simp)
          | symlink target => exact absurd (parent.symm.trans faithful.1) (by simp)
          | chardev major minor => exact absurd (parent.symm.trans faithful.2.2) (by simp)

theorem visitLower_adds (job : Job α) (noThrough : NoWhiteoutThroughLink job.toArgs)
    {base out out' : FileSystem α} {p : Path α} (covers : Covers job.toArgs base)
    (dir : job.host.isDirAt (p ++ job.lower) = true) (sound : Sound job.toArgs out)
    (grown : base.Grows out)
    (run : visitLower job.toArgs out (job.host.visit job.lower p) = .ok out') :
    Sound job.toArgs out' ∧ out.Grows out' ∧
      ∀ n node, job.lowerTree (n :: p) = some node →
        whiteoutWanted job.toArgs (n :: p) = true →
        (job.outputTree out' (n :: p)).isSome = true := by
  have listed : ∀ rel, rel ∈ (sortVisit job.host job.lower (job.host.visit job.lower p)).realDirs ++
      (sortVisit job.host job.lower (job.host.visit job.lower p)).realLinks ++
      (sortVisit job.host job.lower (job.host.visit job.lower p)).realFiles ↔
      ∃ n node, rel = n :: p ∧ job.lowerTree rel = some node := by
    intro rel
    rw [List.mem_append, List.mem_append, mem_realDirs_iff dir, mem_realLinks_iff dir,
      mem_realFiles_iff]
    constructor
    · rintro ((⟨n, perm, same, found⟩ | ⟨n, target, same, found⟩) | ⟨n, node, same, found, _⟩)
      · exact ⟨n, _, same, found⟩
      · exact ⟨n, _, same, found⟩
      · exact ⟨n, _, same, found⟩
    · rintro ⟨n, node, same, found⟩
      cases node with
      | dir perm => exact Or.inl (Or.inl ⟨n, perm, same, found⟩)
      | symlink target => exact Or.inl (Or.inr ⟨n, target, same, found⟩)
      | file stat data => exact Or.inr ⟨n, _, same, found, rfl, rfl⟩
      | chardev major minor => exact Or.inr ⟨n, _, same, found, rfl, rfl⟩
  obtain ⟨soundEnd, grows, done⟩ := copyWhen_fold base
    (fun current next rel member soundCurrent grownCurrent want made => by
      obtain ⟨n, node, rfl, source⟩ := (listed rel).mp member
      have coversCurrent : Covers job.toArgs current := fun m q differ =>
        grownCurrent _ (covers m q differ)
      obtain ⟨absent, parent⟩ := whiteout_parent job noThrough soundCurrent coversCurrent source
        want made
      exact createWhite_adds soundCurrent source absent parent made)
    sound grown run
  exact ⟨soundEnd, grows, fun n node source want =>
    done _ ((listed _).mpr ⟨n, node, rfl, source⟩) want⟩

/-- A completed run has a whiteout for each path of lower that passes the test. -/
def WhitesOut (args : Args α) (out : FileSystem α) : Prop :=
  ∀ n p node, args.lowerTree (n :: p) = some node → whiteoutWanted args (n :: p) = true →
    (args.outputTree out (n :: p)).isSome = true

/-- What a completed run leaves, when no whiteout goes through a link. -/
theorem main_complete (job : Job α) (noThrough : NoWhiteoutThroughLink job.toArgs)
    {out : FileSystem α} (run : main job.toArgs job.start = .ok out) :
    Sound job.toArgs out ∧ Covers job.toArgs out ∧ WhitesOut job.toArgs out := by
  obtain ⟨base, upperRun, lowerRun⟩ := bind_ok_iff.mp run
  obtain ⟨soundBase, coversBase⟩ := upperWalk_covers job upperRun
  have step : ∀ out v out', v ∈ job.host.osWalk job.lower →
      Sound job.toArgs out ∧ base.Grows out → visitLower job.toArgs out v = .ok out' →
      (Sound job.toArgs out' ∧ base.Grows out') ∧ out.Grows out' := by
    rintro out v out' member ⟨sound, grown⟩ one
    obtain ⟨dir, listed⟩ := job.host.of_mem_osWalk job.lowerDir member
    rw [listed] at one
    obtain ⟨sound', grows, _⟩ := visitLower_adds job noThrough coversBase dir sound grown one
    exact ⟨⟨sound', grown.trans grows⟩, grows⟩
  have stepInvariant := fun out v out' member holds one => (step out v out' member holds one).1
  have atStart : Sound job.toArgs base ∧ base.Grows base := ⟨soundBase, FileSystem.Grows.refl base⟩
  obtain ⟨sound, grown⟩ := foldlM_invariant stepInvariant atStart lowerRun
  refine ⟨sound, fun n p differ => grown _ (coversBase n p differ), ?_⟩
  intro n p node source want
  have dir := job.host.parent_isDirAt source
  refine foldlM_progress (I := fun out => Sound job.toArgs out ∧ base.Grows out)
    (Q := fun out => (job.outputTree out (n :: p)).isSome = true)
    stepInvariant ?_ (job.host.mem_osWalk dir) ?_ atStart lowerRun
  · intro out v out' member holds one has
    exact (step out v out' member holds one).2 _ has
  · rintro out out' ⟨sound, grown⟩ one
    exact (visitLower_adds job noThrough coversBase dir sound grown one).2.2 n node source want

end GnomeBuildMeta.Layer.MakeLayer
