import GnomeBuildMeta.Confext.MigrateConfext

/-!
# Runs of the migration

A run is the list of its file operations, which depends on the host alone.  The
half-built layer mirrors `/etc` all the time: no entry of it is of another kind,
so no operation is led astray by a link.
-/

namespace GnomeBuildMeta.Confext

open GnomeBuildMeta.Control
open GnomeBuildMeta.Posix

/-! ## The operations of a run -/

/-- What a complete run copies. -/
def copyOps (host : FileSystem String) : Except Errno (List CopyOp) :=
  if host.isDirAt sysrootEtc then do
    let copies ← (host.recursiveEntries sysrootEtc).mapM (visit host)
    return copies.flatten
  else .error .enoent

/-- The file operations of a complete run. -/
def operations (host : FileSystem String) : Except Errno (List FileOp) := do
  let ops ← copyOps host
  return .createDirectories :: (ops.map .copy ++ [.rename])

def execAll (ops : List FileOp) (m : MutableLayers) : Except Errno MutableLayers :=
  ops.foldlM (fun m op => op.exec m) m

def copyAll (ops : List CopyOp) (fs : FileSystem String) : Except Errno (FileSystem String) :=
  ops.foldlM (fun fs op => op.exec fs) fs

theorem execAll_cons {op : FileOp} {ops : List FileOp} {m m' : MutableLayers} :
    execAll (op :: ops) m = .ok m' ↔ ∃ middle, op.exec m = .ok middle ∧ execAll ops middle = .ok m' := by
  rw [execAll, List.foldlM_cons, bind_ok_iff]
  rfl

theorem execAll_append {first second : List FileOp} {m m' : MutableLayers} :
    execAll (first ++ second) m = .ok m' ↔
      ∃ middle, execAll first m = .ok middle ∧ execAll second middle = .ok m' := by
  rw [execAll, List.foldlM_append, bind_ok_iff]
  rfl

theorem copyAll_append {first second : List CopyOp} {fs fs' : FileSystem String} :
    copyAll (first ++ second) fs = .ok fs' ↔
      ∃ middle, copyAll first fs = .ok middle ∧ copyAll second middle = .ok fs' := by
  rw [copyAll, List.foldlM_append, bind_ok_iff]
  rfl

theorem execAll_copy {ops : List CopyOp} {fs : FileSystem String} {old : Option (FileSystem String)}
    {m' : MutableLayers} :
    execAll (ops.map .copy) ⟨some fs, old⟩ = .ok m' ↔
      ∃ fs', copyAll ops fs = .ok fs' ∧ m' = ⟨some fs', old⟩ := by
  induction ops generalizing fs with
  | nil => simp [execAll, copyAll, pure, Except.pure, eq_comm]
  | cons op ops ih =>
      rw [List.map_cons, execAll_cons]
      have step : ∀ middle, (FileOp.copy op).exec ⟨some fs, old⟩ = .ok middle ↔
          ∃ fs', op.exec fs = .ok fs' ∧ middle = ⟨some fs', old⟩ := by
        intro middle
        change (op.exec fs >>= fun fs' => .ok ⟨some fs', old⟩) = .ok middle ↔ _
        rw [bind_ok_iff]
        simp only [Except.ok.injEq, eq_comm]
      simp only [step, copyAll, List.foldlM_cons, bind_ok_iff]
      constructor
      · rintro ⟨_, ⟨middle, first, rfl⟩, later⟩
        obtain ⟨fs', done, same⟩ := ih.mp later
        exact ⟨fs', ⟨middle, first, done⟩, same⟩
      · rintro ⟨fs', ⟨middle, first, done⟩, same⟩
        exact ⟨_, ⟨middle, first, rfl⟩, ih.mpr ⟨fs', done, same⟩⟩

theorem foldlM_visit {host : FileSystem String} {entries : List (Path String)}
    {m m' : MutableLayers} :
    entries.foldlM (fun m rel => do
        let ops ← visit host rel
        execAll (ops.map .copy) m) m = .ok m' ↔
      ∃ copies, entries.mapM (visit host) = .ok copies ∧
        execAll (copies.flatten.map .copy) m = .ok m' := by
  induction entries generalizing m with
  | nil => simp [execAll, pure, Except.pure]
  | cons rel entries ih =>
      simp only [List.foldlM_cons, bind_ok_iff, List.mapM_cons, ih]
      constructor
      · rintro ⟨middle, ⟨ops, visited, first⟩, copies, others, later⟩
        refine ⟨ops :: copies, ⟨ops, visited, copies, others, rfl⟩, ?_⟩
        rw [List.flatten_cons, List.map_append, execAll_append]
        exact ⟨middle, first, later⟩
      · rintro ⟨_, ⟨ops, visited, copies, others, same⟩, done⟩
        cases same
        rw [List.flatten_cons, List.map_append, execAll_append] at done
        obtain ⟨middle, first, later⟩ := done
        exact ⟨middle, ⟨ops, visited, first⟩, copies, others, later⟩

theorem visit_program_ok_iff {host : FileSystem String} {rel : Path String} {m m' : MutableLayers} :
    (Program.outside (visit host rel) >>= fun ops => ops.forM fun op => perform (.copy op)) m =
        (.ok (), m') ↔
      (do let ops ← visit host rel
          execAll (ops.map .copy) m) = .ok m' := by
  rw [Program.bind_ok_iff, bind_ok_iff]
  have inner : ∀ (ops : List CopyOp) (s : MutableLayers),
      (ops.forM fun op => perform (.copy op)) s = (.ok (), m') ↔
        execAll (ops.map .copy) s = .ok m' := by
    intro ops s
    rw [execAll, List.foldlM_map]
    exact Program.forM_ok_iff fun op _ _ => Program.change_ok_iff
  constructor
  · rintro ⟨ops, middle, visited, done⟩
    obtain ⟨found, rfl⟩ := Program.outside_ok_iff.mp visited
    exact ⟨ops, found, (inner ops m).mp done⟩
  · rintro ⟨ops, visited, done⟩
    exact ⟨ops, m, Program.outside_ok_iff.mpr ⟨visited, rfl⟩, (inner ops m).mpr done⟩

/-- A run succeeds if its operations do, in order. -/
theorem main_ok_iff {host : FileSystem String} {m m' : MutableLayers} :
    main host m = (.ok (), m') ↔ ∃ ops, operations host = .ok ops ∧ execAll ops m = .ok m' := by
  unfold main operations copyOps
  by_cases dir : host.isDirAt sysrootEtc = true
  · simp only [dir, ↓reduceIte, Program.bind_ok_iff, bind_ok_iff]
    constructor
    · rintro ⟨_, created, first, _, copied, middle, last⟩
      rw [Program.forM_ok_iff fun rel _ _ => visit_program_ok_iff, foldlM_visit] at middle
      obtain ⟨copies, visited, middle⟩ := middle
      refine ⟨_, ⟨_, ⟨copies, visited, rfl⟩, rfl⟩, ?_⟩
      rw [execAll_cons]
      refine ⟨created, Program.change_ok_iff.mp first, ?_⟩
      rw [execAll_append]
      exact ⟨copied, middle, execAll_cons.mpr ⟨m', Program.change_ok_iff.mp last, rfl⟩⟩
    · rintro ⟨_, ⟨_, ⟨copies, visited, flat⟩, same⟩, done⟩
      cases flat
      cases same
      obtain ⟨created, first, done⟩ := execAll_cons.mp done
      obtain ⟨copied, middle, last⟩ := execAll_append.mp done
      refine ⟨(), created, Program.change_ok_iff.mpr first, (), copied, ?_, ?_⟩
      · rw [Program.forM_ok_iff fun rel _ _ => visit_program_ok_iff, foldlM_visit]
        exact ⟨copies, visited, middle⟩
      · obtain ⟨_, renamed, ended⟩ := execAll_cons.mp last
        cases ended
        exact Program.change_ok_iff.mpr renamed
  · simp only [dir, Program.bind_ok_iff]
    refine iff_of_false ?_ ?_
    · rintro ⟨_, _, _, impossible⟩
      cases impossible
    · rintro ⟨_, impossible, _⟩
      cases impossible

/-- Without a mutable `/etc` a run leaves what its copies make of the half-built one. -/
theorem main_ok_of_new {host : FileSystem String} {creating : Option (FileSystem String)}
    {m' : MutableLayers} :
    main host ⟨creating, none⟩ = (.ok (), m') ↔
      ∃ ops fs', copyOps host = .ok ops ∧ copyAll ops (creating.getD (.bare 0o755)) = .ok fs' ∧
        m' = ⟨none, some fs'⟩ := by
  rw [main_ok_iff]
  constructor
  · rintro ⟨_, complete, done⟩
    obtain ⟨ops, planned, same⟩ := bind_ok_iff.mp complete
    cases same
    obtain ⟨_, created, later⟩ := execAll_cons.mp done
    cases created
    obtain ⟨_, middle, last⟩ := execAll_append.mp later
    obtain ⟨fs', copied, rfl⟩ := execAll_copy.mp middle
    obtain ⟨_, renamed, ended⟩ := execAll_cons.mp last
    cases renamed
    cases ended
    exact ⟨ops, fs', planned, copied, rfl⟩
  · rintro ⟨ops, fs', planned, copied, rfl⟩
    refine ⟨_, bind_ok_iff.mpr ⟨ops, planned, rfl⟩, execAll_cons.mpr ⟨_, rfl, ?_⟩⟩
    refine execAll_append.mpr ⟨_, execAll_copy.mpr ⟨fs', copied, rfl⟩, ?_⟩
    exact execAll_cons.mpr ⟨_, rfl, rfl⟩

/-! ## What the operations do -/

/-- `/etc` as a tree of its own. -/
def etc (host : FileSystem String) : Posix.Tree String := host.below sysrootEtc

namespace CopyOp

def rel : CopyOp → Path String
  | .mkdir rel _ | .symlink rel _ | .openNew rel | .fchmod rel _ | .write rel _ => rel

/-- The operation copies something of an entry of `/etc`. -/
def Copies (host : FileSystem String) : CopyOp → Prop
  | .mkdir rel perm => ∃ source, etc host rel = some (.dir source) ∧ perm = mkdirMode source
  | .symlink rel target => etc host rel = some (.symlink target)
  | .openNew rel => ∃ stat data, etc host rel = some (.file stat data)
  | .fchmod rel perm => ∃ stat data, etc host rel = some (.file stat data) ∧ perm = stat.perm
  | .write rel data => ∃ stat, etc host rel = some (.file stat data)

/-- What has to be there for the operation to succeed. -/
def Fits (tree : Posix.Tree String) : CopyOp → Prop
  | .mkdir rel _ =>
      (tree rel.tail).any Node.isDir = true ∧
        (tree rel = none ∨ (tree rel).any Node.isDir = true)
  | .symlink rel _ | .openNew rel => (tree rel.tail).any Node.isDir = true ∧ tree rel = none
  | .fchmod rel _ | .write rel _ => (tree rel).any Node.isFile = true

/-- What the operation makes of the entry that it is about. -/
def result (here : Option (Node String)) : CopyOp → Option (Node String)
  | .mkdir _ perm => here.or (some (.dir perm))
  | .symlink _ target => some (.symlink target)
  | .openNew _ => some (.file ⟨0o200, 0, 0, 0⟩ [])
  | .fchmod _ perm => here.map (Node.setPerm perm)
  | .write _ data =>
      match here with
      | some (.file stat _) => some (.file stat data)
      | other => other

end CopyOp

/-- What stands for an entry of `/etc` in the half-built layer; a file may be incomplete. -/
def StandsFor (node : Node String) : Option (Node String) → Prop
  | some (.dir perm) => node = .dir (mkdirMode perm)
  | some (.file _ _) => node.isFile = true
  | some (.symlink target) => node = .symlink target
  | _ => False

/-- Every entry of the half-built layer stands for the entry of `/etc` in the same place. -/
def Mirrors (host fs : FileSystem String) : Prop :=
  ∀ p node, p ≠ [] → fs.get p = some node → StandsFor node (etc host p)

/-- What exists in `/etc` lies under no link of the half-built layer. -/
theorem Mirrors.plain {host fs : FileSystem String} (mirrors : Mirrors host fs) {p : Path String}
    {node : Node String} (found : etc host p = some node) : fs.Plain p := by
  intro q suffix proper target link
  obtain ⟨perm, dir⟩ := (host.isDirAt_iff _).mp (host.isDirAt_above found suffix proper)
  cases q with
  | nil =>
      obtain ⟨perm', root⟩ := fs.get_root
      rw [root] at link
      cases link
  | cons n q =>
      have stands := mirrors (n :: q) _ (List.cons_ne_nil _ _) link
      rw [show etc host (n :: q) = some (.dir perm) from dir] at stands
      cases stands

namespace CopyOp

variable {host fs fs' : FileSystem String} {op : CopyOp} {n : String} {p : Path String}

theorem exists_of_copies (copies : op.Copies host) : ∃ node, etc host op.rel = some node := by
  cases op with
  | mkdir rel perm =>
      obtain ⟨source, found, _⟩ := copies
      exact ⟨_, found⟩
  | symlink rel target => exact ⟨_, copies⟩
  | openNew rel =>
      obtain ⟨stat, data, found⟩ := copies
      exact ⟨_, found⟩
  | fchmod rel perm =>
      obtain ⟨stat, data, found, _⟩ := copies
      exact ⟨_, found⟩
  | write rel data =>
      obtain ⟨stat, found⟩ := copies
      exact ⟨_, found⟩

theorem create_fits (plain : fs.Plain (n :: p)) {node : Node String}
    (made : fs.create (textOf (n :: p)) node = .ok fs') :
    ((fs.get p).any Node.isDir = true ∧ fs.get (n :: p) = none) ∧
      ∀ q, fs'.get q = if q = n :: p then some node else fs.get q := by
  obtain ⟨dir, free, effect⟩ := fs.create_plain_inv fs' plain made
  exact ⟨⟨dir, free⟩, effect⟩

theorem changeFile_ok {change : Stat → List UInt8 → FileSystem String} {rel : Path String}
    (changed : changeFile fs rel change = .ok fs') :
    ∃ stat data, fs.get rel = some (.file stat data) ∧ fs' = change stat data := by
  unfold changeFile at changed
  split at changed
  · rename_i stat data found
    cases changed
    exact ⟨stat, data, found, rfl⟩
  · cases changed

theorem dir_of_isdir (mirrors : Mirrors host fs) (plain : fs.Plain (n :: p)) {source : Nat}
    (original : etc host (n :: p) = some (.dir source)) (isdir : fs.isdir (textOf (n :: p)) = true) :
    fs.get (n :: p) = some (.dir (mkdirMode source)) := by
  cases here : fs.get (n :: p) with
  | none =>
      rw [FileSystem.isdir, fs.stat_textOf plain (by simp [here]), here] at isdir
      cases isdir
  | some node =>
      have stands := mirrors _ node (List.cons_ne_nil _ _) here
      rw [original] at stands
      exact congrArg some stands

/-- What a successful operation found and what it leaves behind. -/
theorem exec_inv (mirrors : Mirrors host fs) (copies : op.Copies host) (named : op.rel = n :: p)
    (done : op.exec fs = .ok fs') :
    op.Fits fs.get ∧ ∀ q, fs'.get q = if q = n :: p then op.result (fs.get q) else fs.get q := by
  obtain ⟨source, found⟩ := exists_of_copies copies
  have plain : fs.Plain (n :: p) := named ▸ mirrors.plain found
  cases op with
  | mkdir rel perm =>
      cases named
      simp only [exec, FileSystem.mkdir] at done
      cases made : fs.create (textOf (n :: p)) (.dir perm) with
      | ok fs'' =>
          rw [made] at done
          cases done
          obtain ⟨⟨dir, free⟩, effect⟩ := create_fits plain made
          refine ⟨⟨dir, Or.inl free⟩, fun q => ?_⟩
          rw [effect]
          by_cases same : q = n :: p
          · simp [same, free, result]
          · simp [same]
      | error e =>
          rw [made] at done
          simp only at done
          split at done
          · rename_i taken
            cases done
            obtain ⟨source', original, _⟩ := copies
            have dir := dir_of_isdir mirrors plain original taken.2
            refine ⟨⟨fs.parent_isDirAt dir, Or.inr ?_⟩, fun q => ?_⟩
            · exact (fs.isDirAt_iff _).mpr ⟨_, dir⟩
            by_cases same : q = n :: p
            · simp [same, dir, result]
            · simp [same]
          · cases done
  | symlink rel target =>
      cases named
      exact create_fits plain done
  | openNew rel =>
      cases named
      exact create_fits plain done
  | fchmod rel perm =>
      cases named
      obtain ⟨stat, data, here, rfl⟩ := changeFile_ok done
      refine ⟨by rw [Fits, here]; rfl, fun q => ?_⟩
      rw [fs.get_chmodAt]
      rfl
  | write rel data =>
      cases named
      obtain ⟨stat, old, here, rfl⟩ := changeFile_ok done
      refine ⟨by rw [Fits, here]; rfl, fun q => ?_⟩
      rw [fs.get_writeAt]
      by_cases same : q = n :: p
      · simp [same, here, result, Node.isFile]
      · simp [same]

/-- An operation that finds what it needs succeeds. -/
theorem exec_ok (mirrors : Mirrors host fs) (copies : op.Copies host) (named : op.rel = n :: p)
    (fits : op.Fits fs.get) : ∃ fs', op.exec fs = .ok fs' := by
  obtain ⟨source, found⟩ := exists_of_copies copies
  have plain : fs.Plain (n :: p) := named ▸ mirrors.plain found
  cases op with
  | mkdir rel perm =>
      cases named
      obtain ⟨dir, free | taken⟩ := fits
      · have made := fs.create_ok (p := p) (.dir perm) dir free
        simp only [exec, FileSystem.mkdir, made]
        exact ⟨_, rfl⟩
      · obtain ⟨perm', here⟩ := (fs.isDirAt_iff _).mp taken
        have isdir : fs.isdir (textOf (n :: p)) = true := by
          rw [FileSystem.isdir, fs.stat_textOf plain (by simp [here])]
          exact taken
        simp only [exec, FileSystem.mkdir, fs.create_taken _ here, isdir, and_self, ↓reduceIte]
        exact ⟨_, rfl⟩
  | symlink rel target =>
      cases named
      exact ⟨_, fs.create_ok _ fits.1 fits.2⟩
  | openNew rel =>
      cases named
      exact ⟨_, fs.create_ok _ fits.1 fits.2⟩
  | fchmod rel perm | write rel data =>
      obtain ⟨node, here, isFile⟩ := (Option.any_eq_true _ _).mp fits
      cases node with
      | file stat old =>
          simp only [exec, changeFile, here]
          exact ⟨_, rfl⟩
      | dir _ | symlink _ | chardev _ _ => cases isFile

/-- An operation keeps the layer a mirror of `/etc`. -/
theorem exec_mirrors (mirrors : Mirrors host fs) (copies : op.Copies host) (named : op.rel = n :: p)
    (done : op.exec fs = .ok fs') : Mirrors host fs' := by
  obtain ⟨fits, effect⟩ := exec_inv mirrors copies named done
  intro q node proper found
  rw [effect] at found
  split at found
  case isFalse => exact mirrors q node proper found
  case isTrue same =>
    subst same
    cases op with
    | mkdir rel perm =>
        cases named
        obtain ⟨source, dir, rfl⟩ := copies
        cases here : fs.get (n :: p) with
        | none =>
            rw [here] at found
            cases found
            rw [dir]
            rfl
        | some old =>
            rw [here] at found
            cases found
            exact mirrors _ _ proper here
    | symlink rel target =>
        cases named
        cases found
        rw [show etc host (n :: p) = _ from copies]
        rfl
    | openNew rel =>
        cases named
        cases found
        obtain ⟨stat, data, file⟩ := copies
        rw [file]
        rfl
    | fchmod rel perm =>
        cases named
        obtain ⟨stat, data, file, rfl⟩ := copies
        obtain ⟨old, here, isFile⟩ := (Option.any_eq_true _ _).mp fits
        rw [here] at found
        cases found
        rw [file]
        cases old <;> first | rfl | cases isFile
    | write rel data =>
        cases named
        obtain ⟨stat, file⟩ := copies
        obtain ⟨old, here, isFile⟩ := (Option.any_eq_true _ _).mp fits
        rw [here] at found
        rw [file]
        cases old with
        | file _ _ => cases found; rfl
        | dir _ | symlink _ | chardev _ _ => cases isFile

end CopyOp

/-! ## What is copied -/

theorem copies_of_mem_copyEntry {host : FileSystem String} {rel : Path String} {op : CopyOp}
    (member : op ∈ copyEntry host rel) : op.Copies host ∧ op.rel = rel := by
  unfold copyEntry at member
  split at member
  · rename_i target found
    rw [List.mem_singleton.mp member]
    exact ⟨found, rfl⟩
  · rename_i stat data found
    simp only [List.mem_cons, List.not_mem_nil, or_false] at member
    rcases member with rfl | rfl | rfl
    · exact ⟨⟨stat, data, found⟩, rfl⟩
    · exact ⟨⟨stat, data, found, rfl⟩, rfl⟩
    · exact ⟨⟨stat, found⟩, rfl⟩
  · rename_i perm found
    rw [List.mem_singleton.mp member]
    exact ⟨⟨perm, found, rfl⟩, rfl⟩
  · cases member

/-- An operation that copies something of an entry is one of those that copy the entry. -/
theorem CopyOp.mem_copyEntry {host : FileSystem String} {op : CopyOp} (copies : op.Copies host) :
    op ∈ copyEntry host op.rel := by
  unfold copyEntry
  cases op with
  | mkdir rel perm =>
      obtain ⟨source, dir, rfl⟩ := copies
      rw [show host.get (CopyOp.rel (.mkdir rel (mkdirMode source)) ++ sysrootEtc) = _ from dir]
      exact List.mem_singleton_self _
  | symlink rel target =>
      rw [show host.get (CopyOp.rel (.symlink rel target) ++ sysrootEtc) = _ from copies]
      exact List.mem_singleton_self _
  | openNew rel =>
      obtain ⟨stat, data, file⟩ := copies
      rw [show host.get (CopyOp.rel (.openNew rel) ++ sysrootEtc) = _ from file]
      simp [CopyOp.rel]
  | fchmod rel perm =>
      obtain ⟨stat, data, file, rfl⟩ := copies
      rw [show host.get (CopyOp.rel (.fchmod rel stat.perm) ++ sysrootEtc) = _ from file]
      simp [CopyOp.rel]
  | write rel data =>
      obtain ⟨stat, file⟩ := copies
      rw [show host.get (CopyOp.rel (.write rel data) ++ sysrootEtc) = _ from file]
      simp [CopyOp.rel]

/-- Each operation is about the path itself or about a directory on the way to it. -/
theorem copies_of_mem_copyWithDir {host : FileSystem String} {path : Path String} {op : CopyOp}
    (member : op ∈ copyWithDir host path) :
    op.Copies host ∧ op.rel ≠ [] ∧ op.rel <:+ path := by
  induction path with
  | nil => cases member
  | cons name parent ih =>
      rcases List.mem_append.mp member with above | here
      · obtain ⟨copies, proper, suffix⟩ := ih above
        exact ⟨copies, proper, suffix.trans (List.suffix_cons name parent)⟩
      · obtain ⟨copies, same⟩ := copies_of_mem_copyEntry here
        rw [same]
        exact ⟨copies, List.cons_ne_nil _ _, List.suffix_rfl⟩

/-- The run copies the path. -/
def Copied (host : FileSystem String) (rel : Path String) : Prop := modified host rel = .ok true

theorem visit_ok {host : FileSystem String} {rel : Path String} {ops : List CopyOp}
    (visited : visit host rel = .ok ops) :
    (Copied host rel ∧ ops = copyWithDir host rel) ∨ (modified host rel = .ok false ∧ ops = []) := by
  obtain ⟨differs, decided, result⟩ := bind_ok_iff.mp visited
  cases differs with
  | true =>
      cases result
      exact Or.inl ⟨decided, rfl⟩
  | false =>
      cases result
      exact Or.inr ⟨decided, rfl⟩

/-- Everything that is copied exists, and the path to copy was found different. -/
theorem copies_of_mem_copyOps {host : FileSystem String} {ops : List CopyOp}
    (planned : copyOps host = .ok ops) {op : CopyOp} (member : op ∈ ops) :
    op.Copies host ∧ op.rel ≠ [] ∧ ∃ rel, Copied host rel ∧ op.rel <:+ rel := by
  unfold copyOps at planned
  split at planned
  · obtain ⟨copies, visited, flat⟩ := bind_ok_iff.mp planned
    cases flat
    obtain ⟨group, inside, here⟩ := List.mem_flatten.mp member
    obtain ⟨rel, _, found⟩ := (mapM_mem visited).1 group inside
    rcases visit_ok found with ⟨copied, rfl⟩ | ⟨_, rfl⟩
    · obtain ⟨copies, proper, suffix⟩ := copies_of_mem_copyWithDir here
      exact ⟨copies, proper, rel, copied, suffix⟩
    · cases here
  · cases planned

section Sound

variable {host fs fs' : FileSystem String} {ops : List CopyOp}

/-- Every operation copies something of an entry of `/etc` and is not about the top. -/
def Sound (host : FileSystem String) (ops : List CopyOp) : Prop :=
  ∀ op ∈ ops, op.Copies host ∧ op.rel ≠ []

theorem Sound.exec_inv {op : CopyOp} (sound : Sound host ops) (member : op ∈ ops)
    (mirrors : Mirrors host fs) (done : op.exec fs = .ok fs') :
    op.Fits fs.get ∧ ∀ q, fs'.get q = if q = op.rel then op.result (fs.get q) else fs.get q := by
  obtain ⟨n, p, named⟩ := List.exists_cons_of_ne_nil (sound op member).2
  rw [named]
  exact CopyOp.exec_inv mirrors (sound op member).1 named done

theorem Sound.exec_mirrors {op : CopyOp} (sound : Sound host ops) (member : op ∈ ops)
    (mirrors : Mirrors host fs) (done : op.exec fs = .ok fs') : Mirrors host fs' := by
  obtain ⟨n, p, named⟩ := List.exists_cons_of_ne_nil (sound op member).2
  exact CopyOp.exec_mirrors mirrors (sound op member).1 named done

theorem copyOps_sound {host : FileSystem String} {ops : List CopyOp}
    (planned : copyOps host = .ok ops) : Sound host ops := by
  intro op member
  obtain ⟨copies, proper, _⟩ := copies_of_mem_copyOps planned member
  exact ⟨copies, proper⟩

/-- A loop over operations keeps the layer a mirror of `/etc`. -/
theorem Sound.copyAll_mirrors (sound : Sound host ops) (mirrors : Mirrors host fs)
    (done : copyAll ops fs = .ok fs') : Mirrors host fs' :=
  foldlM_invariant (I := Mirrors host)
    (fun _ _ _ member holds step => sound.exec_mirrors member holds step) mirrors done

end Sound

theorem mirrors_bare (host : FileSystem String) (perm : Nat) : Mirrors host (.bare perm) := by
  intro p node proper found
  have absent : (FileSystem.bare perm : FileSystem String).get p = none := by
    cases p with
    | nil => exact absurd rfl proper
    | cons n p => rfl
  rw [absent] at found
  cases found

end GnomeBuildMeta.Confext
