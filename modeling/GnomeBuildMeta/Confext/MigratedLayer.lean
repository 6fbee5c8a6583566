import GnomeBuildMeta.Confext.MigrateConfextRun

/-!
# The layer that a migration makes

What is copied is decided by comparing an entry with the one that the confext
has at its path, links followed.  The new layer has each copied entry as it was,
and besides those only the directories that lead to them.
-/

namespace GnomeBuildMeta.Confext

open GnomeBuildMeta.Control
open GnomeBuildMeta.Posix

/-! ## Entries -/

/-- The same bytes and permissions, or the same target. -/
def SameEntry : Node String → Node String → Prop
  | .file stat data, .file stat' data' => stat.perm = stat'.perm ∧ data = data'
  | .symlink target, .symlink target' => target = target'
  | _, _ => False

/-- A regular file of the old `/etc`, or a link there that does not lead to its factory file. -/
def Protected (host : FileSystem String) (rel : Path String) : Node String → Prop
  | .file stat data => etc host rel = some (.file stat data)
  | .symlink target =>
      etc host rel = some (.symlink target) ∧ samePath target (factory rel) = false
  | _ => False

/-- A protected entry that is taken for the one of the confext and not copied. -/
def Left (host : FileSystem String) (rel : Path String) : Prop :=
  (∃ node, Protected host rel node) ∧ modified host rel = .ok false

/-- The target of a link is spelled as in the confext. -/
def SameSpelling (host : FileSystem String) (rel : Path String) : Prop :=
  ∀ target target', etc host rel = some (.symlink target) →
    host.symlinkStatus (confext rel) = .ok (some (.symlink target')) → target = target'

/-! ## What is copied -/

variable {host layer : FileSystem String} {ops : List CopyOp} {rel : Path String}

theorem not_modified_dir {perm : Nat} (dir : etc host rel = some (.dir perm)) :
    modified host rel = .ok false := by
  unfold modified
  rw [show host.get (rel ++ sysrootEtc) = some (.dir perm) from dir]

/-- Only files and links are copied for their own sake. -/
theorem Copied.leaf (copied : Copied host rel) :
    (∃ stat data, etc host rel = some (.file stat data)) ∨
      ∃ target, etc host rel = some (.symlink target) := by
  unfold Copied modified at copied
  split at copied
  · rename_i target found
    exact Or.inr ⟨target, found⟩
  · rename_i stat data found
    exact Or.inl ⟨stat, data, found⟩
  · cases copied

/-- What lies above an entry of `/etc` is a directory. -/
theorem etc_dir_of_suffix {p : Path String} {node : Node String} (found : etc host p = some node)
    (suffix : rel <:+ p) (proper : rel ≠ p) : ∃ perm, etc host rel = some (.dir perm) :=
  (host.isDirAt_iff (rel ++ sysrootEtc)).mp (host.isDirAt_above found suffix proper)

/-- Nothing in `/etc` lies below a file or a link. -/
theorem eq_of_leaf {p : Path String} {node other : Node String} (found : etc host p = some node)
    (suffix : rel <:+ p) (leaf : etc host rel = some other) (noDir : other.isDir = false) :
    rel = p := by
  by_contra proper
  obtain ⟨perm, dir⟩ := etc_dir_of_suffix found suffix proper
  rw [dir] at leaf
  cases leaf
  cases noDir

theorem Copied.exists (copied : Copied host rel) :
    ∃ node, etc host rel = some node ∧ node.isDir = false := by
  rcases copied.leaf with ⟨stat, data, found⟩ | ⟨target, found⟩
  · exact ⟨_, found, rfl⟩
  · exact ⟨_, found, rfl⟩

/-- The operations of a copied entry are among those of the run. -/
theorem mem_copyOps (planned : copyOps host = .ok ops) (copied : Copied host rel) (op : CopyOp)
    (member : op ∈ copyEntry host rel) : op ∈ ops := by
  unfold copyOps at planned
  split at planned
  · rename_i top
    obtain ⟨copies, visited, flat⟩ := bind_ok_iff.mp planned
    cases flat
    obtain ⟨node, found, noDir⟩ := copied.exists
    cases rel with
    | nil =>
        obtain ⟨perm, dir⟩ := (host.isDirAt_iff _).mp top
        rw [show etc host [] = some (.dir perm) from dir] at found
        cases found
        cases noDir
    | cons name parent =>
        have entry : name :: parent ∈ host.recursiveEntries sysrootEtc :=
          host.mem_recursiveEntries.mpr ⟨List.cons_ne_nil _ _, by
            rw [show host.get (name :: parent ++ sysrootEtc) = some node from found]
            rfl⟩
        obtain ⟨group, inside, grouped⟩ := (mapM_mem visited).2 _ entry
        rcases visit_ok grouped with ⟨_, rfl⟩ | ⟨same, _⟩
        · exact List.mem_flatten.mpr ⟨_, inside, List.mem_append_right _ member⟩
        · rw [copied] at same
          cases same
  · cases planned
/-! ## The comparison -/

/-- What the comparison takes for the same entry. -/
def alike : Node String → Node String → Bool
  | .file stat data, .file stat' data' => stat.perm == stat'.perm && data == data'
  | .symlink target, .symlink target' => samePath target target'
  | _, _ => false

theorem Protected.found {node : Node String} (protected' : Protected host rel node) :
    etc host rel = some node ∧ node.isDir = false := by
  cases node with
  | file stat data => exact ⟨protected', rfl⟩
  | symlink target => exact ⟨protected'.1, rfl⟩
  | dir _ | chardev _ _ => exact protected'.elim

theorem Protected.modified {node : Node String} (protected' : Protected host rel node) :
    modified host rel =
      (host.symlinkStatus (confext rel)).map fun status => !status.any (alike node) := by
  cases node with
  | file stat data =>
      have found : host.get (rel ++ sysrootEtc) = some (.file stat data) := protected'
      simp only [Confext.modified, found]
      cases host.symlinkStatus (confext rel) with
      | error e => rfl
      | ok status =>
          rcases status with _ | node
          · rfl
          · cases node with
            | file stat' data' =>
                change Except.ok (stat.perm != stat'.perm || data.length != data'.length ||
                  data != data') = Except.ok (!alike (.file stat data) (.file stat' data'))
                refine congrArg Except.ok (Bool.eq_iff_iff.mpr ?_)
                -- the lengths are compared only to save reading the files
                by_cases same : data = data'
                · simp [alike, same]
                · simp [alike, same]
            | dir _ | symlink _ | chardev _ _ => rfl
  | symlink target =>
      have found : host.get (rel ++ sysrootEtc) = some (.symlink target) := protected'.1
      simp only [Confext.modified, found, protected'.2, Bool.false_eq_true, ↓reduceIte]
      cases host.symlinkStatus (confext rel) with
      | error e => rfl
      | ok status =>
          rcases status with _ | node
          · rfl
          · cases node <;> rfl
  | dir _ | chardev _ _ => exact protected'.elim

theorem Copied.protected (copied : Copied host rel) : ∃ node, Protected host rel node := by
  rcases copied.leaf with ⟨stat, data, found⟩ | ⟨target, found⟩
  · exact ⟨.file stat data, found⟩
  · refine ⟨.symlink target, found, Bool.eq_false_iff.mpr fun same => ?_⟩
    have differs : modified host rel = .ok true := copied
    have found' : host.get (rel ++ sysrootEtc) = some (.symlink target) := found
    simp only [modified, found', same, ↓reduceIte] at differs
    cases differs

theorem SameEntry.symm {node node' : Node String} (same : SameEntry node node') :
    SameEntry node' node := by
  cases node <;> cases node' <;> first | exact same.elim | skip
  · exact ⟨same.1.symm, same.2.symm⟩
  · exact Eq.symm same

/-- Entries that are the same compare in the same way. -/
theorem SameEntry.alike_eq {node node' : Node String} (same : SameEntry node node')
    (other : Node String) : alike node other = alike node' other := by
  cases node <;> cases node' <;> first | exact same.elim | skip
  · obtain ⟨perm, rfl⟩ := same
    cases other <;> simp [alike, perm]
  · cases same
    rfl

/-- An entry that is left is, but for its spelling, what the comparison has found. -/
theorem Left.status (left : Left host rel) {node : Node String}
    (protected' : Protected host rel node) :
    ∃ other, host.symlinkStatus (confext rel) = .ok (some other) ∧ alike node other = true ∧
      (SameEntry node other ↔ SameSpelling host rel) := by
  have same := left.2
  rw [protected'.modified] at same
  cases known : host.symlinkStatus (confext rel) with
  | error e =>
      rw [known] at same
      cases same
  | ok status =>
      rw [known] at same
      rcases status with _ | other
      · cases same
      · have close : alike node other = true := by simpa [Except.map] using same
        refine ⟨other, rfl, close, ?_⟩
        cases node with
        | file stat data =>
            cases other with
            | file stat' data' =>
                simp only [alike, Bool.and_eq_true, beq_iff_eq] at close
                refine iff_of_true close fun target target' link _ => ?_
                rw [show etc host rel = some (.file stat data) from protected'] at link
                cases link
            | dir _ | symlink _ | chardev _ _ => cases close
        | symlink target =>
            cases other with
            | symlink target' =>
                refine ⟨fun spelled first second link link' => ?_,
                  fun spelling => spelling target target' protected'.1 known⟩
                cases link.symm.trans protected'.1
                cases link'.symm.trans known
                exact spelled
            | dir _ | file _ _ | chardev _ _ => cases close
        | dir _ | chardev _ _ => exact protected'.elim

/-- An entry that is copied differs from what the comparison has found. -/
theorem Copied.status (copied : Copied host rel) {node other : Node String}
    (protected' : Protected host rel node)
    (status : host.symlinkStatus (confext rel) = .ok (some other)) : alike node other = false := by
  have differs : Confext.modified host rel = .ok true := copied
  rw [protected'.modified, status] at differs
  simpa [Except.map] using differs
/-! ## The new layer -/

/-- Everything in the layer is copied or leads to something that is. -/
theorem copyAll_covered (planned : copyOps host = .ok ops)
    (done : copyAll ops (.bare 0o755) = .ok layer) {p : Path String} {node : Node String}
    (found : layer.get p = some node) (proper : p ≠ []) :
    ∃ other, Copied host other ∧ p <:+ other := by
  have sound := copyOps_sound planned
  have kept : Mirrors host layer ∧ ∀ p node, layer.get p = some node → p ≠ [] →
      ∃ other, Copied host other ∧ p <:+ other := by
    refine foldlM_invariant (I := fun s => Mirrors host s ∧ ∀ p node, s.get p = some node →
      p ≠ [] → ∃ other, Copied host other ∧ p <:+ other) ?_ ⟨mirrors_bare host 0o755, ?_⟩ done
    · rintro s op s' member ⟨mirrors, covered⟩ step
      refine ⟨sound.exec_mirrors member mirrors step, fun q other there proper => ?_⟩
      rw [(sound.exec_inv member mirrors step).2] at there
      split at there
      · rename_i same
        obtain ⟨_, _, rel, copied, suffix⟩ := copies_of_mem_copyOps planned member
        exact ⟨rel, copied, same ▸ suffix⟩
      · exact covered q other there proper
    · intro q other there proper
      cases q with
      | nil => exact absurd rfl proper
      | cons n q => cases there
  exact kept.2 p node found proper

/-- What one operation establishes in its place is there in the end, if the others keep it. -/
theorem copyAll_establishes (planned : copyOps host = .ok ops)
    (done : copyAll ops (.bare 0o755) = .ok layer) (op : CopyOp) (member : op ∈ ops)
    {Q : Option (Node String) → Prop} (hit : ∀ tree, op.Fits tree → Q (op.result (tree op.rel)))
    (kept : ∀ (other : CopyOp) (tree : Posix.Tree String), other ∈ copyEntry host op.rel →
      other.rel = op.rel → other.Fits tree → Q (tree op.rel) → Q (other.result (tree op.rel))) :
    Q (layer.get op.rel) := by
  have sound := copyOps_sound planned
  refine foldlM_progress (I := Mirrors host) (Q := fun s => Q (s.get op.rel))
    (fun s x s' inside holds step => sound.exec_mirrors inside holds step) ?_ member ?_
    (mirrors_bare host 0o755) done
  · intro s x s' inside holds step here
    obtain ⟨fits, effect⟩ := sound.exec_inv inside holds step
    rw [effect]
    split
    · rename_i same
      exact kept x s.get (same ▸ CopyOp.mem_copyEntry (sound x inside).1) same.symm fits here
    · exact here
  · intro s s' holds step
    obtain ⟨fits, effect⟩ := sound.exec_inv member holds step
    rw [effect, if_pos rfl]
    exact hit s.get fits

/-- An entry that is copied is in the layer as it was. -/
theorem copyAll_faithful (planned : copyOps host = .ok ops)
    (done : copyAll ops (.bare 0o755) = .ok layer) (copied : Copied host rel) {node : Node String}
    (found : etc host rel = some node) :
    ∃ copy, layer.get rel = some copy ∧ SameEntry node copy := by
  have there := mem_copyOps planned copied
  rcases copied.leaf with ⟨stat, data, file⟩ | ⟨target, link⟩
  · cases found.symm.trans file
    have entry : copyEntry host rel =
        [.openNew rel, .fchmod rel stat.perm, .write rel data] := by
      unfold copyEntry
      rw [show host.get (rel ++ sysrootEtc) = some (.file stat data) from file]
    rw [entry] at there
    have perm := copyAll_establishes planned done (.fchmod rel stat.perm) (there _ (by simp))
      (Q := fun here => ∃ stat' data', here = some (.file stat' data') ∧ stat'.perm = stat.perm)
      (fun tree fits => ?hitPerm) (fun other tree member same fits => ?keptPerm)
    have bytes := copyAll_establishes planned done (.write rel data) (there _ (by simp))
      (Q := fun here => ∃ stat', here = some (.file stat' data))
      (fun tree fits => ?hitBytes) (fun other tree member same fits => ?keptBytes)
    · obtain ⟨stat', data', here, samePerm⟩ := perm
      obtain ⟨stat'', here'⟩ := bytes
      cases here.symm.trans here'
      exact ⟨_, here, samePerm.symm, rfl⟩
    case hitPerm =>
      obtain ⟨old, here, isFile⟩ := (Option.any_eq_true _ _).mp fits
      cases old with
      | file stat' data' =>
          rw [show tree (CopyOp.fchmod rel stat.perm).rel = _ from here]
          exact ⟨_, _, rfl, rfl⟩
      | dir _ | symlink _ | chardev _ _ => cases isFile
    case hitBytes =>
      obtain ⟨old, here, isFile⟩ := (Option.any_eq_true _ _).mp fits
      cases old with
      | file stat' data' =>
          rw [show tree (CopyOp.write rel data).rel = _ from here]
          exact ⟨_, rfl⟩
      | dir _ | symlink _ | chardev _ _ => cases isFile
    case keptPerm =>
      rintro ⟨stat', data', here, samePerm⟩
      rw [show copyEntry host (CopyOp.fchmod rel stat.perm).rel = _ from entry] at member
      simp only [List.mem_cons, List.not_mem_nil, or_false] at member
      rw [here]
      rcases member with rfl | rfl | rfl
      · cases here.symm.trans fits.2
      · exact ⟨_, _, rfl, rfl⟩
      · exact ⟨_, _, rfl, samePerm⟩
    case keptBytes =>
      rintro ⟨stat', here⟩
      rw [show copyEntry host (CopyOp.write rel data).rel = _ from entry] at member
      simp only [List.mem_cons, List.not_mem_nil, or_false] at member
      rw [here]
      rcases member with rfl | rfl | rfl
      · cases here.symm.trans fits.2
      · exact ⟨_, rfl⟩
      · exact ⟨_, rfl⟩
  · cases found.symm.trans link
    have entry : copyEntry host rel = [.symlink rel target] := by
      unfold copyEntry
      rw [show host.get (rel ++ sysrootEtc) = some (.symlink target) from link]
    rw [entry] at there
    refine ⟨.symlink target, ?_, (rfl : target = target)⟩
    refine copyAll_establishes planned done (.symlink rel target) (there _ (by simp))
      (Q := fun here => here = some (.symlink target)) (fun tree fits => rfl) ?_
    intro other tree member same fits here
    rw [show copyEntry host (CopyOp.symlink rel target).rel = _ from entry] at member
    rw [List.mem_singleton.mp member]
    rfl

/-- A layer that a run has made from nothing. -/
structure Made (host layer : FileSystem String) : Prop where
  mirrors : Mirrors host layer
  covered : ∀ p node, layer.get p = some node → p ≠ [] → ∃ other, Copied host other ∧ p <:+ other
  faithful : ∀ rel node, Copied host rel → etc host rel = some node →
    ∃ copy, layer.get rel = some copy ∧ SameEntry node copy
  /-- Nothing kept the run from telling what to copy. -/
  decided : ∀ rel node, etc host rel = some node → ∃ differs, modified host rel = .ok differs

theorem made_of_main {m' : MutableLayers} (ran : main host ⟨none, none⟩ = (.ok (), m')) :
    ∃ layer, m' = ⟨none, some layer⟩ ∧ host.isDirAt sysrootEtc = true ∧ Made host layer := by
  obtain ⟨ops, layer, planned, done, rfl⟩ := main_ok_of_new.mp ran
  have planned' := planned
  unfold copyOps at planned'
  split at planned'
  · rename_i top
    refine ⟨layer, rfl, top, (copyOps_sound planned).copyAll_mirrors (mirrors_bare host _) done,
      fun p node found proper => copyAll_covered planned done found proper,
      fun rel node copied found => copyAll_faithful planned done copied found, ?_⟩
    intro rel node found
    cases rel with
    | nil =>
        obtain ⟨perm, dir⟩ := (host.isDirAt_iff _).mp top
        exact ⟨false, not_modified_dir dir⟩
    | cons name parent =>
        obtain ⟨copies, visited, _⟩ := bind_ok_iff.mp planned'
        have entry : name :: parent ∈ host.recursiveEntries sysrootEtc :=
          host.mem_recursiveEntries.mpr ⟨List.cons_ne_nil _ _, by
            rw [show host.get (name :: parent ++ sysrootEtc) = some node from found]
            rfl⟩
        obtain ⟨group, _, grouped⟩ := (mapM_mem visited).2 _ entry
        rcases visit_ok grouped with ⟨copied, _⟩ | ⟨same, _⟩
        · exact ⟨true, copied⟩
        · exact ⟨false, same⟩
  · cases planned'

end GnomeBuildMeta.Confext
