import GnomeBuildMeta.Confext.MigratedLayer
import GnomeBuildMeta.Confext.Restart
import Mathlib.Data.List.Perm.Basic

/-!
# The order of the directories

A directory may list its entries in any order.  Every entry that is copied makes
the directories above it again, so the layer comes out the same in every order.
-/

namespace GnomeBuildMeta.Confext

open GnomeBuildMeta.Control
open GnomeBuildMeta.Posix

/-! ## Runs in another order -/

/-- The order in which each directory of `/etc` lists its names. -/
structure SiblingOrder where
  order : Path String → List String → List String
  perm : ∀ dir names, (order dir names).Perm names

def entriesFrom (siblings : SiblingOrder) (host : FileSystem String) :
    Nat → Path String → List (Path String)
  | 0, _ => []
  | fuel + 1, rel =>
      (siblings.order rel (host.listdir (rel ++ sysrootEtc))).flatMap fun n =>
        (n :: rel) ::
          if host.isDirAt (n :: (rel ++ sysrootEtc)) then entriesFrom siblings host fuel (n :: rel)
          else []

/-- What the recursive iterator visits if the directories list their names in this order. -/
def entriesIn (siblings : SiblingOrder) (host : FileSystem String) : List (Path String) :=
  entriesFrom siblings host (host.depth + 1) []

/-- The program, with the iterator in the given order. -/
def mainIn (siblings : SiblingOrder) (host : FileSystem String) : Program Errno MutableLayers Unit := do
  perform .createDirectories
  if host.isDirAt sysrootEtc then
    (entriesIn siblings host).forM fun rel => do
      let ops ← Program.outside (visit host rel)
      ops.forM fun op => perform (.copy op)
    perform .rename
  else Program.fail .enoent

/-- The order in which the directories list their names as they are. -/
def SiblingOrder.listed : SiblingOrder := ⟨fun _ names => names, fun _ _ => .refl _⟩

theorem entriesFrom_listed (host : FileSystem String) (fuel : Nat) (rel : Path String) :
    entriesFrom .listed host fuel rel = host.recursiveEntriesFrom sysrootEtc fuel rel := by
  induction fuel generalizing rel with
  | zero => rfl
  | succ fuel ih =>
      simp only [entriesFrom, FileSystem.recursiveEntriesFrom, ih]
      rfl

theorem mainIn_listed (host : FileSystem String) : mainIn .listed host = main host := by
  rw [mainIn, main, entriesIn, entriesFrom_listed, FileSystem.recursiveEntries]

theorem entriesFrom_perm (siblings : SiblingOrder) (host : FileSystem String) (fuel : Nat)
    (rel : Path String) :
    (entriesFrom siblings host fuel rel).Perm (host.recursiveEntriesFrom sysrootEtc fuel rel) := by
  induction fuel generalizing rel with
  | zero => exact .refl _
  | succ fuel ih =>
      rw [entriesFrom, FileSystem.recursiveEntriesFrom]
      refine ((siblings.perm _ _).flatMap_right _).trans (.flatMap_left _ fun n _ => .cons _ ?_)
      split
      · exact ih (n :: rel)
      · exact .refl _

/-! ## The layer of the chosen entries -/

/-- An entry as it is copied; a copy has the owner and the time of its making. -/
def copyOf : Node String → Node String
  | .dir perm => .dir (mkdirMode perm)
  | .file stat data => .file ⟨stat.perm, 0, 0, 0⟩ data
  | .symlink target => .symlink target
  | .chardev major minor => .chardev major minor

/-- The entry is chosen, or one below it is. -/
def Leads (chosen : Path String → Prop) (p : Path String) : Prop := ∃ rel, chosen rel ∧ p <:+ rel

open Classical in
/-- The chosen entries with all that leads to them. -/
noncomputable def layerOf (host : FileSystem String) (chosen : Path String → Prop) : Posix.Tree String :=
  fun p =>
    if p = [] then some (.dir 0o755)
    else if Leads chosen p then (etc host p).map copyOf else none

variable {host fs : FileSystem String} {chosen : Path String → Prop} {n : String} {p : Path String}

/-- What the program can copy. -/
def Copyable : Node String → Prop
  | .chardev _ _ => False
  | _ => True

/-- Only entries of `/etc` are chosen, and none that could not be copied. -/
def Present (host : FileSystem String) (chosen : Path String → Prop) : Prop :=
  ∀ rel, chosen rel → ∃ node, etc host rel = some node ∧ Copyable node

/-- Another entry is chosen. -/
def also (chosen : Path String → Prop) (rel : Path String) : Path String → Prop :=
  fun q => chosen q ∨ q = rel

theorem layerOf_root : layerOf host chosen [] = some (.dir 0o755) := if_pos rfl

theorem layerOf_of_leads (proper : p ≠ []) (leads : Leads chosen p) :
    layerOf host chosen p = (etc host p).map copyOf := by
  rw [layerOf, if_neg proper, if_pos leads]

theorem layerOf_of_not_leads (proper : p ≠ []) (apart : ¬ Leads chosen p) :
    layerOf host chosen p = none := by
  rw [layerOf, if_neg proper, if_neg apart]

theorem layerOf_congr {chosen' : Path String → Prop} (same : ∀ p, p ≠ [] → (Leads chosen p ↔ Leads chosen' p)) :
    layerOf host chosen = layerOf host chosen' := by
  funext p
  by_cases root : p = []
  · subst root
    rw [layerOf_root, layerOf_root]
  · by_cases leads : Leads chosen p
    · rw [layerOf_of_leads root leads, layerOf_of_leads root ((same p root).mp leads)]
    · rw [layerOf_of_not_leads root leads,
        layerOf_of_not_leads root fun other => leads ((same p root).mpr other)]

theorem leads_also {rel : Path String} : Leads (also chosen rel) p ↔ Leads chosen p ∨ p <:+ rel := by
  constructor
  · rintro ⟨q, inside | rfl, suffix⟩
    · exact Or.inl ⟨q, inside, suffix⟩
    · exact Or.inr suffix
  · rintro (⟨q, inside, suffix⟩ | suffix)
    · exact ⟨q, Or.inl inside, suffix⟩
    · exact ⟨rel, Or.inr rfl, suffix⟩

theorem Leads.up {q : Path String} (leads : Leads chosen p) (suffix : q <:+ p) : Leads chosen q := by
  obtain ⟨rel, inside, below⟩ := leads
  exact ⟨rel, inside, suffix.trans below⟩

/-- With its directory there, one more entry changes one place. -/
theorem layerOf_also (parent : p = [] ∨ Leads chosen p) (q : Path String) :
    layerOf host (also chosen (n :: p)) q =
      if q = n :: p then (etc host (n :: p)).map copyOf else layerOf host chosen q := by
  split
  case isTrue same =>
    subst same
    exact layerOf_of_leads (List.cons_ne_nil _ _) (leads_also.mpr (Or.inr List.suffix_rfl))
  case isFalse other =>
    by_cases root : q = []
    · subst root
      rw [layerOf_root, layerOf_root]
    · have same : Leads (also chosen (n :: p)) q ↔ Leads chosen q := by
        rw [leads_also, or_iff_left_iff_imp]
        intro suffix
        have above : q <:+ p := (List.suffix_cons_iff.mp suffix).resolve_left other
        rcases parent with rfl | leads
        · exact absurd (List.suffix_nil.mp above) root
        · exact leads.up above
      by_cases leads : Leads chosen q
      · rw [layerOf_of_leads root leads, layerOf_of_leads root (same.mpr leads)]
      · rw [layerOf_of_not_leads root leads, layerOf_of_not_leads root fun h => leads (same.mp h)]

theorem standsFor_copyOf {node : Node String} (copyable : Copyable node) :
    StandsFor (copyOf node) (some node) := by
  cases node with
  | dir perm => rfl
  | file stat data => rfl
  | symlink target => rfl
  | chardev major minor => exact copyable.elim

theorem Present.copyable (present : Present host chosen) (leads : Leads chosen p) :
    ∃ node, etc host p = some node ∧ Copyable node := by
  obtain ⟨rel, inside, suffix⟩ := leads
  obtain ⟨node, found, copyable⟩ := present rel inside
  by_cases same : p = rel
  · exact ⟨node, same ▸ found, copyable⟩
  · obtain ⟨perm, dir⟩ := etc_dir_of_suffix found suffix same
    exact ⟨.dir perm, dir, trivial⟩

theorem mirrors_of_layerOf (present : Present host chosen) (same : fs.get = layerOf host chosen) :
    Mirrors host fs := by
  intro q node proper found
  rw [same] at found
  by_cases leads : Leads chosen q
  · obtain ⟨source, there, copyable⟩ := present.copyable leads
    rw [layerOf_of_leads proper leads, there] at found
    cases found
    rw [there]
    exact standsFor_copyOf copyable
  · rw [layerOf_of_not_leads proper leads] at found
    cases found

/-! ## One entry -/

theorem exec_of_fits (op : CopyOp) (mirrors : Mirrors host fs) (copies : op.Copies host)
    (named : op.rel = n :: p) (fits : op.Fits fs.get) :
    ∃ fs', op.exec fs = .ok fs' ∧ Mirrors host fs' ∧
      ∀ q, fs'.get q = if q = n :: p then op.result (fs.get q) else fs.get q := by
  obtain ⟨fs', done⟩ := CopyOp.exec_ok mirrors copies named fits
  exact ⟨fs', done, CopyOp.exec_mirrors mirrors copies named done,
    (CopyOp.exec_inv mirrors copies named done).2⟩

theorem copyAll_cons {op : CopyOp} {ops : List CopyOp} {fs' : FileSystem String}
    (done : op.exec fs = .ok fs') : copyAll (op :: ops) fs = copyAll ops fs' := by
  rw [copyAll, List.foldlM_cons, done]
  rfl

/-- A file is made, gets its permissions and is filled. -/
theorem copyAll_file {stat : Stat} {data : List UInt8} (mirrors : Mirrors host fs)
    (found : etc host (n :: p) = some (.file stat data)) (parent : fs.isDirAt p = true)
    (free : fs.get (n :: p) = none) :
    ∃ fs', copyAll [.openNew (n :: p), .fchmod (n :: p) stat.perm, .write (n :: p) data] fs = .ok fs' ∧
      ∀ q, fs'.get q = if q = n :: p then some (.file ⟨stat.perm, 0, 0, 0⟩ data) else fs.get q := by
  obtain ⟨opened, first, mirrors', effect⟩ := exec_of_fits (.openNew (n :: p)) mirrors
    ⟨stat, data, found⟩ rfl ⟨parent, free⟩
  have there : opened.get (n :: p) = some (.file ⟨0o200, 0, 0, 0⟩ []) := by
    rw [effect, if_pos rfl]
    rfl
  obtain ⟨changed, second, mirrors'', effect'⟩ := exec_of_fits (.fchmod (n :: p) stat.perm) mirrors'
    ⟨stat, data, found, rfl⟩ rfl (by rw [CopyOp.Fits, there]; rfl)
  have there' : changed.get (n :: p) = some (.file ⟨stat.perm, 0, 0, 0⟩ []) := by
    rw [effect', if_pos rfl, there]
    rfl
  obtain ⟨filled, third, _, effect''⟩ := exec_of_fits (.write (n :: p) data) mirrors''
    ⟨stat, found⟩ rfl (by rw [CopyOp.Fits, there']; rfl)
  refine ⟨filled, ?_, fun q => ?_⟩
  · rw [copyAll_cons first, copyAll_cons second, copyAll_cons third]
    rfl
  · rw [effect'']
    split
    case isTrue same =>
      rw [same, there']
      rfl
    case isFalse other => rw [effect', if_neg other, effect, if_neg other]

theorem copyAll_singleton (op : CopyOp) (mirrors : Mirrors host fs) (copies : op.Copies host)
    (named : op.rel = n :: p) (fits : op.Fits fs.get) :
    ∃ fs', copyAll [op] fs = .ok fs' ∧
      ∀ q, fs'.get q = if q = n :: p then op.result (fs.get q) else fs.get q := by
  obtain ⟨fs', done, _, effect⟩ := exec_of_fits op mirrors copies named fits
  exact ⟨fs', by rw [copyAll_cons done]; rfl, effect⟩

/-- An entry is added to a layer that has its directory, and not the entry unless it is a directory. -/
theorem copyAll_copyEntry {node : Node String} (present : Present host chosen)
    (same : fs.get = layerOf host chosen) (found : etc host (n :: p) = some node)
    (copyable : Copyable node) (parent : p = [] ∨ Leads chosen p)
    (free : node.isDir = true ∨ ¬ Leads chosen (n :: p)) :
    ∃ fs', copyAll (copyEntry host (n :: p)) fs = .ok fs' ∧
      fs'.get = layerOf host (also chosen (n :: p)) := by
  have mirrors := mirrors_of_layerOf present same
  have above : fs.isDirAt p = true := by
    rcases parent with rfl | leads
    · exact fs.isDirAt_root
    · obtain ⟨perm, dir⟩ := etc_dir_of_suffix found (List.suffix_cons n p) (by simp)
      cases p with
      | nil => exact fs.isDirAt_root
      | cons m p =>
          refine (fs.isDirAt_iff _).mpr ⟨mkdirMode perm, ?_⟩
          rw [same, layerOf_of_leads (List.cons_ne_nil _ _) leads, dir]
          rfl
  have absent : ¬ Leads chosen (n :: p) → fs.get (n :: p) = none := fun apart => by
    rw [same, layerOf_of_not_leads (List.cons_ne_nil _ _) apart]
  have source : host.get (n :: p ++ sysrootEtc) = some node := found
  cases node with
  | dir perm =>
      have entry : copyEntry host (n :: p) = [.mkdir (n :: p) (mkdirMode perm)] := by
        rw [copyEntry, source]
      have here : fs.get (n :: p) = none ∨ fs.get (n :: p) = some (.dir (mkdirMode perm)) := by
        by_cases leads : Leads chosen (n :: p)
        · right
          rw [same, layerOf_of_leads (List.cons_ne_nil _ _) leads, found]
          rfl
        · exact Or.inl (absent leads)
      obtain ⟨fs', done, effect⟩ := copyAll_singleton (.mkdir (n :: p) (mkdirMode perm)) mirrors
        ⟨perm, found, rfl⟩ rfl ⟨above, here.imp_right fun there => by rw [there]; rfl⟩
      refine ⟨fs', entry ▸ done, funext fun q => ?_⟩
      rw [effect, layerOf_also parent, found, same]
      split
      case isTrue at' =>
        rw [at', ← same]
        rcases here with none' | there
        · rw [none']
          rfl
        · rw [there]
          rfl
      case isFalse => rfl
  | file stat data =>
      have entry : copyEntry host (n :: p) =
          [.openNew (n :: p), .fchmod (n :: p) stat.perm, .write (n :: p) data] := by
        rw [copyEntry, source]
      obtain ⟨fs', done, effect⟩ := copyAll_file mirrors found above
        (absent (free.resolve_left Bool.false_ne_true))
      refine ⟨fs', entry ▸ done, funext fun q => ?_⟩
      rw [effect, layerOf_also parent, found, same]
      rfl
  | symlink target =>
      have entry : copyEntry host (n :: p) = [.symlink (n :: p) target] := by
        rw [copyEntry, source]
      obtain ⟨fs', done, effect⟩ := copyAll_singleton (.symlink (n :: p) target) mirrors found rfl
        ⟨above, absent (free.resolve_left Bool.false_ne_true)⟩
      refine ⟨fs', entry ▸ done, funext fun q => ?_⟩
      rw [effect, layerOf_also parent, found, same]
      rfl
  | chardev major minor => exact copyable.elim

/-- An entry is added together with the directories that lead to it. -/
theorem copyAll_copyWithDir {node : Node String} (present : Present host chosen)
    (same : fs.get = layerOf host chosen) (found : etc host p = some node) (copyable : Copyable node)
    (free : node.isDir = true ∨ ¬ Leads chosen p) :
    ∃ fs', copyAll (copyWithDir host p) fs = .ok fs' ∧ fs'.get = layerOf host (also chosen p) := by
  induction p generalizing node with
  | nil =>
      refine ⟨fs, rfl, same.trans (layerOf_congr fun q proper => ?_)⟩
      rw [leads_also, List.suffix_nil]
      exact (or_iff_left proper).symm
  | cons n p ih =>
      obtain ⟨perm, dir⟩ := etc_dir_of_suffix found (List.suffix_cons n p) (by simp)
      obtain ⟨above, first, made⟩ := ih dir trivial (Or.inl rfl)
      have present' : Present host (also chosen p) := by
        rintro rel (inside | rfl)
        · exact present rel inside
        · exact ⟨_, dir, trivial⟩
      have apart : node.isDir = true ∨ ¬ Leads (also chosen p) (n :: p) := by
        refine free.imp_right fun absent leads => ?_
        rcases leads_also.mp leads with before | suffix
        · exact absent before
        · have length := suffix.length_le
          rw [List.length_cons] at length
          omega
      obtain ⟨fs', second, result⟩ := copyAll_copyEntry present' made found copyable
        (Or.inr (leads_also.mpr (Or.inr List.suffix_rfl))) apart
      refine ⟨fs', copyAll_append.mpr ⟨above, first, second⟩, result.trans ?_⟩
      refine layerOf_congr fun q _ => ?_
      simp only [leads_also, or_assoc]
      refine or_congr_right ⟨?_, Or.inr⟩
      rintro (suffix | suffix)
      · exact suffix.trans (List.suffix_cons n p)
      · exact suffix

/-! ## The whole iteration -/

/-- The entries of the list that are copied. -/
def copiedOf (host : FileSystem String) (entries : List (Path String)) (rel : Path String) : Prop :=
  rel ∈ entries ∧ Copied host rel

theorem Copied.copyable (copied : Copied host p) :
    ∃ node, etc host p = some node ∧ Copyable node ∧ node.isDir = false := by
  rcases copied.leaf with ⟨stat, data, found⟩ | ⟨target, found⟩
  · exact ⟨_, found, trivial, rfl⟩
  · exact ⟨_, found, trivial, rfl⟩

theorem present_copiedOf (entries : List (Path String)) : Present host (copiedOf host entries) := by
  rintro rel ⟨_, copied⟩
  obtain ⟨node, found, copyable, _⟩ := copied.copyable
  exact ⟨node, found, copyable⟩

theorem copyAll_visits {done later : List (Path String)} (distinct : (done ++ later).Nodup)
    (decided : ∀ rel ∈ later, ∃ differs, modified host rel = .ok differs)
    (same : fs.get = layerOf host (copiedOf host done)) :
    ∃ copies fs', later.mapM (visit host) = .ok copies ∧ copyAll copies.flatten fs = .ok fs' ∧
      fs'.get = layerOf host (copiedOf host (done ++ later)) := by
  induction later generalizing done fs with
  | nil => exact ⟨[], fs, rfl, rfl, by rw [List.append_nil, same]⟩
  | cons rel later ih =>
      obtain ⟨differs, decision⟩ := decided rel List.mem_cons_self
      have split : done ++ rel :: later = done ++ [rel] ++ later := by simp
      rw [split] at distinct ⊢
      have rest := fun other inside => decided other (List.mem_cons_of_mem rel inside)
      cases differs with
      | false =>
          have visited : visit host rel = .ok [] := by
            rw [visit, decision]
            rfl
          have none' : layerOf host (copiedOf host done) = layerOf host (copiedOf host (done ++ [rel])) := by
            refine layerOf_congr fun q _ => exists_congr fun other => and_congr_left fun _ => ?_
            refine and_congr_left fun copied => ?_
            rw [List.mem_append, List.mem_singleton]
            refine ⟨Or.inl, fun member => member.resolve_right ?_⟩
            rintro rfl
            rw [Copied, decision] at copied
            cases copied
          obtain ⟨copies, fs', visits, run, result⟩ := ih distinct rest (same.trans none')
          refine ⟨[] :: copies, fs', ?_, run, result⟩
          rw [List.mapM_cons, visited, visits]
          rfl
      | true =>
          have visited : visit host rel = .ok (copyWithDir host rel) := by
            rw [visit, decision]
            rfl
          have copied : Copied host rel := decision
          obtain ⟨node, found, copyable, noDir⟩ := copied.copyable
          have fresh : ¬ Leads (copiedOf host done) rel := by
            rintro ⟨other, ⟨inside, other'⟩, suffix⟩
            obtain ⟨node', found', _, _⟩ := other'.copyable
            have equal := eq_of_leaf found' suffix found noDir
            refine (List.nodup_append.mp (List.nodup_append.mp distinct).1).2.2 other inside rel ?_ equal.symm
            exact List.mem_singleton_self rel
          obtain ⟨middle, first, made⟩ := copyAll_copyWithDir (present_copiedOf done) same found copyable
            (Or.inr fresh)
          have added : layerOf host (also (copiedOf host done) rel) =
              layerOf host (copiedOf host (done ++ [rel])) := by
            refine layerOf_congr fun q _ => exists_congr fun other => and_congr_left fun _ => ?_
            simp only [also, copiedOf, List.mem_append, List.mem_singleton, or_and_right]
            refine or_congr_right ⟨?_, And.left⟩
            rintro rfl
            exact ⟨rfl, copied⟩
          obtain ⟨copies, fs', visits, run, result⟩ := ih distinct rest (made.trans added)
          refine ⟨copyWithDir host rel :: copies, fs', ?_, ?_, result⟩
          · rw [List.mapM_cons, visited, visits]
            rfl
          · rw [List.flatten_cons]
            exact copyAll_append.mpr ⟨middle, first, run⟩

theorem layerOf_nothing (host : FileSystem String) :
    (FileSystem.bare 0o755 : FileSystem String).get = layerOf host (copiedOf host []) := by
  funext p
  cases p with
  | nil => exact layerOf_root.symm
  | cons n p =>
      refine (layerOf_of_not_leads (List.cons_ne_nil _ _) ?_).symm
      rintro ⟨rel, ⟨member, _⟩, _⟩
      cases member

/-- The entries judged different, as they were, and the directories that lead to them. -/
structure Migrated (host : FileSystem String) (tree : Posix.Tree String) : Prop where
  copied : ∀ p node, tree p = some node ∧ node.isDir = false ↔
    Copied host p ∧ (etc host p).map copyOf = some node
  directories : ∀ p, (tree p).any Node.isDir = true ↔
    p = [] ∨ ∃ rel, Copied host rel ∧ p <:+ rel ∧ p ≠ rel

theorem isDir_copyOf (node : Node String) : (copyOf node).isDir = node.isDir := by
  cases node <;> rfl

/-- Nothing is left where nothing was copied, and no directory is copied for its own sake. -/
theorem migrated_layerOf (top : host.isDirAt sysrootEtc = true) : Migrated host (layerOf host (Copied host)) := by
  have noTop : ¬ Copied host [] := fun copied => by
    obtain ⟨node, found, _, noDir⟩ := copied.copyable
    obtain ⟨perm, dir⟩ := (host.isDirAt_iff _).mp top
    rw [show etc host [] = some (.dir perm) from dir] at found
    cases found
    cases noDir
  constructor
  · intro p node
    by_cases root : p = []
    · subst root
      rw [layerOf_root]
      refine iff_of_false ?_ fun copied => noTop copied.1
      rintro ⟨same, noDir⟩
      cases same
      cases noDir
    · by_cases leads : Leads (Copied host) p
      · rw [layerOf_of_leads root leads]
        constructor
        · rintro ⟨same, noDir⟩
          obtain ⟨source, found, rfl⟩ := Option.map_eq_some_iff.mp same
          rw [isDir_copyOf] at noDir
          obtain ⟨rel, copied, suffix⟩ := leads
          obtain ⟨other, there, _, _⟩ := copied.copyable
          exact ⟨eq_of_leaf there suffix found noDir ▸ copied, same⟩
        · rintro ⟨copied, same⟩
          obtain ⟨source, found, _, noDir⟩ := copied.copyable
          refine ⟨same, ?_⟩
          rw [found] at same
          cases same
          rw [isDir_copyOf, noDir]
      · rw [layerOf_of_not_leads root leads]
        refine iff_of_false ?_ fun copied => leads ⟨p, copied.1, List.suffix_rfl⟩
        rintro ⟨impossible, _⟩
        cases impossible
  · intro p
    by_cases root : p = []
    · subst root
      rw [layerOf_root]
      exact iff_of_true rfl (Or.inl rfl)
    · by_cases leads : Leads (Copied host) p
      · obtain ⟨rel, copied, suffix⟩ := leads
        obtain ⟨node, found, _, noDir⟩ := copied.copyable
        rw [layerOf_of_leads root ⟨rel, copied, suffix⟩]
        constructor
        · intro isDir
          refine Or.inr ⟨rel, copied, suffix, ?_⟩
          rintro rfl
          rw [found, Option.map_some, Option.any_some, isDir_copyOf, noDir] at isDir
          cases isDir
        · rintro (same | ⟨other, copied', suffix', proper⟩)
          · exact absurd same root
          · obtain ⟨node', found', _, _⟩ := copied'.copyable
            obtain ⟨perm, dir⟩ := etc_dir_of_suffix found' suffix' proper
            rw [dir]
            rfl
      · rw [layerOf_of_not_leads root leads]
        refine iff_of_false Bool.false_ne_true ?_
        rintro (same | ⟨rel, copied, suffix, _⟩)
        · exact root same
        · exact leads ⟨rel, copied, suffix⟩

/-- The final renaming finds no mutable `/etc`, or an empty one. -/
def Replaceable (m : MutableLayers) : Prop := m.etc.all (fun old => (old.listdir []).isEmpty) = true

theorem mainIn_ok {siblings : SiblingOrder} {copies : List (List CopyOp)} {layer : FileSystem String}
    {m : MutableLayers} (top : host.isDirAt sysrootEtc = true)
    (visits : (entriesIn siblings host).mapM (visit host) = .ok copies)
    (run : copyAll copies.flatten (.bare 0o755) = .ok layer) (new : m.creating = none)
    (replaceable : Replaceable m) : mainIn siblings host m = (.ok (), ⟨none, some layer⟩) := by
  obtain ⟨creating, old⟩ := m
  cases new
  unfold mainIn
  simp only [top, ↓reduceIte, Program.bind_ok_iff]
  refine ⟨(), ⟨some (.bare 0o755), old⟩, rfl, (), ⟨some layer, old⟩, ?_, ?_⟩
  · rw [Program.forM_ok_iff fun rel _ _ => visit_program_ok_iff, foldlM_visit]
    exact ⟨copies, visits, execAll_copy.mpr ⟨layer, run, rfl⟩⟩
  · exact Program.change_ok_iff.mpr (if_pos replaceable)

/-- A run in any order makes the layer of the entries that are copied. -/
theorem mainIn_makes (siblings : SiblingOrder) {m : MutableLayers} (top : host.isDirAt sysrootEtc = true)
    (decided : ∀ rel ∈ host.recursiveEntries sysrootEtc, ∃ differs, modified host rel = .ok differs)
    (new : m.creating = none) (replaceable : Replaceable m) :
    ∃ layer, mainIn siblings host m = (.ok (), ⟨none, some layer⟩) ∧ layer.get = layerOf host (Copied host) := by
  have perm : (entriesIn siblings host).Perm (host.recursiveEntries sysrootEtc) :=
    entriesFrom_perm siblings host _ []
  have distinct : ([] ++ entriesIn siblings host).Nodup :=
    perm.nodup_iff.mpr host.recursiveEntriesFrom_nodup
  obtain ⟨copies, layer, visits, run, made⟩ := copyAll_visits distinct
    (fun rel inside => decided rel (perm.mem_iff.mp inside)) (layerOf_nothing host)
  refine ⟨layer, mainIn_ok top visits run new replaceable, made.trans (congrArg _ ?_)⟩
  funext rel
  refine propext ⟨And.right, fun copied => ⟨perm.mem_iff.mpr ?_, copied⟩⟩
  obtain ⟨node, found, _, noDir⟩ := copied.copyable
  refine host.mem_recursiveEntries.mpr ⟨?_, by rw [show host.get (rel ++ sysrootEtc) = _ from found]; rfl⟩
  rintro rfl
  obtain ⟨mode, dir⟩ := (host.isDirAt_iff _).mp top
  rw [show etc host [] = _ from dir] at found
  cases found
  cases noDir

/-- So does the program, which takes the names as they are listed. -/
theorem main_makes {m : MutableLayers} (top : host.isDirAt sysrootEtc = true)
    (decided : ∀ rel ∈ host.recursiveEntries sysrootEtc, ∃ differs, modified host rel = .ok differs)
    (new : m.creating = none) (replaceable : Replaceable m) :
    ∃ layer, main host m = (.ok (), ⟨none, some layer⟩) ∧ layer.get = layerOf host (Copied host) := by
  rw [← mainIn_listed]
  exact mainIn_makes .listed top decided new replaceable

/-- In every order of the directories the migration succeeds, and makes one and the same layer. -/
theorem mainIn_any_order (top : host.isDirAt sysrootEtc = true)
    (decided : ∀ rel ∈ host.recursiveEntries sysrootEtc, ∃ differs, modified host rel = .ok differs) :
    ∃ tree, Migrated host tree ∧
      ∀ siblings m, m.creating = none → Replaceable m →
        ∃ layer, mainIn siblings host m = (.ok (), ⟨none, some layer⟩) ∧ layer.get = tree :=
  ⟨layerOf host (Copied host), migrated_layerOf top,
    fun siblings _ new replaceable => mainIn_makes siblings top decided new replaceable⟩

/-- The machine id and the key are copied in every order. -/
theorem keyHost_any_order : ∃ tree, Migrated keyHost tree ∧
    ∀ siblings m, m.creating = none → Replaceable m →
      ∃ layer, mainIn siblings keyHost m = (.ok (), ⟨none, some layer⟩) ∧ layer.get = tree :=
  mainIn_any_order rfl (by decide +kernel)

/-! ## A loop in the confext -/

/-- `/etc/d` is a directory with a file, and the base confext has a link `d` to itself. -/
def loopHost : FileSystem String where
  entries :=
    [([], .dir 0o755),
      (["sysroot"], .dir 0o755),
      (["etc", "sysroot"], .dir 0o755),
      (["d", "etc", "sysroot"], .dir 0o755),
      (["f", "d", "etc", "sysroot"], .file ⟨0o644, 1, 0, 0⟩ [1]),
      (["usr", "sysroot"], .dir 0o755),
      (["lib", "usr", "sysroot"], .dir 0o755),
      (["confexts", "lib", "usr", "sysroot"], .dir 0o755),
      (["gnomeos-base-config", "confexts", "lib", "usr", "sysroot"], .dir 0o755),
      (baseConfextEtc, .dir 0o755),
      ("d" :: baseConfextEtc, .symlink [.name "d"])]
  nodup := by simp [baseConfextEtc]
  root := rfl
  parents := by simp [List.lookup_cons, List.lookup_nil, Node.isDir, baseConfextEtc]

/-- The comparison of the file fails, and the program ends with it. -/
theorem loopHost_fails : (mainIn .listed loopHost noLayers).1 = .error .eloop ∧
    ¬ ∃ layer, mainIn .listed loopHost noLayers = (.ok (), ⟨none, some layer⟩) := by
  have fails : (mainIn .listed loopHost noLayers).1 = .error .eloop := rfl
  refine ⟨fails, ?_⟩
  rintro ⟨layer, done⟩
  rw [done] at fails
  cases fails

end GnomeBuildMeta.Confext
