import GnomeBuildMeta.Layer.MinimalDelta
import GnomeBuildMeta.Posix.OverlayDeltas

/-!
# Several layers over one tree

Each layer is made against the same lower tree.  Where no two upper trees change
the same path, the layers are mounted together, in any order, and show all the
changes at once.
-/

namespace GnomeBuildMeta.Layer.MakeLayer

open GnomeBuildMeta.Posix

variable {α : Type} [DecidableEq α]

omit [DecidableEq α] in
/-- Of two matching entries both are directories or none is. -/
theorem SameNode.isDir_eq {one two : Option (Node α)} (same : SameNode one two) :
    one.any Node.isDir = two.any Node.isDir := by
  cases one with
  | none =>
      cases two with
      | none => rfl
      | some other => cases same
  | some node =>
      cases two with
      | none => cases node <;> cases same
      | some other => cases node <;> cases other <;> first | rfl | cases same

omit [DecidableEq α] in
/-- Everything but a device matches itself. -/
theorem SameNode.self {node : Node α} (kind : (node.isDir || node.isFile || node.isSymlink) = true) :
    SameNode (some node) (some node) := by
  cases node with
  | dir perm => exact True.intro
  | file stat data => exact ⟨rfl, rfl⟩
  | symlink target => exact rfl
  | chardev major minor => cases kind

theorem FileSystem.closed_below (fs : FileSystem α) (root : Path α) : Tree.Closed (fs.below root) :=
  fun _ _ _ found => fs.parent_isDirAt found

section OneLayer

variable {job : Job α} {out : FileSystem α} {n : α} {p : Path α}

/-- The script's changes are those of the trees, as far as upper still has the directory. -/
theorem changed_cons_iff (sameKinds : SameKinds job.toArgs) :
    Changed job.toArgs (n :: p) ↔
      Overlay.Changed job.lowerTree job.upperTree (n :: p) ∧
        (job.upperTree p).any Node.isDir = true := by
  cases upper : job.upperTree (n :: p) with
  | none =>
      rw [changed_of_absent upper]
      constructor
      · rintro ⟨here, want⟩
        obtain ⟨node, lower⟩ := Option.isSome_iff_exists.mp here
        have dir := sameKinds.whiteoutsInDirs n p node lower want
        refine ⟨⟨fun equal => ?_, fun both => ?_⟩, dir⟩
        · rw [← equal, upper] at here
          cases here
        · rw [upper] at both
          cases both.1
      · rintro ⟨⟨other, _⟩, dir⟩
        refine ⟨?_, whiteoutWanted_of_absent upper dir⟩
        rw [upper] at other
        exact Option.isSome_iff_ne_none.mpr (Ne.symm other)
  | some node =>
      have dir : (job.upperTree p).any Node.isDir = true := job.host.parent_isDirAt upper
      rw [changed_of_upper upper, and_iff_left dir, Overlay.Changed, upper]
      cases kind : node.isDir with
      | false =>
          rw [sameKinds.differs_leaf_iff upper kind, Option.any_some, kind]
          refine ⟨fun other => ⟨other.symm, fun both => ?_⟩, fun changed => changed.1.symm⟩
          cases both.1
      | true =>
          obtain ⟨perm, rfl⟩ := Node.isDir_iff.mp kind
          rw [sameKinds.differs_dir_iff upper]
          cases lower : job.lowerTree (n :: p) with
          | none => simp
          | some old =>
              obtain ⟨perm', rfl⟩ := Node.isDir_iff.mp (sameKinds _ _ _ lower upper)
              simp [Node.isDir]

/-- What a completed run has written is a layer over lower that is for upper. -/
theorem Content.delta (content : Content job (Kept job) out) (sameKinds : SameKinds job.toArgs) :
    Overlay.Delta SameNode job.lowerTree job.upperTree (job.outputTree out) where
  closed := FileSystem.closed_below out _
  top := by
    intro node found
    have present := content.present [] (content.of_some found)
    obtain ⟨perm, dir⟩ :=
      job.node_dir (show job.host.isDirAt ([] ++ job.upper) = true from job.upperDir)
    rw [dir] at present
    rw [Option.some.inj (found.symm.trans present)]
    rfl
  white := by
    intro n p node found isWhiteout
    have white : (job.outputTree out (n :: p)).any Node.isWhiteout = true := by
      rw [found]
      exact isWhiteout
    obtain ⟨before, gone, _⟩ := (white_iff sameKinds content).mp white
    exact ⟨gone, before⟩
  shows := by
    intro n p node found plain
    obtain ⟨_, rfl⟩ := content.output_cons.mp found
    cases upper : job.upperTree (n :: p) with
    | none =>
        rw [copied, upper] at plain
        cases plain
    | some node =>
        have kind := job.kind_of_get (Or.inr (List.suffix_append _ job.upper)) upper
        rw [copied, upper]
        cases node with
        | dir perm => exact True.intro
        | file stat data => exact ⟨rfl, rfl⟩
        | symlink target => exact rfl
        | chardev major minor => cases kind
  leaf := by
    intro n p node found plain leaf
    obtain ⟨kept, rfl⟩ := content.output_cons.mp found
    rw [copied_isDir] at leaf
    have changed := (kept_leaf_iff sameKinds.whiteoutsInDirs leaf).mp kept
    exact ((changed_cons_iff sameKinds).mp changed).1
  dir := by
    intro n p node found isDir
    obtain ⟨kept, rfl⟩ := content.output_cons.mp found
    obtain ⟨sub, suffix, changed⟩ := kept_cons.mp kept
    refine ⟨?_, sub, suffix, ?_⟩
    · rwa [copied_isDir] at isDir
    · cases sub with
      | nil => cases List.suffix_nil.mp suffix
      | cons m q => exact ((changed_cons_iff sameKinds).mp changed).1
  covers := by
    intro n p absent changed
    by_contra dir
    rw [Bool.not_eq_false] at dir
    have kept := kept_cons.mpr ⟨_, List.suffix_rfl, (changed_cons_iff sameKinds).mpr ⟨changed, dir⟩⟩
    rw [content.output_cons.mpr ⟨kept, rfl⟩] at absent
    cases absent

end OneLayer

/-! ## The stack -/

/-- A job that has completed, with its output. -/
structure Completed (base : Posix.Tree α) (done : Job α × FileSystem α) : Prop where
  lower : done.1.lowerTree = base
  sameKinds : SameKinds done.1.toArgs
  run : main done.1.toArgs done.1.start = .ok done.2

namespace Completed

variable {base : Posix.Tree α} {done : Job α × FileSystem α}

theorem delta (completed : Completed base done) :
    Overlay.Delta SameNode base done.1.upperTree (done.1.outputTree done.2) := by
  obtain ⟨out, run, content⟩ := (main_content done.1 completed.sameKinds.whiteoutsInDirs).1
  have same : out = done.2 := Except.ok.inj (run.symm.trans completed.run)
  rw [← completed.lower, ← same]
  exact content.delta completed.sameKinds

theorem kind (completed : Completed base done) {p : Path α} {node : Node α} (found : base p = some node) :
    (node.isDir || node.isFile || node.isSymlink) = true := by
  rw [← completed.lower] at found
  exact done.1.kind_of_get (Or.inl (List.suffix_append p done.1.lower)) found

theorem likeness (completed : Completed base done) : Overlay.Likeness SameNode base where
  refl := by
    intro p
    cases found : base p with
    | none => exact True.intro
    | some node => exact SameNode.self (completed.kind found)
  none := True.intro
  dirs := fun _ _ => True.intro
  isDir := fun _ _ => SameNode.isDir_eq

end Completed

theorem deltas {base merged : Posix.Tree α} {runs : List (Job α × FileSystem α)} (some' : runs ≠ [])
    (completed : ∀ done ∈ runs, Completed base done)
    (merges : Overlay.Merges base (runs.map fun done => done.1.upperTree) merged) :
    Overlay.Deltas SameNode base merged
      (runs.map fun done => (done.1.upperTree, done.1.outputTree done.2)) := by
  obtain ⟨first, inside⟩ := List.exists_mem_of_ne_nil runs some'
  have here := completed first inside
  exact {
    likeness := here.likeness
    closed := by
      rw [← here.lower]
      exact FileSystem.closed_below first.1.host first.1.lower
    root := by
      rw [← here.lower]
      exact first.1.lowerDir
    clean := by
      intro p node found
      have kind := here.kind found
      cases node with
      | dir _ | file _ _ | symlink _ => rfl
      | chardev _ _ => cases kind
    trees := by
      intro e listed
      obtain ⟨done, member, rfl⟩ := List.mem_map.mp listed
      refine ⟨FileSystem.closed_below done.1.host done.1.upper, ?_, done.1.upperDir⟩
      rw [← (completed done member).lower]
      exact (completed done member).sameKinds
    delta := by
      intro e listed
      obtain ⟨done, member, rfl⟩ := List.mem_map.mp listed
      exact (completed done member).delta
    merges := by
      rw [List.map_map]
      exact merges }

/--
Layers made against one lower tree, for upper trees that change different paths,
show all the changes together, in whatever order they are stacked.  Modes and
owners of directories do not count, nor do the owners of files (`SameNode`).
-/
theorem stacked_layers_merge {base merged : Posix.Tree α} {runs : List (Job α × FileSystem α)}
    (some' : runs ≠ []) (completed : ∀ done ∈ runs, Completed base done)
    (merges : Overlay.Merges base (runs.map fun done => done.1.upperTree) merged) (rel : Path α) :
    SameNode
      (Overlay.lookup ((runs.map fun done => done.1.outputTree done.2) ++ [base]) rel)
      (merged rel) := by
  have shown := (deltas some' completed merges).lookup_merged rel
  rw [List.map_map] at shown
  exact shown

/-! ## Two extensions -/

/-- Of lower `l`, the tree `u` has lost a file and `v` has another one; `m` is both. -/
def twoHost : FileSystem String where
  entries :=
    [([], .dir 0o755),
      (["l"], .dir 0o755),
      (["g", "l"], .file ⟨0o644, 1, 0, 0⟩ [1]),
      (["u"], .dir 0o755),
      (["v"], .dir 0o755),
      (["g", "v"], .file ⟨0o644, 1, 0, 0⟩ [1]),
      (["h", "v"], .file ⟨0o644, 1, 0, 0⟩ [2]),
      (["m"], .dir 0o755),
      (["h", "m"], .file ⟨0o644, 1, 0, 0⟩ [2])]
  nodup := by simp
  root := rfl
  parents := by simp [List.lookup_cons, List.lookup_nil, Node.isDir]

def twoJob (upper : String) (dir : twoHost.isDirAt [upper] = true) : Job String where
  host := twoHost
  lower := ["l"]
  upper := [upper]
  output := "o"
  uid := 0
  gid := 0
  start := FileSystem.bare 0o755
  lowerDir := rfl
  upperDir := dir
  kinds := by simp [twoHost, Node.isDir, Node.isFile, Node.isSymlink]
  fresh := fresh_bare

/-- Below its four trees the host has only two names. -/
theorem twoHost_below (rel : Path String) :
    rel = [] ∨ rel = ["g"] ∨ rel = ["h"] ∨ ∀ top, twoHost.below [top] rel = none := by
  by_cases known : rel = [] ∨ rel = ["g"] ∨ rel = ["h"]
  · tauto
  · refine Or.inr (Or.inr (Or.inr fun top => ?_))
    cases found : twoHost.below [top] rel with
    | none => rfl
    | some node =>
        have member := (twoHost.mem_entries_iff _ _).mpr found
        rcases rel with _ | ⟨n, _ | ⟨m, rest⟩⟩ <;> simp [twoHost] at member known
        grind

theorem two_merges : Overlay.Merges (twoHost.below ["l"])
    [twoHost.below ["u"], twoHost.below ["v"]] (twoHost.below ["m"]) where
  closed := FileSystem.closed_below twoHost ["m"]
  changed := by
    intro tree listed p changed
    rcases twoHost_below p with rfl | rfl | rfl | nothing
    · rcases List.mem_pair.mp listed with rfl | rfl <;> rfl
    · rcases List.mem_pair.mp listed with rfl | rfl
      · rfl
      · exact absurd rfl changed.1
    · rcases List.mem_pair.mp listed with rfl | rfl
      · exact absurd rfl changed.1
      · rfl
    · rcases List.mem_pair.mp listed with rfl | rfl
      · exact (nothing "m").trans (nothing "u").symm
      · exact (nothing "m").trans (nothing "v").symm
  unchanged := by
    intro p same
    rcases twoHost_below p with rfl | rfl | rfl | nothing
    · rfl
    · exact absurd ⟨fun equal => (by cases equal), fun both => Bool.noConfusion both.1⟩
        (same (twoHost.below ["u"]) (by simp))
    · exact absurd ⟨fun equal => (by cases equal), fun both => Bool.noConfusion both.1⟩
        (same (twoHost.below ["v"]) (by simp))
    · exact (nothing "m").trans (nothing "l").symm
  apart := by
    intro tree listed other listed' p changed changed'
    rcases twoHost_below p with rfl | rfl | rfl | nothing
    · rcases List.mem_pair.mp listed with rfl | rfl <;> exact absurd rfl changed.1
    · rcases List.mem_pair.mp listed with rfl | rfl
      · rcases List.mem_pair.mp listed' with rfl | rfl
        · rfl
        · exact absurd rfl changed'.1
      · exact absurd rfl changed.1
    · rcases List.mem_pair.mp listed with rfl | rfl
      · exact absurd rfl changed.1
      · rcases List.mem_pair.mp listed' with rfl | rfl
        · exact absurd rfl changed'.1
        · rfl
    · refine absurd ?_ changed.1
      rcases List.mem_pair.mp listed with rfl | rfl
      · exact (nothing "u").trans (nothing "l").symm
      · exact (nothing "v").trans (nothing "l").symm

theorem two_sameKinds {upper : String} (dir : twoHost.isDirAt [upper] = true)
    (which : upper = "u" ∨ upper = "v") : SameKinds (twoJob upper dir).toArgs := by
  intro rel a b lower found
  rcases twoHost_below rel with rfl | rfl | rfl | nothing
  · rcases which with rfl | rfl <;> (cases lower; cases found; rfl)
  · rcases which with rfl | rfl
    · cases found
    · cases lower
      cases found
      rfl
  · cases lower
  · cases (nothing "l").symm.trans lower

theorem two_layers_merge : ∃ shrunk grown : FileSystem String,
    main (twoJob "u" rfl).toArgs (twoJob "u" rfl).start = .ok shrunk ∧
    main (twoJob "v" rfl).toArgs (twoJob "v" rfl).start = .ok grown ∧
    ∀ rel, SameNode
      (Overlay.lookup [(twoJob "u" rfl).outputTree shrunk, (twoJob "v" rfl).outputTree grown,
        twoHost.below ["l"]] rel)
      (twoHost.below ["m"] rel) := by
  have first : ∃ out, main (twoJob "u" rfl).toArgs (twoJob "u" rfl).start = .ok out := ⟨_, rfl⟩
  have second : ∃ out, main (twoJob "v" rfl).toArgs (twoJob "v" rfl).start = .ok out := ⟨_, rfl⟩
  obtain ⟨shrunk, first⟩ := first
  obtain ⟨grown, second⟩ := second
  refine ⟨shrunk, grown, first, second, ?_⟩
  have completed : ∀ done ∈ [(twoJob "u" rfl, shrunk), (twoJob "v" rfl, grown)],
      Completed (twoHost.below ["l"]) done := by
    intro done listed
    rcases List.mem_pair.mp listed with rfl | rfl
    · exact ⟨rfl, two_sameKinds rfl (Or.inl rfl), first⟩
    · exact ⟨rfl, two_sameKinds rfl (Or.inr rfl), second⟩
  exact stacked_layers_merge (List.cons_ne_nil _ _) completed two_merges

end GnomeBuildMeta.Layer.MakeLayer
