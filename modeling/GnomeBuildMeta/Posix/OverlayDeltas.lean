import GnomeBuildMeta.Posix.Overlay

/-!
# Stacked deltas

Several trees are each given as a delta over one base: the entries that are
different, whiteouts for what is gone, and the directories on the way.  Where no
two trees change the same path and the changes together make a tree, an overlay
of the deltas over the base shows that tree, in whatever order they are stacked.
-/

namespace GnomeBuildMeta.Posix

variable {α : Type}

/-- Every entry lies in a directory. -/
def Tree.Closed (tree : Tree α) : Prop :=
  ∀ n p node, tree (n :: p) = some node → (tree p).any Node.isDir = true

theorem Tree.Closed.isDir_of_suffix {tree : Tree α} (closed : Tree.Closed tree) {p q : Path α} {node : Node α}
    (found : tree q = some node) (suffix : p <:+ q) (proper : p ≠ q) : (tree p).any Node.isDir = true := by
  obtain ⟨n, above⟩ := exists_child_suffix suffix proper
  obtain ⟨stem, rfl⟩ := above
  induction stem generalizing node with
  | nil => exact closed n p node found
  | cons m stem ih =>
      obtain ⟨parent, there, _⟩ := (Option.any_eq_true _ _).mp (closed m _ node found)
      refine ih there (List.suffix_append_of_suffix (List.suffix_cons n p)) fun same => ?_
      have length := congrArg List.length same
      simp at length
      omega

namespace Overlay

/-- The tree has something else at the path; two directories count as the same. -/
def Changed (base tree : Tree α) (p : Path α) : Prop :=
  tree p ≠ base p ∧ ¬ ((tree p).any Node.isDir = true ∧ (base p).any Node.isDir = true)

/-- No path is a directory in one tree and something else in the other. -/
def SameKind (base tree : Tree α) : Prop :=
  ∀ p a b, base p = some a → tree p = some b → a.isDir = b.isDir

/-- A layer over the base that is to show a tree, up to what counts as the same entry. -/
structure Delta (same : Option (Node α) → Option (Node α) → Prop) (base tree layer : Tree α) : Prop where
  closed : Tree.Closed layer
  top : ∀ node, layer [] = some node → node.isDir = true
  white : ∀ n p node, layer (n :: p) = some node → node.isWhiteout = true →
    tree (n :: p) = none ∧ (base (n :: p)).isSome = true
  shows : ∀ n p node, layer (n :: p) = some node → node.isWhiteout = false →
    same (some node) (tree (n :: p))
  leaf : ∀ n p node, layer (n :: p) = some node → node.isWhiteout = false → node.isDir = false →
    Changed base tree (n :: p)
  dir : ∀ n p node, layer (n :: p) = some node → node.isDir = true →
    (tree (n :: p)).any Node.isDir = true ∧ ∃ sub, n :: p <:+ sub ∧ Changed base tree sub
  covers : ∀ n p, layer (n :: p) = none → Changed base tree (n :: p) → (tree p).any Node.isDir = false

/-- The tree that has every change of each of some trees. -/
structure Merges (base : Tree α) (trees : List (Tree α)) (merged : Tree α) : Prop where
  closed : Tree.Closed merged
  changed : ∀ tree ∈ trees, ∀ p, Changed base tree p → merged p = tree p
  unchanged : ∀ p, (∀ tree ∈ trees, ¬ Changed base tree p) → merged p = base p
  apart : ∀ tree ∈ trees, ∀ other ∈ trees, ∀ p, Changed base tree p → Changed base other p → tree = other

/-- What counts as the same entry. -/
structure Likeness (same : Option (Node α) → Option (Node α) → Prop) (base : Tree α) : Prop where
  refl : ∀ p, same (base p) (base p)
  none : same none none
  dirs : ∀ perm perm', same (some (.dir perm)) (some (.dir perm'))
  isDir : ∀ one two, same one two → one.any Node.isDir = two.any Node.isDir

/-- Two directories count as the same. -/
theorem Likeness.of_dirs {same : Option (Node α) → Option (Node α) → Prop} {base : Tree α}
    (likeness : Likeness same base) {one two : Option (Node α)} (first : one.any Node.isDir = true)
    (second : two.any Node.isDir = true) : same one two := by
  obtain ⟨node, rfl, isDir⟩ := (Option.any_eq_true _ _).mp first
  obtain ⟨other, rfl, otherDir⟩ := (Option.any_eq_true _ _).mp second
  obtain ⟨perm, rfl⟩ := Node.isDir_iff.mp isDir
  obtain ⟨perm', rfl⟩ := Node.isDir_iff.mp otherDir
  exact likeness.dirs perm perm'

/-! ## Layers with directories on the way -/

theorem top_cons (layer : Tree α) (layers : List (Tree α)) (p : Path α) :
    top (layer :: layers) p = (layer p).or (top layers p) := by
  cases found : layer p with
  | none => rw [top_cons_none found, Option.none_or]
  | some node => rw [top_cons_some found, Option.some_or]

theorem top_append_single (layers : List (Tree α)) (base : Tree α) (p : Path α) :
    top (layers ++ [base]) p = (top layers p).or (base p) := by
  induction layers with
  | nil => rw [List.nil_append, top_cons]; exact Option.or_none.trans (Option.none_or).symm
  | cons layer layers ih => rw [List.cons_append, top_cons, top_cons, ih, Option.or_assoc]

theorem exists_layer_of_top {layers : List (Tree α)} {p : Path α} {node : Node α}
    (shown : top layers p = some node) : ∃ layer ∈ layers, layer p = some node :=
  List.mem_filterMap.mp (List.mem_of_head? shown)

theorem top_eq_none {layers : List (Tree α)} {p : Path α} (nothing : top layers p = none) :
    ∀ layer ∈ layers, layer p = none := by
  have empty : layers.filterMap (fun layer => layer p) = [] := List.head?_eq_none_iff.mp nothing
  exact List.filterMap_eq_nil_iff.mp empty

/-- Where all layers have directories or nothing on the way, all of them take part. -/
theorem stack_of_dirs {layers : List (Tree α)} {p : Path α}
    (dirs : ∀ layer ∈ layers, Tree.Closed layer ∧ ∀ q, q <:+ p → ∀ node, layer q = some node → node.isDir = true) :
    stack layers p = layers.filter fun layer => (layer p).isSome := by
  induction layers with
  | nil => exact stack_nil p
  | cons layer rest ih =>
      obtain ⟨here, later⟩ := List.forall_mem_cons.mp dirs
      rw [stack_cons here.1 here.2, ih later, List.filter_cons]
      cases (layer p).isSome <;> rfl

theorem lookup_of_dirs {layers : List (Tree α)} {n : α} {p : Path α}
    (dirs : ∀ layer ∈ layers, Tree.Closed layer ∧ ∀ q, q <:+ p → ∀ node, layer q = some node → node.isDir = true) :
    lookup layers (n :: p) = (top layers (n :: p)).filter fun node => !node.isWhiteout := by
  have same : top (stack layers p) (n :: p) = top layers (n :: p) := by
    rw [stack_of_dirs dirs]
    induction layers with
    | nil => rfl
    | cons layer rest ih =>
        obtain ⟨here, later⟩ := List.forall_mem_cons.mp dirs
        rw [List.filter_cons, top_cons]
        split
        · rw [top_cons, ih later]
        · rename_i absent
          have nothing : layer (n :: p) = none := by
            cases found : layer (n :: p) with
            | none => rfl
            | some node =>
                obtain ⟨parent, there, _⟩ := (Option.any_eq_true _ _).mp (here.1 n p node found)
                rw [there] at absent
                exact absurd rfl absent
          rw [nothing, Option.none_or, ih later]
  rw [lookup, same]

/-- At the root all layers take part. -/
theorem lookup_root {layers : List (Tree α)}
    (dirs : ∀ layer ∈ layers, Tree.Closed layer ∧ ∀ q, q <:+ [] → ∀ node, layer q = some node → node.isDir = true) :
    lookup layers [] = top layers [] := by
  rw [lookup, stack_of_dirs dirs]
  clear dirs
  induction layers with
  | nil => rfl
  | cons layer rest ih =>
      rw [List.filter_cons, top_cons]
      cases here : layer [] with
      | none => exact ih.trans Option.none_or.symm
      | some node => exact top_cons_some here

/-! ## The merge -/

section Merge

variable {same : Option (Node α) → Option (Node α) → Prop} {base merged : Tree α}
  {deltas : List (Tree α × Tree α)}

/-- Deltas over one base, each with the tree that it is for. -/
structure Deltas (same : Option (Node α) → Option (Node α) → Prop) (base merged : Tree α)
    (deltas : List (Tree α × Tree α)) : Prop where
  likeness : Likeness same base
  closed : Tree.Closed base
  root : (base []).any Node.isDir = true
  clean : ∀ p node, base p = some node → node.isWhiteout = false
  trees : ∀ e ∈ deltas, Tree.Closed e.1 ∧ SameKind base e.1 ∧ (e.1 []).any Node.isDir = true
  delta : ∀ e ∈ deltas, Delta same base e.1 e.2
  merges : Merges base (deltas.map Prod.fst) merged

namespace Deltas

theorem changed_tree (all : Deltas same base merged deltas) {e : Tree α × Tree α} (member : e ∈ deltas)
    {p : Path α} (changed : Changed base e.1 p) : merged p = e.1 p :=
  all.merges.changed e.1 (List.mem_map_of_mem member) p changed

/-- Where nothing has changed the merge has what the base has. -/
theorem unchanged_tree (all : Deltas same base merged deltas) {p : Path α}
    (none' : ∀ e ∈ deltas, ¬ Changed base e.1 p) : merged p = base p := by
  refine all.merges.unchanged p fun tree listed => ?_
  obtain ⟨e, member, rfl⟩ := List.mem_map.mp listed
  exact none' e member

/-- A merged directory is one of the base, unless the base has nothing there. -/
theorem base_dir (all : Deltas same base merged deltas) {p : Path α}
    (dir : (merged p).any Node.isDir = true) {old : Node α} (before : base p = some old) : old.isDir = true := by
  by_cases other : ∃ e ∈ deltas, Changed base e.1 p
  · obtain ⟨e, member, changed⟩ := other
    rw [all.changed_tree member changed] at dir
    obtain ⟨node, found, isDir⟩ := (Option.any_eq_true _ _).mp dir
    rw [(all.trees e member).2.1 p old node before found, isDir]
  · rw [all.unchanged_tree fun e member changed => other ⟨e, member, changed⟩, before] at dir
    exact dir

/-- A merged directory that the base has too is one of every tree. -/
theorem tree_dir (all : Deltas same base merged deltas) {e : Tree α × Tree α} (member : e ∈ deltas)
    {p : Path α} (dir : (merged p).any Node.isDir = true) (there : (base p).isSome = true) :
    (e.1 p).any Node.isDir = true := by
  by_cases changed : Changed base e.1 p
  · rw [← all.changed_tree member changed]
    exact dir
  · by_contra other
    obtain ⟨old, before⟩ := Option.isSome_iff_exists.mp there
    refine changed ⟨fun equal => other ?_, fun both => other both.1⟩
    rw [equal, before]
    exact all.base_dir dir before

/-- On the way to a merged directory no layer has anything but directories. -/
theorem layer_dirs (all : Deltas same base merged deltas) {p : Path α}
    (dir : (merged p).any Node.isDir = true) : ∀ layer ∈ deltas.map Prod.snd ++ [base],
      Tree.Closed layer ∧ ∀ q, q <:+ p → ∀ node, layer q = some node → node.isDir = true := by
  have above : ∀ q, q <:+ p → (merged q).any Node.isDir = true := by
    intro q suffix
    by_cases itself : q = p
    · rw [itself]
      exact dir
    · obtain ⟨node, found, _⟩ := (Option.any_eq_true _ _).mp dir
      exact Tree.Closed.isDir_of_suffix all.merges.closed found suffix itself
  intro layer member
  rcases List.mem_append.mp member with inside | last
  · obtain ⟨e, listed, rfl⟩ := List.mem_map.mp inside
    have delta := all.delta e listed
    refine ⟨delta.closed, fun q suffix node found => ?_⟩
    cases q with
    | nil => exact delta.top node found
    | cons n q =>
        by_contra leaf
        rw [Bool.not_eq_true] at leaf
        have here := above _ suffix
        cases hides : node.isWhiteout with
        | true =>
            obtain ⟨gone, before⟩ := delta.white n q node found hides
            have treeDir := all.tree_dir listed here before
            rw [gone] at treeDir
            cases treeDir
        | false =>
            have like := all.likeness.isDir _ _ (delta.shows n q node found hides)
            rw [← all.changed_tree listed (delta.leaf n q node found hides leaf), here,
              Option.any_some, leaf] at like
            cases like
  · rw [List.mem_singleton.mp last]
    exact ⟨all.closed, fun q suffix node found => all.base_dir (above q suffix) found⟩

/-- A directory of a layer is one of the merge. -/
theorem merged_dir (all : Deltas same base merged deltas) {e : Tree α × Tree α} (member : e ∈ deltas)
    {n : α} {p : Path α} {node : Node α} (found : e.2 (n :: p) = some node) (isDir : node.isDir = true) :
    (merged (n :: p)).any Node.isDir = true := by
  obtain ⟨treeDir, sub, suffix, changedBelow⟩ := (all.delta e member).dir n p node found isDir
  by_cases changed : Changed base e.1 (n :: p)
  · rw [all.changed_tree member changed]
    exact treeDir
  · have baseDir : (base (n :: p)).any Node.isDir = true := by
      by_contra other
      exact changed ⟨fun equal => other (equal ▸ treeDir), fun both => other both.2⟩
    by_contra gone
    -- some tree has removed what this one goes on changing
    obtain ⟨f, inside, removed⟩ : ∃ f ∈ deltas, Changed base f.1 (n :: p) := by
      by_contra nobody
      rw [all.unchanged_tree fun f inside removed => nobody ⟨f, inside, removed⟩] at gone
      exact gone baseDir
    have absent : f.1 (n :: p) = none := by
      cases there : f.1 (n :: p) with
      | none => rfl
      | some new =>
          obtain ⟨old, before, oldDir⟩ := (Option.any_eq_true _ _).mp baseDir
          refine absurd ?_ gone
          rw [all.changed_tree inside removed, there, Option.any_some,
            ← (all.trees f inside).2.1 _ old new before there, oldDir]
    have proper : n :: p ≠ sub := by
      rintro rfl
      exact changed changedBelow
    have noneBelow : f.1 sub = none := by
      cases there : f.1 sub with
      | none => rfl
      | some new =>
          have dirAbove := Tree.Closed.isDir_of_suffix (all.trees f inside).1 there suffix proper
          rw [absent] at dirAbove
          cases dirAbove
    have lost : e.1 sub = none := by
      cases there : e.1 sub with
      | none => rfl
      | some new =>
          rw [← all.changed_tree member changedBelow] at there
          exact absurd (Tree.Closed.isDir_of_suffix all.merges.closed there suffix proper) gone
    have both : Changed base f.1 sub := by
      refine ⟨fun equal => changedBelow.1 ?_, fun dirs => ?_⟩
      · rw [lost, ← noneBelow, equal]
      · rw [noneBelow] at dirs
        cases dirs.1
    have equal := all.merges.apart e.1 (List.mem_map_of_mem member) f.1 (List.mem_map_of_mem inside) sub
      changedBelow both
    rw [equal, absent] at treeDir
    cases treeDir

/-- Nothing is changed where no layer has anything. -/
theorem unchanged_of_absent (all : Deltas same base merged deltas) {n : α} {p : Path α}
    (dir : (merged p).any Node.isDir = true) (absent : ∀ e ∈ deltas, e.2 (n :: p) = none) :
    ∀ e ∈ deltas, ¬ Changed base e.1 (n :: p) := by
  intro e member changed
  have noDir := (all.delta e member).covers n p (absent e member) changed
  cases before : base p with
  | some old =>
      rw [all.tree_dir member dir (Option.isSome_of_eq_some before)] at noDir
      cases noDir
  | none =>
      cases there : e.1 (n :: p) with
      | some node =>
          rw [(all.trees e member).1 n p node there] at noDir
          cases noDir
      | none =>
          refine changed.1 ?_
          rw [there]
          cases old : base (n :: p) with
          | none => rfl
          | some node =>
              have parent := all.closed n p node old
              rw [before] at parent
              cases parent

/-- What a layer shows is what the merge has. -/
theorem same_layer (all : Deltas same base merged deltas) {e : Tree α × Tree α} (member : e ∈ deltas)
    {n : α} {p : Path α} {node : Node α} (found : e.2 (n :: p) = some node) :
    same ((some node).filter fun node => !node.isWhiteout) (merged (n :: p)) := by
  have delta := all.delta e member
  cases hides : node.isWhiteout with
  | true =>
      obtain ⟨gone, before⟩ := delta.white n p node found hides
      have changed : Changed base e.1 (n :: p) := by
        refine ⟨fun equal => ?_, fun both => ?_⟩
        · rw [← equal, gone] at before
          cases before
        · rw [gone] at both
          cases both.1
      rw [Option.filter_some, hides, all.changed_tree member changed, gone]
      exact all.likeness.none
  | false =>
      rw [Option.filter_some, hides]
      cases isDir : node.isDir with
      | true => exact all.likeness.of_dirs isDir (all.merged_dir member found isDir)
      | false =>
          rw [all.changed_tree member (delta.leaf n p node found hides isDir)]
          exact delta.shows n p node found hides

/-- The base is seen where no layer has anything. -/
theorem same_base (all : Deltas same base merged deltas) {n : α} {p : Path α}
    (dir : (merged p).any Node.isDir = true) (absent : ∀ e ∈ deltas, e.2 (n :: p) = none) :
    same ((base (n :: p)).filter fun node => !node.isWhiteout) (merged (n :: p)) := by
  rw [all.unchanged_tree (all.unchanged_of_absent dir absent)]
  cases old : base (n :: p) with
  | none => exact all.likeness.none
  | some node =>
      rw [Option.filter_some, all.clean _ node old, ← old]
      exact all.likeness.refl _

theorem same_root (all : Deltas same base merged deltas) :
    same (lookup (deltas.map Prod.snd ++ [base]) []) (merged []) := by
  have kept : merged [] = base [] :=
    all.unchanged_tree fun e member changed => changed.2 ⟨(all.trees e member).2.2, all.root⟩
  have dirs := all.layer_dirs (p := []) (kept ▸ all.root)
  rw [lookup_root dirs, kept]
  refine all.likeness.of_dirs ?_ all.root
  obtain ⟨old, before, _⟩ := (Option.any_eq_true _ _).mp all.root
  cases found : top (deltas.map Prod.snd ++ [base]) [] with
  | none =>
      have nothing := top_eq_none found base (List.mem_append_right _ (List.mem_singleton_self _))
      rw [before] at nothing
      cases nothing
  | some node =>
      obtain ⟨layer, member, here⟩ := exists_layer_of_top found
      exact (dirs layer member).2 [] List.suffix_rfl node here

/-- In whatever order they are stacked, the layers over the base show the merge. -/
theorem lookup_merged (all : Deltas same base merged deltas) (p : Path α) :
    same (lookup (deltas.map Prod.snd ++ [base]) p) (merged p) := by
  induction p with
  | nil => exact all.same_root
  | cons n p ih =>
      by_cases dir : (merged p).any Node.isDir = true
      · rw [lookup_of_dirs (all.layer_dirs dir), top_append_single]
        cases first : top (deltas.map Prod.snd) (n :: p) with
        | some node =>
            obtain ⟨layer, listed, found⟩ := exists_layer_of_top first
            obtain ⟨e, member, rfl⟩ := List.mem_map.mp listed
            rw [Option.some_or]
            exact all.same_layer member found
        | none =>
            rw [Option.none_or]
            exact all.same_base dir fun e member => top_eq_none first e.2 (List.mem_map_of_mem member)
      · have nothing : merged (n :: p) = none := by
          cases there : merged (n :: p) with
          | none => rfl
          | some node => exact absurd (all.merges.closed n p node there) dir
        have hidden : lookup (deltas.map Prod.snd ++ [base]) (n :: p) = none := by
          cases shown : lookup (deltas.map Prod.snd ++ [base]) (n :: p) with
          | none => rfl
          | some node =>
              rw [← all.likeness.isDir _ _ ih] at dir
              exact absurd (lookup_parent shown) dir
        rw [nothing, hidden]
        exact all.likeness.none

end Deltas

end Merge

end Overlay

end GnomeBuildMeta.Posix
