import GnomeBuildMeta.Posix.FileSystem
import Mathlib.Data.List.TakeWhile

/-!
# Overlay mounts

An overlay stacks trees, topmost first.  In each directory the topmost entry of
a name decides: a 0:0 character device hides the name, a directory is merged
with the directories of that name right below it, anything else hides what is
below it.
-/

namespace GnomeBuildMeta.Posix

variable {α : Type}

def Node.isWhiteout : Node α → Bool
  | .chardev 0 0 => true
  | _ => false

namespace Overlay

/-- Of the layers that have an entry at `p`, the directories before the first other entry. -/
def merge (layers : List (Tree α)) (p : Path α) : List (Tree α) :=
  (layers.filter fun layer => (layer p).isSome).takeWhile fun layer => (layer p).any Node.isDir

/-- The layers whose directories are merged at `p`, topmost first. -/
def stack (layers : List (Tree α)) : Path α → List (Tree α)
  | [] => merge layers []
  | n :: p => merge (stack layers p) (n :: p)

/-- The topmost entry at `p`. -/
def top (layers : List (Tree α)) (p : Path α) : Option (Node α) :=
  (layers.filterMap fun layer => layer p).head?

/-- The tree that the overlay shows. -/
def lookup (layers : List (Tree α)) : Path α → Option (Node α)
  | [] => top (stack layers []) []
  | n :: p => (top (stack layers p) (n :: p)).filter fun node => !node.isWhiteout

theorem mem_merge {layers : List (Tree α)} {p : Path α} {layer : Tree α}
    (member : layer ∈ merge layers p) : layer ∈ layers ∧ (layer p).any Node.isDir = true := by
  refine ⟨?_, List.mem_takeWhile_imp (p := fun layer : Tree α => (layer p).any Node.isDir) member⟩
  exact List.mem_of_mem_filter ((List.takeWhile_prefix _).subset member)

/-- A layer that is merged at `p` has a directory there. -/
theorem mem_stack {layers : List (Tree α)} {p : Path α} {layer : Tree α}
    (member : layer ∈ stack layers p) : layer ∈ layers ∧ (layer p).any Node.isDir = true := by
  induction p with
  | nil => exact mem_merge member
  | cons n p ih =>
      have here := mem_merge member
      exact ⟨(ih here.1).1, here.2⟩

@[simp] theorem merge_nil (p : Path α) : merge ([] : List (Tree α)) p = [] := rfl

theorem merge_cons_none {layer : Tree α} {layers : List (Tree α)} {p : Path α}
    (absent : layer p = none) : merge (layer :: layers) p = merge layers p := by
  simp [merge, absent]

theorem merge_cons_dir {layer : Tree α} {layers : List (Tree α)} {p : Path α} {perm : Nat}
    (found : layer p = some (.dir perm)) :
    merge (layer :: layers) p = layer :: merge layers p := by
  simp [merge, found, Node.isDir]

theorem merge_cons_other {layer : Tree α} {layers : List (Tree α)} {p : Path α} {node : Node α}
    (found : layer p = some node) (other : node.isDir = false) :
    merge (layer :: layers) p = [] := by
  simp [merge, found, other]

theorem top_cons_none {layer : Tree α} {layers : List (Tree α)} {p : Path α}
    (absent : layer p = none) : top (layer :: layers) p = top layers p := by
  simp [top, absent]

theorem top_cons_some {layer : Tree α} {layers : List (Tree α)} {p : Path α} {node : Node α}
    (found : layer p = some node) : top (layer :: layers) p = some node := by
  simp [top, found]

/-- Nothing is shown below a location where no directory is merged. -/
theorem lookup_eq_none_of_stack {layers : List (Tree α)} {n : α} {p : Path α}
    (closed : ∀ layer ∈ stack layers p, layer (n :: p) = none) :
    lookup layers (n :: p) = none := by
  have empty : (stack layers p).filterMap (fun layer => layer (n :: p)) = [] :=
    List.filterMap_eq_nil_iff.mpr closed
  simp [lookup, top, empty]

/-- Whatever is shown is in one of the layers that are merged there. -/
theorem exists_layer_of_lookup {layers : List (Tree α)} {n : α} {p : Path α} {node : Node α}
    (shown : lookup layers (n :: p) = some node) :
    ∃ layer ∈ stack layers p, layer (n :: p) = some node := by
  obtain ⟨first, _⟩ := Option.filter_eq_some_iff.mp shown
  exact List.mem_filterMap.mp (List.mem_of_head? first)

/-- A location where directories are merged is shown as a directory. -/
theorem lookup_isDir_of_mem_stack {layers : List (Tree α)} {n : α} {p : Path α} {layer : Tree α}
    (member : layer ∈ stack layers (n :: p)) :
    (lookup layers (n :: p)).any Node.isDir = true := by
  change layer ∈ merge (stack layers p) (n :: p) at member
  change ((top (stack layers p) (n :: p)).filter _).any Node.isDir = true
  generalize stack layers p = above at member
  induction above with
  | nil => cases member
  | cons first rest ih =>
      cases found : first (n :: p) with
      | none =>
          rw [merge_cons_none found] at member
          rw [top_cons_none found]
          exact ih member
      | some node =>
          rw [top_cons_some found]
          cases node with
          | dir perm => rfl
          | file _ _ | symlink _ | chardev _ _ =>
              rw [merge_cons_other found rfl] at member
              cases member

/-- Fewer and fewer layers are merged on the way down. -/
theorem mem_stack_of_suffix {layers : List (Tree α)} {p q : Path α} {layer : Tree α}
    (suffix : p <:+ q) (member : layer ∈ stack layers q) : layer ∈ stack layers p := by
  induction q with
  | nil =>
      rw [List.suffix_nil.mp suffix]
      exact member
  | cons n q ih =>
      rcases List.suffix_cons_iff.mp suffix with rfl | inner
      · exact member
      · exact ih inner (mem_merge member).1

/-- What an overlay shows lies in directories that it shows. -/
theorem lookup_parent {layers : List (Tree α)} {n : α} {p : Path α} {node : Node α}
    (shown : lookup layers (n :: p) = some node) : (lookup layers p).any Node.isDir = true := by
  have member : ∃ layer, layer ∈ stack layers p := by
    cases above : stack layers p with
    | nil => simp [lookup, top, above] at shown
    | cons layer rest => exact ⟨layer, List.mem_cons_self⟩
  obtain ⟨layer, member⟩ := member
  cases p with
  | cons m p => exact lookup_isDir_of_mem_stack member
  | nil =>
      change (top (stack layers []) []).any Node.isDir = true
      cases above : stack layers [] with
      | nil =>
          rw [above] at member
          cases member
      | cons first rest =>
          have dir := (mem_stack (above ▸ List.mem_cons_self : first ∈ stack layers [])).2
          obtain ⟨node', found, isDir⟩ := (Option.any_eq_true _ _).mp dir
          rw [top_cons_some found]
          exact isDir

/-- A layer with nothing but directories on the way takes part wherever it goes on. -/
theorem stack_cons {layer : Tree α} {layers : List (Tree α)} {p : Path α}
    (parent : ∀ n q node, layer (n :: q) = some node → (layer q).any Node.isDir = true)
    (dirs : ∀ q, q <:+ p → ∀ node, layer q = some node → node.isDir = true) :
    stack (layer :: layers) p = (if (layer p).isSome then [layer] else []) ++ stack layers p := by
  have merged : ∀ here q, (∀ node, layer q = some node → node.isDir = true) →
      merge (layer :: here) q = (if (layer q).isSome then [layer] else []) ++ merge here q := by
    intro here q dir
    cases found : layer q with
    | none => exact merge_cons_none found
    | some node =>
        obtain ⟨perm, rfl⟩ := Node.isDir_iff.mp (dir node found)
        exact merge_cons_dir found
  induction p with
  | nil => exact merged layers [] (dirs [] List.suffix_rfl)
  | cons n p ih =>
      have above := ih fun q suffix => dirs q (suffix.trans (List.suffix_cons n p))
      change merge (stack (layer :: layers) p) (n :: p) = _ ++ merge (stack layers p) (n :: p)
      rw [above]
      cases here : layer p with
      | some node => exact merged _ _ (dirs _ List.suffix_rfl)
      | none =>
          have absent : layer (n :: p) = none := by
            cases found : layer (n :: p) with
            | none => rfl
            | some node =>
                have dir := parent n p node found
                rw [here] at dir
                cases dir
          rw [absent]
          rfl

/-- A directory lies in directories. -/
theorem isDir_of_suffix {layer : Tree α} {p q : Path α}
    (parent : ∀ n q node, layer (n :: q) = some node → (layer q).any Node.isDir = true)
    (dir : (layer p).any Node.isDir = true) (suffix : q <:+ p) :
    (layer q).any Node.isDir = true := by
  induction p with
  | nil =>
      rw [List.suffix_nil.mp suffix]
      exact dir
  | cons n p ih =>
      rcases List.suffix_cons_iff.mp suffix with rfl | inner
      · exact dir
      · obtain ⟨node, found, _⟩ := (Option.any_eq_true _ _).mp dir
        exact ih (parent n p node found) inner

/-- A layer with a directory takes part there. -/
theorem stack_cons_of_dir {layer : Tree α} {layers : List (Tree α)} {p : Path α}
    (parent : ∀ n q node, layer (n :: q) = some node → (layer q).any Node.isDir = true)
    (dir : (layer p).any Node.isDir = true) :
    stack (layer :: layers) p = layer :: stack layers p := by
  obtain ⟨node, found, _⟩ := (Option.any_eq_true _ _).mp dir
  rw [stack_cons parent, found]
  · rfl
  · intro q suffix node' here
    have above := isDir_of_suffix parent dir suffix
    rwa [here] at above

theorem stack_nil (p : Path α) : stack ([] : List (Tree α)) p = [] := by
  induction p with
  | nil => rfl
  | cons n p ih => rw [stack, ih, merge_nil]

/-- One layer alone takes part where it has a directory. -/
theorem stack_single {layer : Tree α} {p : Path α}
    (parent : ∀ n q node, layer (n :: q) = some node → (layer q).any Node.isDir = true) :
    stack [layer] p = if (layer p).any Node.isDir then [layer] else [] := by
  by_cases dir : (layer p).any Node.isDir = true
  · rw [stack_cons_of_dir parent dir, stack_nil, if_pos dir]
  · rw [if_neg dir]
    refine List.eq_nil_iff_forall_not_mem.mpr fun other member => ?_
    obtain ⟨inside, here⟩ := mem_stack member
    rw [List.mem_singleton.mp inside] at here
    exact dir here

/-! ## One layer over another -/

/-- `here` is the layer `tree`, or leaves it out where it has nothing at `p`. -/
def OneOf (tree : Tree α) (here : List (Tree α)) (p : Path α) : Prop :=
  here = [tree] ∨ here = [] ∧ tree p = none

theorem top_pair {upper under : Tree α} {first second : List (Tree α)} {p : Path α}
    (one : OneOf upper first p) (two : OneOf under second p) :
    top (first ++ second) p = (upper p).or (under p) := by
  have last : top second p = under p := by
    rcases two with rfl | ⟨rfl, absent⟩
    · cases found : under p with
      | none => rw [top_cons_none found]; rfl
      | some node => exact top_cons_some found
    · rw [absent]
      rfl
  rcases one with rfl | ⟨rfl, absent⟩
  · cases found : upper p with
    | none =>
        rw [List.singleton_append, top_cons_none found, last]
        rfl
    | some node =>
        rw [List.singleton_append, top_cons_some found]
        rfl
  · rw [absent, List.nil_append, last]
    rfl

theorem merge_single (under : Tree α) (p : Path α) :
    merge [under] p = if (under p).any Node.isDir then [under] else [] := by
  cases found : under p with
  | none => rw [merge_cons_none found]; rfl
  | some node =>
      cases node with
      | dir perm => rw [merge_cons_dir found]; rfl
      | file _ _ | symlink _ | chardev _ _ => rw [merge_cons_other found rfl]; rfl

/-- Where the upper layer has a directory or nothing, both directories are merged. -/
theorem merge_pair {upper under : Tree α} {first second : List (Tree α)} {p : Path α}
    (one : OneOf upper first p) (two : OneOf under second p)
    (dirs : ∀ node, upper p = some node → node.isDir = true) :
    merge (first ++ second) p =
      (if (upper p).isSome then [upper] else []) ++
        (if (under p).any Node.isDir then [under] else []) := by
  have last : merge second p = if (under p).any Node.isDir then [under] else [] := by
    rcases two with rfl | ⟨rfl, absent⟩
    · exact merge_single under p
    · rw [absent]
      rfl
  rcases one with rfl | ⟨rfl, absent⟩
  · cases found : upper p with
    | none =>
        rw [List.singleton_append, merge_cons_none found, last]
        rfl
    | some node =>
        obtain ⟨perm, rfl⟩ := Node.isDir_iff.mp (dirs node found)
        rw [List.singleton_append, merge_cons_dir found, last]
        rfl
  · rw [absent, List.nil_append, last]
    rfl

end Overlay

end GnomeBuildMeta.Posix
