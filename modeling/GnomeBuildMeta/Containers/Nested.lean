import Mathlib.Data.List.Basic
import Mathlib.Data.List.Flatten
import Mathlib.Data.List.Perm.Basic

/-!
# Nested values

A tree whose nodes may have values of their own and nodes below them.  A walk
that does not go below a node with values of its own misses what is there.
-/

namespace GnomeBuildMeta.Containers

inductive Nested (α : Type) where
  | node (own : Option (List α)) (children : List (Nested α))

namespace Nested

variable {α β : Type}

def own : Nested α → Option (List α)
  | node own _ => own

def children : Nested α → List (Nested α)
  | node _ children => children

mutual

/-- All the values, those of a node before those below it. -/
def all : Nested α → List α
  | node own children => own.getD [] ++ allBelow children

def allBelow : List (Nested α) → List α
  | [] => []
  | t :: rest => t.all ++ allBelow rest

end

mutual

/-- The values that are not below values. -/
def front : Nested α → List α
  | node (some own) _ => own
  | node none children => frontBelow children

def frontBelow : List (Nested α) → List α
  | [] => []
  | t :: rest => t.front ++ frontBelow rest

end

/-- A node of a tree. -/
inductive Within (s : Nested α) : Nested α → Prop where
  | self : Within s s
  | child {t child : Nested α} (inside : child ∈ t.children) (within : Within s child) : Within s t

/-- Below the nodes that have values of their own there is nothing of interest. -/
def NothingBelow (f : α → Option β) (t : Nested α) : Prop :=
  ∀ s, Within s t → s.own ≠ none → ∀ child ∈ s.children, ∀ a ∈ child.all, f a = none

theorem allBelow_eq (trees : List (Nested α)) : allBelow trees = trees.flatMap all := by
  induction trees with
  | nil => rfl
  | cons t rest ih => rw [allBelow, ih, List.flatMap_cons]

theorem frontBelow_eq (trees : List (Nested α)) : frontBelow trees = trees.flatMap front := by
  induction trees with
  | nil => rfl
  | cons t rest ih => rw [frontBelow, ih, List.flatMap_cons]

theorem all_eq (t : Nested α) : t.all = t.own.getD [] ++ t.children.flatMap all := by
  cases t with
  | node own children => rw [all, allBelow_eq, Nested.own, Nested.children]

theorem front_eq (t : Nested α) : t.front = t.own.getD (t.children.flatMap front) := by
  cases t with
  | node own children =>
      cases own with
      | none => rw [front, frontBelow_eq, Nested.own, Nested.children, Option.getD_none]
      | some own => rw [front, Nested.own, Option.getD_some]

/-- What holds of a node when it holds of those below it holds of every tree. -/
theorem induction {P : Nested α → Prop} (step : ∀ t, (∀ child ∈ t.children, P child) → P t) (t : Nested α) :
    P t := by
  exact @Nested.rec α P (fun trees => ∀ t ∈ trees, P t) (fun _ _ ih => step _ ih)
    (List.forall_mem_nil _) (fun _ _ first others => List.forall_mem_cons.mpr ⟨first, others⟩) t

/-! ## What a walk over the front misses -/

theorem front_sublist_all (t : Nested α) : t.front.Sublist t.all := by
  induction t using Nested.induction with
  | step t ih =>
      rw [front_eq, all_eq]
      cases t.own with
      | none => exact List.Sublist.flatMap_right _ ih
      | some own => exact List.sublist_append_left _ _

theorem Within.all_subset {s t : Nested α} (within : Within s t) : s.all ⊆ t.all := by
  induction within with
  | self => exact List.Subset.refl _
  | child inside _ ih =>
      refine List.Subset.trans ih fun a member => ?_
      rw [all_eq]
      exact List.mem_append_right _ (List.mem_flatMap.mpr ⟨_, inside, member⟩)

theorem nothingBelow_of_all {f : α → Option β} {t : Nested α} (nothing : ∀ a ∈ t.all, f a = none) :
    NothingBelow f t := by
  intro s within _ child inside a member
  refine nothing a (within.all_subset ?_)
  rw [all_eq]
  exact List.mem_append_right _ (List.mem_flatMap.mpr ⟨child, inside, member⟩)

theorem nothingBelow_iff {f : α → Option β} {t : Nested α} :
    NothingBelow f t ↔ (t.own ≠ none → ∀ child ∈ t.children, ∀ a ∈ child.all, f a = none) ∧
      ∀ child ∈ t.children, NothingBelow f child := by
  constructor
  · intro nothing
    exact ⟨nothing t .self, fun child inside s within => nothing s (.child inside within)⟩
  · rintro ⟨here, further⟩ s within
    cases within with
    | self => exact here
    | child inside within => exact further _ inside s within


theorem perm_append_iff {l m : List β} : l.Perm (l ++ m) ↔ m = [] := by
  constructor
  · intro perm
    have sizes := perm.length_eq
    rw [List.length_append] at sizes
    exact List.length_eq_zero_iff.mp (by omega)
  · rintro rfl
    rw [List.append_nil]

/-- Pieces of lists make up the same if and only if each of them is the whole. -/
theorem flatMap_perm_iff {g h : α → List β} {list : List α}
    (pieces : ∀ a ∈ list, (g a).Sublist (h a)) :
    (list.flatMap g).Perm (list.flatMap h) ↔ ∀ a ∈ list, (g a).Perm (h a) := by
  constructor
  · induction list with
    | nil => exact fun _ => List.forall_mem_nil _
    | cons a rest ih =>
        intro perm
        obtain ⟨first, others⟩ := List.forall_mem_cons.mp pieces
        have later : (rest.flatMap g).Sublist (rest.flatMap h) := List.Sublist.flatMap_right _ others
        have sizes := perm.length_eq
        have short := first.length_le
        have shortLater := later.length_le
        rw [List.flatMap_cons, List.flatMap_cons, List.length_append, List.length_append] at sizes
        have same : g a = h a := first.eq_of_length (by omega)
        have sameLater : rest.flatMap g = rest.flatMap h := later.eq_of_length (by omega)
        exact List.forall_mem_cons.mpr ⟨.of_eq same, ih others (.of_eq sameLater)⟩
  · exact fun each => List.Perm.flatMap_left list each

/-- The walk over the front finds everything if and only if it passes nothing by. -/
theorem filterMap_front_perm_iff (f : α → Option β) (t : Nested α) :
    (t.front.filterMap f).Perm (t.all.filterMap f) ↔ NothingBelow f t := by
  induction t using Nested.induction with
  | step t ih =>
      rw [front_eq, all_eq, nothingBelow_iff, List.filterMap_append, List.filterMap_flatMap]
      cases t.own with
      | none =>
          simp only [Option.getD_none, List.filterMap_nil, List.nil_append, List.filterMap_flatMap]
          rw [flatMap_perm_iff fun child _ => (front_sublist_all child).filterMap f]
          simp only [ne_eq, not_true_eq_false, false_imp_iff, true_and]
          exact forall₂_congr ih
      | some own =>
          simp only [Option.getD_some]
          rw [perm_append_iff, List.flatMap_eq_nil_iff]
          simp only [List.filterMap_eq_nil_iff, ne_eq, reduceCtorEq, not_false_eq_true, true_imp_iff]
          exact ⟨fun none' => ⟨none', fun child inside => nothingBelow_of_all (none' child inside)⟩,
            fun both => both.1⟩

end Nested

end GnomeBuildMeta.Containers
