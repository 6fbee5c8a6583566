import GnomeBuildMeta.Control.Run
import Mathlib.Data.List.Chain
import Mathlib.Data.List.Sort

/-!
# Runs and binary insertion

A list of fewer than 64 elements is sorted in two steps: a run at its start is
found, and each later element goes to the place that a binary search finds for
it.  Both trust that the comparison is an order.  Where it only says that some
elements replace others, what the search comes across decides.
-/

namespace GnomeBuildMeta.Sorting

variable {α : Type} (less : α → α → Bool)

/-! ## The algorithm -/

/-- The elements with which an ascending run goes on, and the others. -/
def ascend : α → List α → List α × List α
  | _, [] => ([], [])
  | last, x :: rest =>
      if less x last then ([], x :: rest)
      else (x :: (ascend x rest).1, (ascend x rest).2)

/-- The elements with which a strictly descending run goes on, and the others. -/
def descend : α → List α → List α × List α
  | _, [] => ([], [])
  | last, x :: rest =>
      if less x last then (x :: (descend x rest).1, (descend x rest).2)
      else ([], x :: rest)

/-- The run at the start, turned around if it descends, and what is behind it. -/
def countRun : List α → List α × List α
  | [] => ([], [])
  | [a] => ([a], [])
  | a :: b :: rest =>
      if less b a then ((a :: b :: (descend less b rest).1).reverse, (descend less b rest).2)
      else (a :: b :: (ascend less b rest).1, (ascend less b rest).2)

/-- Where the pivot goes, from `l` up to `r`. -/
def position (acc : List α) (pivot : α) (l r : Nat) : Nat :=
  if l < r then
    let p := l + (r - l) / 2
    if acc[p]?.any (less pivot) then position acc pivot l p else position acc pivot (p + 1) r
  else l
termination_by r - l

def insertAt (acc : List α) (p : Nat) (pivot : α) : List α := acc.take p ++ pivot :: acc.drop p

def binaryInsert (acc : List α) (pivot : α) : List α :=
  insertAt acc (position less acc pivot 0 acc.length) pivot

def shortSort (list : List α) : List α :=
  (countRun less list).2.foldl (binaryInsert less) (countRun less list).1

/-! ## What always holds -/

theorem insertAt_perm (acc : List α) (p : Nat) (pivot : α) :
    (insertAt acc p pivot).Perm (acc ++ [pivot]) := by
  have whole : (acc.take p ++ pivot :: acc.drop p).Perm (pivot :: (acc.take p ++ acc.drop p)) :=
    List.perm_middle
  rw [List.take_append_drop] at whole
  exact whole.trans (List.perm_append_singleton pivot acc).symm

theorem sublist_insertAt (acc : List α) (p : Nat) (pivot : α) : acc.Sublist (insertAt acc p pivot) := by
  have parts : (acc.take p ++ acc.drop p).Sublist (insertAt acc p pivot) :=
    (List.Sublist.refl _).append (List.sublist_cons_self _ _)
  rwa [List.take_append_drop] at parts

theorem ascend_append (last : α) (rest : List α) :
    (ascend less last rest).1 ++ (ascend less last rest).2 = rest := by
  induction rest generalizing last with
  | nil => rfl
  | cons x rest ih =>
      rw [ascend]
      split
      · rfl
      · exact congrArg (x :: ·) (ih x)

theorem descend_append (last : α) (rest : List α) :
    (descend less last rest).1 ++ (descend less last rest).2 = rest := by
  induction rest generalizing last with
  | nil => rfl
  | cons x rest ih =>
      rw [descend]
      split
      · exact congrArg (x :: ·) (ih x)
      · rfl

theorem countRun_perm (list : List α) :
    ((countRun less list).1 ++ (countRun less list).2).Perm list := by
  match list with
  | [] => exact .refl _
  | [a] => exact .refl _
  | a :: b :: rest =>
      rw [countRun]
      split
      · refine ((List.reverse_perm _).append_right _).trans ?_
        rw [List.cons_append, List.cons_append, descend_append]
      · rw [List.cons_append, List.cons_append, ascend_append]

theorem shortSort_perm (list : List α) : (shortSort less list).Perm list := by
  have general : ∀ rest acc : List α, (rest.foldl (binaryInsert less) acc).Perm (acc ++ rest) := by
    intro rest
    induction rest with
    | nil =>
        intro acc
        rw [List.append_nil]
        exact .refl _
    | cons x rest ih =>
        intro acc
        refine (ih (binaryInsert less acc x)).trans ?_
        have inserted := insertAt_perm acc (position less acc x 0 acc.length) x
        rw [List.append_cons]
        exact inserted.append_right rest
  exact (general _ _).trans (countRun_perm less list)

/-- Nothing descends from one element to the next. -/
def NoDescent (list : List α) : Prop := list.IsChain fun a b => less b a = false

/-- An ascending run ends where the next element descends. -/
theorem ascend_chain (last : α) (rest : List α) :
    NoDescent less (last :: (ascend less last rest).1) ∧
      ∀ x behind, (ascend less last rest).2 = x :: behind →
        ¬ NoDescent less (last :: (ascend less last rest).1 ++ [x]) := by
  induction rest generalizing last with
  | nil =>
      refine ⟨List.isChain_singleton _, fun x behind impossible => ?_⟩
      cases impossible
  | cons y rest ih =>
      rw [ascend]
      by_cases descends : less y last = true
      · rw [if_pos descends]
        refine ⟨List.isChain_singleton _, fun x behind same chain => ?_⟩
        cases same
        have step : less y last = false := (List.isChain_cons_cons.mp chain).1
        rw [descends] at step
        cases step
      · rw [if_neg descends]
        obtain ⟨chain, ends⟩ := ih y
        have step : less y last = false := Bool.eq_false_iff.mpr descends
        refine ⟨List.isChain_cons_cons.mpr ⟨step, chain⟩, fun x behind same whole => ?_⟩
        exact ends x behind same (List.isChain_cons_cons.mp whole).2

/-- A list without a descent is one run. -/
theorem shortSort_of_noDescent {list : List α} (chain : NoDescent less list) :
    shortSort less list = list := by
  match list, chain with
  | [], _ => rfl
  | [a], _ => rfl
  | a :: b :: rest, chain =>
      obtain ⟨step, chain'⟩ := List.isChain_cons_cons.mp chain
      have ends : (ascend less b rest).2 = [] := by
        cases behind : (ascend less b rest).2 with
        | nil => rfl
        | cons x others =>
            have parts := ascend_append less b rest
            rw [behind] at parts
            refine absurd ?_ ((ascend_chain less b rest).2 x others behind)
            refine List.IsChain.prefix chain' ⟨others, ?_⟩
            rw [List.append_assoc, List.singleton_append, List.cons_append, parts]
      have whole := ascend_append less b rest
      rw [ends, List.append_nil] at whole
      have run : countRun less (a :: b :: rest) = (a :: b :: rest, []) := by
        rw [countRun, if_neg (by rw [step]; exact Bool.false_ne_true), ends, whole]
      rw [shortSort, run]
      rfl

/-! ## The search -/

/-- How far from the end the search looks, as long as it goes to the right. -/
def probed : Nat → List Nat
  | 0 => []
  | n + 1 => (n + 1 - (n + 1) / 2) :: probed (n - (n + 1) / 2)
termination_by n => n
decreasing_by omega

theorem le_of_mem_probed {n d : Nat} (member : d ∈ probed n) : d ≤ n := by
  induction n using probed.induct with
  | case1 =>
      rw [probed] at member
      cases member
  | case2 n ih =>
      rw [probed] at member
      rcases List.mem_cons.mp member with rfl | later
      · omega
      · have smaller := ih later
        omega

/-- The middle of `l` and `r`, and what is right of it, as seen from `r`. -/
theorem probed_middle {l r : Nat} (inside : l < r) :
    probed (r - l) = (r - (l + (r - l) / 2)) :: probed (r - (l + (r - l) / 2 + 1)) := by
  obtain ⟨n, size⟩ : ∃ n, r - l = n + 1 := ⟨r - l - 1, by omega⟩
  have middle : r - (l + (n + 1) / 2) = n + 1 - (n + 1) / 2 := by omega
  have right : r - (l + (n + 1) / 2 + 1) = n - (n + 1) / 2 := by omega
  rw [size, probed, middle, right]

section Position

variable {less} {acc : List α} {pivot : α}

theorem position_none (l r : Nat) (ordered : l ≤ r)
    (none : ∀ p, l ≤ p → p < r → acc[p]?.any (less pivot) = false) : position less acc pivot l r = r := by
  induction l, r using position.induct less acc pivot with
  | case1 l r inside p hit ih =>
      have missed := none p (by omega) (by omega)
      rw [hit] at missed
      cases missed
  | case2 l r inside p missed ih =>
      rw [position, if_pos inside]
      simp only
      rw [if_neg missed]
      exact ih (by omega) fun q lower upper => none q (by omega) upper
  | case3 l r outside =>
      rw [position, if_neg outside]
      omega

/-- With one element to be found, the search finds it or goes to the end. -/
theorem position_one {q : Nat} (l r : Nat) (lower : l ≤ q) (upper : q < r)
    (one : ∀ p, l ≤ p → p < r → (acc[p]?.any (less pivot) = true ↔ p = q)) :
    position less acc pivot l r = if r - q ∈ probed (r - l) then q else r := by
  induction l, r using position.induct less acc pivot with
  | case1 l r inside p hit ih =>
      have here : p = q := (one p (by omega) (by omega)).mp hit
      have before : ∀ k, l ≤ k → k < p → acc[k]?.any (less pivot) = false := by
        intro k lower' upper'
        rw [Bool.eq_false_iff]
        intro other
        have same := (one k lower' (by omega)).mp other
        omega
      have found : r - q ∈ probed (r - l) := by
        rw [probed_middle inside]
        exact List.mem_cons.mpr (Or.inl (here ▸ rfl))
      rw [position, if_pos inside, if_pos found]
      simp only
      rw [if_pos hit, position_none l _ (by omega) before]
      exact here
  | case2 l r inside p missed ih =>
      have elsewhere : p ≠ q := fun here => missed ((one p (by omega) (by omega)).mpr here)
      have next : probed (r - l) = (r - p) :: probed (r - (p + 1)) := probed_middle inside
      have goesOn : position less acc pivot l r = position less acc pivot (p + 1) r := by
        rw [position, if_pos inside]
        exact if_neg missed
      rw [goesOn, next]
      rcases Nat.lt_or_gt_of_ne elsewhere with before | behind
      · have later := ih (by omega) upper fun k lower' upper' => one k (by omega) upper'
        have first : r - q ≠ r - p := by omega
        rw [later]
        simp only [List.mem_cons, first, false_or]
      · have nothing : ∀ k, p + 1 ≤ k → k < r → acc[k]?.any (less pivot) = false := by
          intro k lower' upper'
          rw [Bool.eq_false_iff]
          intro other
          have same := (one k (by omega) upper').mp other
          omega
        have absent : r - q ∉ (r - p) :: probed (r - (p + 1)) := by
          intro member
          rcases List.mem_cons.mp member with same | inRest
          · omega
          · have small := le_of_mem_probed inRest
            omega
        rw [if_neg absent]
        exact position_none _ _ (by omega) nothing
  | case3 l r outside => omega

end Position

end GnomeBuildMeta.Sorting
