import GnomeBuildMeta.Versions.History
import GnomeBuildMeta.Versions.ImageVersion
import Mathlib.Data.Prod.Lex
import Mathlib.Order.Fin.Basic

/-!
# Nightly versions increase

With the commit times in order, the leading run of a day is the whole day: all
reachable commits of the day of the head.  A later commit either starts a later
day or adds itself to the count.
-/

namespace GnomeBuildMeta.Versions

/-! ## The leading run -/

theorem head?_uniqCount (line : Nat) (lines : List Nat) :
    (uniqCount (line :: lines)).head? =
      some ((lines.takeWhile fun other => other = line).length + 1, line) := by
  induction lines generalizing line with
  | nil => rfl
  | cons next lines ih =>
      have first := ih next
      rw [uniqCount]
      cases later : uniqCount (next :: lines) with
      | nil =>
          rw [later] at first
          cases first
      | cons group groups =>
          rw [later] at first
          cases first
          dsimp only
          by_cases same : next = line
          · subst same
            rw [if_pos rfl, List.takeWhile_cons_of_pos (by simp)]
            rfl
          · rw [if_neg same, List.takeWhile_cons_of_neg (by simpa using same)]
            rfl

/-- In a list that never rises the greatest value stands together at its start. -/
theorem length_takeWhile_eq_count {days : List Nat} {day : Nat}
    (falling : days.Pairwise fun x y => y ≤ x) (top : ∀ x ∈ days, x ≤ day) :
    (days.takeWhile fun other => other = day).length = days.count day := by
  induction days with
  | nil => rfl
  | cons first days ih =>
      obtain ⟨below, falling'⟩ := List.pairwise_cons.mp falling
      have rest := ih falling' fun x member => top x (List.mem_cons_of_mem _ member)
      by_cases same : first = day
      · rw [List.takeWhile_cons_of_pos (by simpa using same), same, List.count_cons_self,
          List.length_cons, rest]
      · have smaller : first < day := lt_of_le_of_ne (top first List.mem_cons_self) same
        have absent : day ∉ first :: days := by
          intro member
          rcases List.mem_cons.mp member with equal | later
          · exact same equal.symm
          · exact absurd (below day later) (by omega)
        rw [List.takeWhile_cons_of_neg (by simpa using same), List.count_eq_zero_of_not_mem absent]
        rfl

theorem pairwise_of_timestampCheck {times : List Nat} (passes : timestampCheck times = true) :
    times.Pairwise fun x y => y ≤ x := by
  induction times with
  | nil => exact .nil
  | cons first times ih =>
      cases times with
      | nil => exact List.pairwise_singleton _ _
      | cons second times =>
          rw [timestampCheck, Bool.and_eq_true, decide_eq_true_eq] at passes
          have rest := ih passes.2
          refine List.pairwise_cons.mpr ⟨fun x member => ?_, rest⟩
          rcases List.mem_cons.mp member with rfl | later
          · exact passes.1
          · exact ((List.pairwise_cons.mp rest).1 x later).trans passes.1

/-- Once the check passes, the version counts the commits of the head's day. -/
theorem nightly_eq {time : Nat} {times : List Nat}
    (passes : timestampCheck (time :: times) = true) :
    nightly ((time :: times).map dayOf) = some (dayOf time, (times.map dayOf).count (dayOf time)) := by
  obtain ⟨below, falling⟩ := List.pairwise_cons.mp (pairwise_of_timestampCheck passes)
  have falling' : (times.map dayOf).Pairwise fun x y => y ≤ x :=
    List.pairwise_map.mpr (falling.imp fun later => dayOf_mono later)
  have top : ∀ day ∈ times.map dayOf, day ≤ dayOf time := by
    intro day member
    obtain ⟨other, listed, rfl⟩ := List.mem_map.mp member
    exact dayOf_mono (below other listed)
  rw [nightly, List.map_cons, head?_uniqCount, length_takeWhile_eq_count falling' top]
  rfl

/-! ## Along a history -/

section

variable {Commit : Type} {h : History Commit} {log : Commit → List Commit} {time : Commit → Nat}

/-- The version of a commit counts the others of its day. -/
theorem nightly_log (lists : h.Lists log) {c : Commit}
    (passes : timestampCheck ((log c).map time) = true) :
    nightly (((log c).map time).map dayOf) =
      some (dayOf (time c), (log c).countP (fun x => dayOf (time x) = dayOf (time c)) - 1) := by
  obtain ⟨rest, same⟩ := lists.eq_cons c
  rw [same, List.map_cons] at passes ⊢
  rw [nightly_eq passes, List.countP_cons_of_pos (by simp), Nat.add_sub_cancel, List.map_map,
    List.count, List.countP_map]
  rfl

/-- The version that a job on the main branch prints, after the check, is the text of that pair. -/
theorem globalBeforeScript_log (lists : h.Lists log) {c : Commit} {e : Environment}
    (main : e.commitBranch = some "master".toList) {version : Text}
    (printed : globalBeforeScript ((log c).map time) e = some version) :
    timestampCheck ((log c).map time) = true ∧ ∃ v, nightly (((log c).map time).map dayOf) = some v ∧
      version = "nightly.".toList ++ (toString v.1 ++ "." ++ toString v.2).toList := by
  rw [globalBeforeScript] at printed
  split at printed
  case isFalse => cases printed
  case isTrue passes =>
    have counted := nightly_log lists passes
    refine ⟨passes, _, counted, ?_⟩
    rw [exportImageVersion] at printed
    simp only [main, if_true, versionNum, counted, Option.ite_none_left_eq_some] at printed
    exact (Option.some.inj printed.2).symm

/-- A later commit has a greater version, whose text `globalBeforeScript_log` gives. -/
theorem nightly_increases (lists : h.Lists log) {c c' : Commit} (proper : h.ProperAncestor c c')
    (passes : timestampCheck ((log c).map time) = true)
    (passes' : timestampCheck ((log c').map time) = true) :
    ∃ v v', nightly (((log c).map time).map dayOf) = some v ∧
      nightly (((log c').map time).map dayOf) = some v' ∧ toLex v < toLex v' := by
  refine ⟨_, _, nightly_log lists passes, nightly_log lists passes', Prod.Lex.toLex_lt_toLex.mpr ?_⟩
  obtain ⟨rest, same⟩ := lists.eq_cons c'
  have earlier : time c ≤ time c' := by
    have sorted := pairwise_of_timestampCheck passes'
    have reached : c ∈ log c' := (lists.mem_iff c c').mpr proper.to_reflTransGen
    rw [same, List.map_cons] at sorted
    rw [same] at reached
    rcases List.mem_cons.mp reached with rfl | later
    · exact Nat.le_refl _
    · exact (List.pairwise_cons.mp sorted).1 _ (List.mem_map_of_mem later)
  rcases (dayOf_mono earlier).lt_or_eq with before | sameDay
  · exact Or.inl before
  · refine Or.inr ⟨sameDay, ?_⟩
    have positive : 0 < (log c).countP fun x => dayOf (time x) = dayOf (time c) := by
      obtain ⟨others, whole⟩ := lists.eq_cons c
      rw [whole, List.countP_cons_of_pos (by simp)]
      exact Nat.succ_pos _
    have more := lists.countP_lt proper
      (p := fun x => decide (dayOf (time x) = dayOf (time c'))) (by simp)
    dsimp only
    rw [sameDay] at positive ⊢
    omega

end

/-! ## A merge -/

/-- Two commits on the same one, and their merge. -/
def mergeParents : Fin 4 → List (Fin 4)
  | 0 => []
  | 1 => [0]
  | 2 => [0]
  | 3 => [1, 2]

theorem lt_of_mem_mergeParents : ∀ a b, a ∈ mergeParents b → a < b := by decide

def mergeHistory : History (Fin 4) where
  parents := mergeParents
  acyclic c cycle := by
    have descends : ∀ {a b}, Relation.TransGen (fun a b => a ∈ mergeParents b) a b → a < b := by
      intro a b path
      induction path with
      | single step => exact lt_of_mem_mergeParents _ _ step
      | tail _ step ih => exact ih.trans (lt_of_mem_mergeParents _ _ step)
    exact lt_irrefl c (descends cycle)

def mergeLog : Fin 4 → List (Fin 4)
  | 0 => [0]
  | 1 => [1, 0]
  | 2 => [2, 0]
  | 3 => [3, 2, 1, 0]

theorem mergeLog_lists : mergeHistory.Lists mergeLog where
  mem_iff a b := by
    have unfolds : ∀ a b, a ∈ mergeLog b → a = b ∨ ∃ p ∈ mergeParents b, a ∈ mergeLog p := by decide
    have folds : ∀ a b c, a ∈ mergeLog b → b ∈ mergeParents c → a ∈ mergeLog c := by decide
    have self : ∀ a, a ∈ mergeLog a := by decide
    constructor
    · intro listed
      induction b using WellFoundedLT.induction with
      | ind b ih =>
          rcases unfolds a b listed with rfl | ⟨p, parent, earlier⟩
          · exact .refl
          · exact (ih p (lt_of_mem_mergeParents p b parent) earlier).tail parent
    · intro path
      induction path with
      | refl => exact self a
      | tail _ step ih => exact folds _ _ _ ih step
  nodup := by decide
  head := by decide

/-- One of the merged commits and the merge, within a day. -/
theorem merge_increases : ∃ v v',
    nightly (((mergeLog 1).map fun c => 10 * c.val).map dayOf) = some v ∧
      nightly (((mergeLog 3).map fun c => 10 * c.val).map dayOf) = some v' ∧
        toLex v < toLex v' :=
  nightly_increases mergeLog_lists (.single (by decide)) (by decide) (by decide)

end GnomeBuildMeta.Versions
