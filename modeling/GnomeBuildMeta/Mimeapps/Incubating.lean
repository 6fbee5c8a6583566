import GnomeBuildMeta.Mimeapps.Generate
import GnomeBuildMeta.Sorting.Replacement

/-!
# Incubating applications

The second sort is to put an incubating application before the core application
that it replaces.  Its comparison calls all other pairs equal, so an application
that does not meet its core on the way stays where the alphabet put it.
-/

namespace GnomeBuildMeta.Mimeapps

open Sorting

/--
What is known of `list.sort`: fewer than 64 elements are sorted by binary
insertion behind their first run.  How that run is found is as in CPython up to
3.12; later versions take equal elements into a descending run.
-/
structure IsListSort (listSort : (Text → Text → Bool) → List Text → List Text) : Prop where
  perm : ∀ less list, (listSort less list).Perm list
  oneRun : ∀ less list, NoDescent less list → listSort less list = list
  short : ∀ less list, list.length < 64 → listSort less list = shortSort less list

theorem shortSort_isListSort : IsListSort shortSort :=
  ⟨shortSort_perm, fun _ _ chain => shortSort_of_noDescent _ chain, fun _ _ _ => rfl⟩

/-- `_cmp_incubating(a, b) < 0` -/
def precedes (entries : Table) (a b : Text) : Bool := decide (cmpIncubating entries a b < 0)

/-- No application is both a key and a value. -/
def Separate (entries : Table) : Prop := ∀ a b, incubates entries a b = true → entries.lookup b = none

/-- Every incubating application comes before the core application it replaces. -/
def Prioritised (entries : Table) (apps : List Text) : Prop :=
  ∀ app ∈ apps, ∀ core ∈ apps,
    incubates entries (removesuffix app suffix) (removesuffix core suffix) = true →
      [app, core].Sublist apps

/-- The alphabetical order, or the search of the second sort, brings the pairs together. -/
def Reached (entries : Table) (apps : List Text) : Prop :=
  if apps.length < 64 then AllFound (precedes entries) (sorted apps)
  else Settled (precedes entries) (sorted apps)

variable {entries : Table} {apps : List Text}

theorem precedes_eq (entries : Table) (a b : Text) :
    precedes entries a b = incubates entries (removesuffix a suffix) (removesuffix b suffix) := by
  rw [precedes, cmpIncubating]
  split
  · next replaces =>
    rw [replaces]
    rfl
  · next other =>
    rw [Bool.not_eq_true] at other
    rw [other]
    split <;> rfl

theorem Separate.incubates_eq_false (separate : Separate entries) {a b : Text}
    (replaces : incubates entries a b = true) (c : Text) : incubates entries b c = false := by
  rw [incubates, separate a b replaces]

theorem incubates_unique {a b c : Text} (first : incubates entries a b = true)
    (second : incubates entries a c = true) : b = c := by
  rw [incubates] at first second
  split at first
  · next text found =>
    rw [found] at second
    exact (of_decide_eq_true first).symm.trans (of_decide_eq_true second)
  · cases first

theorem sorted_perm (apps : List Text) : (sorted apps).Perm apps := List.perm_insertionSort _ _

theorem replaces_sorted (separate : Separate entries)
    (distinct : (apps.map fun app => removesuffix app suffix).Nodup) :
    Replaces (precedes entries) (sorted apps) where
  nodup := (sorted_perm apps).nodup_iff.mpr distinct.of_map
  apart := by
    intro a b c replaces
    rw [precedes_eq] at replaces ⊢
    exact separate.incubates_eq_false replaces _
  one := by
    intro a b inB c inC first second
    rw [precedes_eq] at first second
    exact List.inj_on_of_nodup_map distinct ((sorted_perm apps).subset inB)
      ((sorted_perm apps).subset inC) (incubates_unique first second)

/-! ## Which of two comes first -/

theorem pair_or_pair {α : Type} {a b : α} {list : List α} (inA : a ∈ list) (inB : b ∈ list)
    (other : a ≠ b) : [a, b].Sublist list ∨ [b, a].Sublist list := by
  obtain ⟨front, back, rfl⟩ := List.append_of_mem inA
  rcases List.mem_append.mp inB with early | late
  · exact Or.inr (List.Sublist.append (List.singleton_sublist.mpr early)
      (List.singleton_sublist.mpr List.mem_cons_self))
  · have later : b ∈ back := (List.mem_cons.mp late).resolve_left (Ne.symm other)
    refine Or.inl (List.Sublist.trans ?_ (List.sublist_append_right front _))
    exact (List.singleton_sublist.mpr later).cons_cons a

theorem not_pair_and_pair {α : Type} {a b : α} {list : List α} (nodup : list.Nodup)
    (first : [a, b].Sublist list) : ¬ [b, a].Sublist list := by
  induction list with
  | nil => cases first
  | cons c list ih =>
      obtain ⟨fresh, rest⟩ := List.nodup_cons.mp nodup
      intro second
      cases first with
      | cons _ first =>
          cases second with
          | cons _ second => exact ih rest first second
          | cons_cons _ second => exact fresh (first.subset (by simp))
      | cons_cons _ first =>
          cases second with
          | cons _ second => exact fresh (second.subset (by simp))
          | cons_cons _ second => exact fresh (first.subset (by simp))

theorem prioritised_iff_settled (separate : Separate entries) {list : List Text} (nodup : list.Nodup) :
    Prioritised entries list ↔ Settled (precedes entries) list := by
  constructor
  · intro prioritised
    refine List.pairwise_iff_forall_sublist.mpr fun {core app} order => ?_
    rw [precedes_eq, Bool.eq_false_iff]
    intro replaces
    have before := prioritised app (order.subset (by simp)) core (order.subset (by simp)) replaces
    exact not_pair_and_pair nodup order before
  · intro settled app inApp core inCore replaces
    have other : app ≠ core := by
      rintro rfl
      rw [separate.incubates_eq_false replaces] at replaces
      cases replaces
    refine (pair_or_pair inApp inCore other).resolve_right fun behind => ?_
    have impossible := List.pairwise_iff_forall_sublist.mp settled behind
    rw [precedes_eq, replaces] at impossible
    cases impossible

/-! ## The sorted list -/

theorem sortApps_ok (listSort : (Text → Text → Bool) → List Text → List Text) (entries : Table)
    (apps : List Text) : sortApps listSort (some (.table entries)) apps =
      .ok (if apps.length < 2 then sorted apps else listSort (precedes entries) (sorted apps)) := by
  rw [sortApps]
  split <;> rfl

/--
All the incubating applications get before their core applications if they come
across them.  Up to 63 applications, or where the alphabet leaves nothing to do,
there is no other way.
-/
theorem sortApps_prioritised {listSort : (Text → Text → Bool) → List Text → List Text}
    (sorts : IsListSort listSort) (separate : Separate entries)
    (distinct : (apps.map fun app => removesuffix app suffix).Nodup) :
    ∃ result, sortApps listSort (some (.table entries)) apps = .ok result ∧ result.Perm apps ∧
      (Reached entries apps → Prioritised entries result) ∧
      (apps.length < 64 ∨ NoDescent (precedes entries) (sorted apps) →
        (Prioritised entries result ↔ Reached entries apps)) := by
  have replaces := replaces_sorted separate distinct
  have length := (sorted_perm apps).length_eq
  -- Fewer than two applications are what the sort would make of them.
  obtain ⟨result, computed, sortedTwice⟩ : ∃ result,
      sortApps listSort (some (.table entries)) apps = .ok result ∧
        result = listSort (precedes entries) (sorted apps) := by
    refine ⟨_, sortApps_ok listSort entries apps, ?_⟩
    split
    · next few =>
      refine (sorts.oneRun _ _ ?_).symm
      rw [← length] at few
      cases list : sorted apps with
      | nil => exact List.isChain_nil
      | cons a rest =>
          rw [list, List.length_cons] at few
          rw [List.length_eq_zero_iff.mp (show rest.length = 0 by omega)]
          exact List.isChain_singleton a
    · rfl
  have perm : result.Perm (sorted apps) := sortedTwice ▸ sorts.perm _ _
  have settled : Prioritised entries result ↔ Settled (precedes entries) result :=
    prioritised_iff_settled separate (perm.nodup_iff.mpr replaces.nodup)
  have short : apps.length < 64 → (Settled (precedes entries) result ↔ Reached entries apps) := by
    intro few
    rw [sortedTwice, sorts.short _ _ (by omega), Reached, if_pos few]
    exact shortSort_settled_iff replaces
  have long : NoDescent (precedes entries) (sorted apps) → ¬ apps.length < 64 →
      (Settled (precedes entries) result ↔ Reached entries apps) := by
    intro chain many
    rw [sortedTwice, sorts.oneRun _ _ chain, Reached, if_neg many]
  refine ⟨result, computed, perm.trans (sorted_perm apps), fun reached => ?_, fun known => ?_⟩
  · rw [settled]
    by_cases few : apps.length < 64
    · exact (short few).mpr reached
    · have inOrder := reached
      rw [Reached, if_neg few] at inOrder
      exact (long (List.Pairwise.isChain inOrder) few).mpr reached
  · rw [settled]
    by_cases few : apps.length < 64
    · exact short few
    · exact long (known.resolve_left few) few

/-! ## One application replaces another -/

/-- The application `z` is incubating to replace `a`. -/
def zReplacesA : Table := [("z".toList, .string "a".toList)]

theorem zReplacesA_separate : Separate zReplacesA := by
  intro app core replaces
  have target : core = "a".toList := by
    by_cases isZ : app = "z".toList
    · rw [isZ] at replaces
      exact (of_decide_eq_true replaces).symm
    · have unknown : zReplacesA.lookup app = none := by
        rw [zReplacesA, List.lookup_cons, beq_eq_false_iff_ne.mpr isZ]
        rfl
      rw [incubates, unknown] at replaces
      cases replaces
  rw [target]
  rfl

/-- As neighbours they are compared, and change places. -/
theorem neighbours_prioritised : ∃ result,
    sortApps shortSort (some (.table zReplacesA)) ["z.desktop".toList, "a.desktop".toList] = .ok result ∧
      Prioritised zReplacesA result := by
  have distinct : (["z.desktop".toList, "a.desktop".toList].map fun app =>
      removesuffix app suffix).Nodup := by decide
  obtain ⟨result, computed, _, enough, _⟩ :=
    sortApps_prioritised shortSort_isListSort zReplacesA_separate distinct
  have alphabet : sorted ["z.desktop".toList, "a.desktop".toList] =
      ["a.desktop".toList, "z.desktop".toList] := by decide
  have swapped : shortSort (precedes zReplacesA) ["a.desktop".toList, "z.desktop".toList] =
      ["z.desktop".toList, "a.desktop".toList] := by decide
  have settled : Settled (precedes zReplacesA) ["z.desktop".toList, "a.desktop".toList] :=
    List.pairwise_pair.mpr (by decide)
  refine ⟨result, computed, enough ?_⟩
  rw [Reached, if_pos (by decide), alphabet]
  refine (shortSort_settled_iff ?_).mp (swapped ▸ settled)
  exact alphabet ▸ replaces_sorted zReplacesA_separate distinct

/-- With an unrelated one between them they never meet. -/
theorem unrelated_between : IsListSort shortSort ∧ Separate zReplacesA ∧
    sortApps shortSort (some (.table zReplacesA))
        ["a.desktop".toList, "m.desktop".toList, "z.desktop".toList] =
      .ok ["a.desktop".toList, "m.desktop".toList, "z.desktop".toList] ∧
    ¬ Prioritised zReplacesA ["a.desktop".toList, "m.desktop".toList, "z.desktop".toList] := by
  have alphabet : sorted ["a.desktop".toList, "m.desktop".toList, "z.desktop".toList] =
      ["a.desktop".toList, "m.desktop".toList, "z.desktop".toList] := by decide
  have chain : NoDescent (precedes zReplacesA)
      ["a.desktop".toList, "m.desktop".toList, "z.desktop".toList] :=
    List.isChain_cons_cons.mpr ⟨by decide, List.isChain_cons_cons.mpr ⟨by decide,
      List.isChain_singleton _⟩⟩
  refine ⟨shortSort_isListSort, zReplacesA_separate, ?_, fun prioritised => ?_⟩
  · rw [sortApps_ok, alphabet, shortSort_of_noDescent _ chain]
    rfl
  · have order := prioritised "z.desktop".toList (by decide) "a.desktop".toList (by decide) (by decide)
    exact absurd order (by decide)

end GnomeBuildMeta.Mimeapps
