import GnomeBuildMeta.Mimeapps.Incubating
import GnomeBuildMeta.Mimeapps.Reproducible
import Mathlib.Data.List.Dedup

/-!
# Overrides

An override takes the place of the applications that were found for its type,
and the tracking data keeps what it replaced.  The overrides are applied one
after the other to the dictionary from which the tracking data is taken.
-/

namespace GnomeBuildMeta.Mimeapps

open Containers Control

/-- The value of an override. -/
inductive Override where
  | app (name : Text)
  | apps (names : List Text)

namespace Override

def value : Override → Value
  | .app name => .string name
  | .apps names => .array (names.map .string)

/-- The applications of an override; for an empty list there is no line. -/
def replacement : Override → Option (List Text)
  | .app name => some [name ++ suffix]
  | .apps [] => none
  | .apps (name :: names) => some ((name :: names).map (· ++ suffix))

end Override

/-- The overrides of a quirks file, if it has any. -/
structure Overriding (quirks : Table) (overrides : List (Text × Override)) : Prop where
  nodup : (overrides.map Prod.fst).Nodup
  written : ∀ value, quirks.lookup "override".toList = some value →
    value = .table (overrides.map fun o => (o.1, o.2.value))

/-! ## What is to be written -/

section Output

variable (listSort : (Text → Text → Bool) → List Text → List Text) (quirks : Table)
  (overrides : List (Text × Override)) (apps : List App)

def skips (id : Text) : Bool :=
  isIn (removesuffix id suffix) (quirks.lookup "skip_apps".toList) = .ok true

/-- The applications that support a type and are not skipped. -/
def supporters : Text → List Text := listed (skips quirks) apps

def replacing : Table :=
  match quirks.lookup "incubating".toList with
  | some (.table entries) => entries
  | _ => []

/-- The result of both sorts. -/
def sortedApps (ids : List Text) : List Text :=
  if ids.length < 2 then sorted ids else listSort (precedes (replacing quirks)) (sorted ids)

/-- The sorted applications of a type that has any. -/
def found (type : Text) : Option (List Text) :=
  if supporters quirks apps type = [] then none
  else some (sortedApps listSort quirks (supporters quirks apps type))

/-- The applications on the line of a type. -/
def defaults (type : Text) : Option (List Text) :=
  match overrides.lookup type with
  | some override => override.replacement
  | none => found listSort quirks apps type

/-- What is tracked for a type: its applications without its override. -/
def tracked (type : Text) : Text :=
  match defaults listSort quirks (overrides.filter fun o => o.1 ≠ type) apps type with
  | some ids => [' '].intercalate ids
  | none => "<none>".toList

def headingText : Text :=
  match quirks.lookup "heading".toList with
  | some (.string text) => text
  | _ => []

def defaultLine (type : Text) : Text :=
  match defaults listSort quirks overrides apps type with
  | some ids => type ++ ['='] ++ [';'].intercalate ids ++ ['\n']
  | none => []

def trackingLine (type : Text) : Text :=
  "#OVERRIDE ".toList ++ type ++ " WAS ".toList ++ tracked listSort quirks overrides apps type ++ ['\n']

/-- The types of the applications and of the overrides. -/
def mentioned : List Text := (apps.flatMap App.types ++ overrides.map Prod.fst).dedup

def output : Text :=
  strip (headingText quirks) ++ "\n\n[Default Applications]\n".toList ++
    (sorted (mentioned overrides apps)).flatMap (defaultLine listSort quirks overrides apps) ++
    if overrides = [] then []
    else
      "\n# Tracking data to catch stale overrides:\n".toList ++
        (sorted (overrides.map Prod.fst)).flatMap (trackingLine listSort quirks overrides apps)

/-- What the script needs of the quirks file besides the overrides themselves. -/
structure Readable : Prop where
  dataDirs : ∃ dirs, join [':'] (quirks.lookup "datadirs".toList) = .ok dirs ∧ '\u0000' ∉ dirs
  skipApps : ∀ app ∈ apps, ∃ skipped,
    isIn (removesuffix app.id suffix) (quirks.lookup "skip_apps".toList) = .ok skipped
  incubating : ∀ type, 2 ≤ (supporters quirks apps type).length →
    ∃ entries, quirks.lookup "incubating".toList = some (.table entries)
  override : ∃ value, quirks.lookup "override".toList = some value
  heading : ∃ text, quirks.lookup "heading".toList = some (.string text)

/-- No line is taken away that is not there. -/
def Removable : Prop :=
  ∀ type, overrides.lookup type = some (.apps []) → supporters quirks apps type ≠ []

end Output

/-! ## One override after the other -/

/-- The lookups of the two dictionaries. -/
structure Overrides.Holds (s : Overrides) (types : Text → Option (List Text))
    (overridden : Text → Option Text) : Prop where
  types : ∀ type, s.types.lookup type = types type
  overridden : ∀ type, s.overridden.lookup type = overridden type

/-- What was found, as it is tracked. -/
def tracking : Option (List Text) → Text
  | some ids => [' '].intercalate ids
  | none => "<none>".toList

variable {s : Overrides} {types : Text → Option (List Text)} {overridden : Text → Option Text}

theorem asString_names (names : List Text) :
    (names.map Value.string).mapM asString = .ok names := by
  induction names with
  | nil => rfl
  | cons name names ih =>
      rw [List.map_cons, List.mapM_cons, ih]
      rfl

/-- What an override does to a type that has not been overridden yet. -/
theorem Overrides.apply_value {ty : Text} (unseen : s.overridden.lookup ty = none)
    (override : Override) :
    s.apply (ty, override.value) =
      let overridden := s.overridden.set ty (tracking (s.types.lookup ty))
      match override with
      | .app name => .ok ⟨s.types.set ty [name ++ suffix], overridden⟩
      | .apps [] =>
          if (s.types.lookup ty).isSome then .ok ⟨s.types.erase ty, overridden⟩
          else .error .keyError
      | .apps (name :: names) =>
          .ok ⟨s.types.set ty ((name :: names).map (· ++ suffix)), overridden⟩ := by
  cases override with
  | app name => cases known : s.types.lookup ty <;> simp only [Overrides.apply, unseen, known] <;> rfl
  | apps names =>
      cases names with
      | nil => cases known : s.types.lookup ty <;> simp only [Overrides.apply, unseen, known] <;> rfl
      | cons name names =>
          have strings := asString_names (name :: names)
          rw [List.map_cons] at strings
          cases known : s.types.lookup ty <;>
            simp only [Overrides.apply, Override.value, List.map_cons, unseen, known, strings] <;> rfl

/-- An override that comes for the first time, and removes a line only if there is one. -/
theorem Overrides.Holds.apply (holds : s.Holds types overridden) {ty : Text} {override : Override}
    (fresh : overridden ty = none) (there : override = .apps [] → types ty ≠ none) :
    ∃ s', s.apply (ty, override.value) = .ok s' ∧
      s'.Holds (Function.update types ty override.replacement)
        (Function.update overridden ty (some (tracking (types ty)))) := by
  have tracks : ∀ type, (s.overridden.set ty (tracking (types ty))).lookup type =
      Function.update overridden ty (some (tracking (types ty))) type := by
    intro type
    rw [Dict.lookup_set, Function.update_apply, holds.overridden]
  have replaces : ∀ ids type, (s.types.set ty ids).lookup type =
      Function.update types ty (some ids) type := by
    intro ids type
    rw [Dict.lookup_set, Function.update_apply, holds.types]
  have unseen : s.overridden.lookup ty = none := (holds.overridden ty).trans fresh
  have line : s.types.lookup ty = types ty := holds.types ty
  rw [Overrides.apply_value unseen, line]
  cases override with
  | app name => exact ⟨_, rfl, replaces _, tracks⟩
  | apps names =>
      cases names with
      | nil =>
          refine ⟨⟨s.types.erase ty, _⟩, ?_, fun type => ?_, tracks⟩
          · exact if_pos (Option.isSome_iff_ne_none.mpr (there rfl))
          · rw [Dict.lookup_erase, Function.update_apply, holds.types]
            rfl
      | cons name names => exact ⟨_, rfl, replaces _, tracks⟩

theorem Overrides.Holds.apply_error (holds : s.Holds types overridden) {ty : Text}
    (fresh : overridden ty = none) (absent : types ty = none) :
    s.apply (ty, (Override.apps []).value) = .error .keyError := by
  rw [Overrides.apply_value ((holds.overridden ty).trans fresh), holds.types, absent]
  rfl

/-- The lines after all the overrides. -/
def overlay (overrides : List (Text × Override)) (types : Text → Option (List Text)) (type : Text) :
    Option (List Text) :=
  match overrides.lookup type with
  | some override => override.replacement
  | none => types type

/-- The tracking data after all the overrides. -/
def track (overrides : List (Text × Override)) (types : Text → Option (List Text))
    (overridden : Text → Option Text) (type : Text) : Option Text :=
  match overrides.lookup type with
  | some _ => some (tracking (types type))
  | none => overridden type

def overrideEntries (overrides : List (Text × Override)) : Table :=
  overrides.map fun o => (o.1, o.2.value)

theorem lookup_eq_none {overrides : List (Text × Override)} {ty : Text}
    (fresh : ty ∉ overrides.map Prod.fst) : overrides.lookup ty = none := by
  rw [List.lookup_eq_none_iff]
  intro o inside
  exact bne_iff_ne.mpr fun same => fresh (same ▸ List.mem_map_of_mem inside)

/-- A run over overrides of types that have not been overridden yet. -/
theorem Overrides.Holds.foldlM {overrides : List (Text × Override)}
    (nodup : (overrides.map Prod.fst).Nodup) (holds : s.Holds types overridden)
    (fresh : ∀ type ∈ overrides.map Prod.fst, overridden type = none)
    (there : ∀ type, overrides.lookup type = some (.apps []) → types type ≠ none) :
    ∃ s', (overrideEntries overrides).foldlM Overrides.apply s = .ok s' ∧
      s'.Holds (overlay overrides types) (track overrides types overridden) := by
  induction overrides generalizing s types overridden with
  | nil => exact ⟨s, rfl, holds⟩
  | cons o rest ih =>
      obtain ⟨ty, override⟩ := o
      obtain ⟨other, nodup⟩ := List.nodup_cons.mp nodup
      have last := lookup_eq_none other
      have thereFirst : override = .apps [] → types ty ≠ none := by
        rintro rfl
        exact there ty List.lookup_cons_self
      obtain ⟨s₁, one, holds₁⟩ := holds.apply (fresh ty List.mem_cons_self) thereFirst
      have differs : ∀ type ∈ rest.map Prod.fst, type ≠ ty := by
        rintro type inside rfl
        exact other inside
      have keyOf : ∀ {type o'}, rest.lookup type = some o' → type ≠ ty := by
        rintro type o' found rfl
        rw [last] at found
        cases found
      obtain ⟨s', others, holds'⟩ := ih nodup holds₁
        (by
          intro type inside
          rw [Function.update_of_ne (differs type inside)]
          exact fresh type (List.mem_cons_of_mem _ inside))
        (by
          intro type found
          rw [Function.update_of_ne (keyOf found)]
          refine there type ?_
          rw [List.lookup_cons, beq_eq_false_iff_ne.mpr (keyOf found)]
          exact found)
      refine ⟨s', bind_ok_iff.mpr ⟨s₁, one, others⟩, fun type => ?_, fun type => ?_⟩
      · rw [holds'.types, overlay, overlay, List.lookup_cons]
        by_cases same : type = ty
        · rw [same, last, beq_self_eq_true]
          exact Function.update_self ty _ _
        · rw [beq_eq_false_iff_ne.mpr same, Function.update_of_ne same]
      · rw [holds'.overridden, track, track, List.lookup_cons]
        by_cases same : type = ty
        · rw [same, last, beq_self_eq_true]
          exact Function.update_self ty _ _
        · rw [beq_eq_false_iff_ne.mpr same, Function.update_of_ne same, Function.update_of_ne same]

/-- A run that comes to its end has found every line that it took away. -/
theorem Overrides.Holds.there_of_foldlM {overrides : List (Text × Override)}
    (nodup : (overrides.map Prod.fst).Nodup) (holds : s.Holds types overridden)
    (fresh : ∀ type ∈ overrides.map Prod.fst, overridden type = none) {s' : Overrides}
    (run : (overrideEntries overrides).foldlM Overrides.apply s = .ok s') :
    ∀ type, overrides.lookup type = some (.apps []) → types type ≠ none := by
  induction overrides generalizing s types overridden with
  | nil =>
      intro type found
      cases found
  | cons o rest ih =>
      obtain ⟨ty, override⟩ := o
      obtain ⟨other, nodup⟩ := List.nodup_cons.mp nodup
      obtain ⟨s₁, one, others⟩ := bind_ok_iff.mp run
      have thereFirst : override = .apps [] → types ty ≠ none := by
        rintro rfl absent
        rw [show s.apply (ty, (Override.apps []).value) = _ from
          holds.apply_error (fresh ty List.mem_cons_self) absent] at one
        cases one
      obtain ⟨s₂, again, holds₂⟩ := holds.apply (fresh ty List.mem_cons_self) thereFirst
      cases one.symm.trans again
      intro type found
      by_cases same : type = ty
      · rw [same, List.lookup_cons_self] at found
        rw [same]
        exact thereFirst (Option.some.inj found)
      · rw [List.lookup_cons, beq_eq_false_iff_ne.mpr same] at found
        have later := ih nodup holds₂
          (by
            intro type inside
            rw [Function.update_of_ne (by rintro rfl; exact other inside)]
            exact fresh type (List.mem_cons_of_mem _ inside)) others type found
        rwa [Function.update_of_ne same] at later

/-! ## The whole run -/

section Run

variable {listSort : (Text → Text → Bool) → List Text → List Text} {quirks : Table}
  {overrides : List (Text × Override)} {apps : List App}

/-- The applications of a type are those that name it, if none names it twice. -/
theorem supporters_eq_filter (distinct : ∀ app ∈ apps, app.types.Nodup) (type : Text) :
    supporters quirks apps type =
      (apps.filter fun app => !skips quirks app.id && decide (type ∈ app.types)).map App.id := by
  induction apps with
  | nil => rfl
  | cons app rest ih =>
      obtain ⟨first, others⟩ := List.forall_mem_cons.mp distinct
      rw [supporters, listed] at ih ⊢
      rw [List.flatMap_cons, ih others, List.filter_cons, List.filter_eq type]
      cases skips quirks app.id with
      | true => rfl
      | false =>
          by_cases named : type ∈ app.types
          · rw [List.count_eq_one_of_mem first named]
            simp [named]
          · rw [List.count_eq_zero_of_not_mem named]
            simp [named]

theorem isIn_skips {id : Text} {skipped : Bool}
    (tests : isIn (removesuffix id suffix) (quirks.lookup "skip_apps".toList) = .ok skipped) :
    skips quirks id = skipped := by
  rw [skips, tests]
  cases skipped <;> rfl

theorem load_ok (readable : ∀ app ∈ apps, ∃ skipped,
    isIn (removesuffix app.id suffix) (quirks.lookup "skip_apps".toList) = .ok skipped) :
    ∃ types, load (quirks.lookup "skip_apps".toList) apps = .ok types ∧
      Gathers types (supporters quirks apps) := by
  rcases isIn_cases (quirks.lookup "skip_apps".toList) with fails | ⟨tests, each⟩
  · cases apps with
    | nil => exact ⟨Dict.empty, rfl, Gathers.empty⟩
    | cons app rest =>
        obtain ⟨skipped, impossible⟩ := readable app List.mem_cons_self
        rw [fails] at impossible
        cases impossible
  · have same : skips quirks = fun id => tests (removesuffix id suffix) :=
      funext fun id => isIn_skips (each _)
    rw [supporters, same]
    exact load_gathers each apps

theorem skipApps_of_load {types : Types}
    (run : load (quirks.lookup "skip_apps".toList) apps = .ok types) :
    ∀ app ∈ apps, ∃ skipped,
      isIn (removesuffix app.id suffix) (quirks.lookup "skip_apps".toList) = .ok skipped := by
  intro app inside
  rcases isIn_cases (quirks.lookup "skip_apps".toList) with fails | ⟨tests, each⟩
  · rw [load_error fails (List.ne_nil_of_mem inside)] at run
    cases run
  · exact ⟨_, each _⟩

theorem sortApps_sortedApps {ids : List Text}
    (table : 2 ≤ ids.length → ∃ entries, quirks.lookup "incubating".toList = some (.table entries)) :
    sortApps listSort (quirks.lookup "incubating".toList) ids =
      .ok (sortedApps listSort quirks ids) := by
  unfold sortApps sortedApps
  by_cases few : ids.length < 2
  · rw [if_pos few, if_pos few]
  · obtain ⟨entries, known⟩ := table (by omega)
    rw [if_neg few, if_neg few, replacing, known]
    rfl

theorem table_of_sortApps {ids ids' : List Text}
    (sorts : sortApps listSort (quirks.lookup "incubating".toList) ids = .ok ids')
    (many : 2 ≤ ids.length) :
    ∃ entries, quirks.lookup "incubating".toList = some (.table entries) := by
  unfold sortApps at sorts
  rw [if_neg (by omega)] at sorts
  split at sorts
  · next entries known => exact ⟨entries, known⟩
  · cases sorts

/-- Every list of the dictionary is sorted, or the run stops. -/
theorem mapM_sortApps (listSort : (Text → Text → Bool) → List Text → List Text) {types : Types}
    (gathers : Gathers types (supporters quirks apps))
    (table : ∀ type, 2 ≤ (supporters quirks apps type).length →
      ∃ entries, quirks.lookup "incubating".toList = some (.table entries)) :
    ∃ types', types.mapM (sortApps listSort (quirks.lookup "incubating".toList)) = .ok types' ∧
      ∀ type, types'.lookup type = found listSort quirks apps type := by
  have sorts : ∀ {type ids}, types.lookup type = some ids →
      supporters quirks apps type ≠ [] ∧
        sortApps listSort (quirks.lookup "incubating".toList) ids =
          .ok (sortedApps listSort quirks (supporters quirks apps type)) := by
    intro type ids known
    rw [gathers] at known
    split at known
    · cases known
    · next some' =>
      cases known
      exact ⟨some', sortApps_sortedApps (table type)⟩
  cases run : types.mapM (sortApps listSort (quirks.lookup "incubating".toList)) with
  | error e =>
      obtain ⟨⟨type, ids⟩, inside, fails⟩ := Dict.mapM_eq_error run
      rw [(sorts (Dict.lookup_eq_some_iff.mpr inside)).2] at fails
      cases fails
  | ok types' =>
      refine ⟨types', rfl, fun type => Option.ext fun ids => ?_⟩
      rw [Dict.lookup_mapM run, found]
      split
      · next none' =>
        rw [gathers, if_pos none']
        simp
      · next some' =>
        have known := gathers type
        rw [if_neg some'] at known
        rw [known]
        constructor
        · rintro ⟨_, same, made⟩
          rw [← Option.some.inj same, (sorts known).2] at made
          exact congrArg some (Except.ok.inj made)
        · intro same
          refine ⟨_, rfl, ?_⟩
          rw [(sorts known).2, Option.some.inj same]

theorem table_of_mapM {types types' : Types} (gathers : Gathers types (supporters quirks apps))
    (run : types.mapM (sortApps listSort (quirks.lookup "incubating".toList)) = .ok types')
    (type : Text) (many : 2 ≤ (supporters quirks apps type).length) :
    ∃ entries, quirks.lookup "incubating".toList = some (.table entries) := by
  have known := gathers type
  rw [if_neg (List.ne_nil_of_length_pos (by omega))] at known
  obtain ⟨_, _, made⟩ :=
    (mapM_mem (Dict.mapM_eq_ok run)).2 _ (Dict.lookup_eq_some_iff.mp known)
  exact table_of_sortApps (Dict.map_eq_ok_iff.mp made).2 many

/-! ## The text -/

theorem defaults_eq_overlay : defaults listSort quirks overrides apps =
    overlay overrides (found listSort quirks apps) := rfl

theorem tracked_eq (type : Text) :
    tracked listSort quirks overrides apps type = tracking (found listSort quirks apps type) := by
  have gone : (overrides.filter fun o => o.1 ≠ type).lookup type = none := by
    refine lookup_eq_none fun inside => ?_
    obtain ⟨o, kept, same⟩ := List.mem_map.mp inside
    exact of_decide_eq_true (List.mem_filter.mp kept).2 same
  rw [tracked, defaults, gone]
  rfl

theorem mem_mentioned_of_defaults {type : Text}
    (there : defaults listSort quirks overrides apps type ≠ none) : type ∈ mentioned overrides apps := by
  rw [mentioned, List.mem_dedup, List.mem_append]
  by_cases overridden : type ∈ overrides.map Prod.fst
  · exact Or.inr overridden
  · refine Or.inl ?_
    rw [defaults, lookup_eq_none overridden] at there
    have some' : supporters quirks apps type ≠ [] := fun none' => there (if_pos none')
    obtain ⟨id, inside⟩ := List.exists_mem_of_ne_nil _ some'
    obtain ⟨app, known, of⟩ := List.mem_flatMap.mp inside
    refine List.mem_flatMap.mpr ⟨app, known, ?_⟩
    split at of
    · cases of
    · obtain ⟨other, kept, _⟩ := List.mem_map.mp of
      obtain ⟨named, same⟩ := List.mem_filter.mp kept
      exact of_decide_eq_true same ▸ named

theorem sorted_filter (texts : List Text) (keep : Text → Bool) :
    (sorted texts).filter keep = sorted (texts.filter keep) := by
  have inOrder : ((sorted texts).filter keep).SortedLE :=
    (List.sortedLE_insertionSort.pairwise.sublist List.filter_sublist).sortedLE
  refine List.Perm.eq_of_sortedLE inOrder List.sortedLE_insertionSort ?_
  exact ((sorted_perm texts).filter keep).trans (sorted_perm _).symm

theorem flatMap_filter {α β : Type} {keep : α → Bool} {lines lines' : α → List β} {list : List α}
    (kept : ∀ a ∈ list, keep a = true → lines a = lines' a)
    (left : ∀ a ∈ list, keep a = false → lines' a = []) :
    (list.filter keep).flatMap lines = list.flatMap lines' := by
  induction list with
  | nil => rfl
  | cons a rest ih =>
      obtain ⟨first, kept⟩ := List.forall_mem_cons.mp kept
      obtain ⟨none', left⟩ := List.forall_mem_cons.mp left
      rw [List.filter_cons, List.flatMap_cons]
      cases here : keep a with
      | true => rw [if_pos rfl, List.flatMap_cons, first here, ih kept left]
      | false => rw [if_neg Bool.false_ne_true, none' here, ih kept left, List.nil_append]

theorem sorted_keys {s : Overrides}
    (lookups : ∀ type, s.types.lookup type = defaults listSort quirks overrides apps type) :
    sorted s.types.keys = (sorted (mentioned overrides apps)).filter fun type =>
      (defaults listSort quirks overrides apps type).isSome := by
  rw [sorted_filter]
  refine insertionSort_eq_of_perm ?_
  refine (List.perm_ext_iff_of_nodup s.types.nodup ((List.nodup_dedup _).filter _)).mpr fun type => ?_
  change type ∈ s.types.keys ↔ _
  rw [Dict.mem_keys_iff, lookups, List.mem_filter]
  constructor
  · intro there
    exact ⟨mem_mentioned_of_defaults (Option.isSome_iff_ne_none.mp there), there⟩
  · exact fun both => both.2

theorem overridden_keys_perm {s : Overrides} (nodup : (overrides.map Prod.fst).Nodup)
    (lookups : ∀ type, s.overridden.lookup type =
      track overrides (found listSort quirks apps) (fun _ => none) type) :
    s.overridden.keys.Perm (overrides.map Prod.fst) := by
  refine (List.perm_ext_iff_of_nodup s.overridden.nodup nodup).mpr fun type => ?_
  change type ∈ s.overridden.keys ↔ _
  rw [Dict.mem_keys_iff, lookups, track]
  cases known : overrides.lookup type with
  | none =>
      have absent := List.lookup_eq_none_iff.mp known
      simp only [Option.isSome_none, Bool.false_eq_true, false_iff]
      intro inside
      obtain ⟨o, member, rfl⟩ := List.mem_map.mp inside
      exact bne_iff_ne.mp (absent o member) rfl
  | some override =>
      simp only [Option.isSome_some, true_iff]
      by_contra fresh
      rw [lookup_eq_none fresh] at known
      cases known

theorem render_eq_output {s : Overrides} (nodup : (overrides.map Prod.fst).Nodup)
    (holds : s.Holds (overlay overrides (found listSort quirks apps))
      (track overrides (found listSort quirks apps) fun _ => none)) :
    render (strip (headingText quirks)) s = output listSort quirks overrides apps := by
  have keys := overridden_keys_perm nodup holds.overridden
  have lines : (sorted s.types.keys).flatMap (fun type =>
        type ++ ['='] ++ [';'].intercalate ((s.types.lookup type).getD []) ++ ['\n']) =
      (sorted (mentioned overrides apps)).flatMap (defaultLine listSort quirks overrides apps) := by
    rw [sorted_keys holds.types]
    refine flatMap_filter (fun type _ there => ?_) fun type _ absent => ?_
    · obtain ⟨ids, known⟩ := Option.isSome_iff_exists.mp there
      rw [holds.types, ← defaults_eq_overlay, defaultLine, known]
      rfl
    · rw [defaultLine, Option.not_isSome_iff_eq_none.mp (Bool.eq_false_iff.mp absent)]
  have tracks : (sorted s.overridden.keys).flatMap (fun type =>
        "#OVERRIDE ".toList ++ type ++ " WAS ".toList ++ (s.overridden.lookup type).getD [] ++
          ['\n']) =
      (sorted (overrides.map Prod.fst)).flatMap (trackingLine listSort quirks overrides apps) := by
    have same : sorted s.overridden.keys = sorted (overrides.map Prod.fst) :=
      insertionSort_eq_of_perm keys
    refine (congrArg (List.flatMap _) same).trans (List.flatMap_congr fun type inside => ?_)
    have member : type ∈ s.overridden.keys := keys.mem_iff.mpr ((sorted_perm _).subset inside)
    rw [Dict.mem_keys_iff, holds.overridden, track] at member
    have data : s.overridden.lookup type = some (tracked listSort quirks overrides apps type) := by
      rw [holds.overridden, track, tracked_eq]
      split at member
      · rfl
      · cases member
    unfold trackingLine
    simp only [data, Option.getD_some]
  have none' : s.overridden.keys = [] ↔ overrides = [] := by
    rw [← List.map_eq_nil_iff (f := Prod.fst) (l := overrides)]
    constructor
    · intro empty
      exact (empty ▸ keys).symm.eq_nil
    · intro empty
      exact (empty ▸ keys).eq_nil
  rw [render, output, lines, tracks]
  by_cases empty : overrides = []
  · rw [if_pos (none'.mpr empty), if_pos empty]
  · rw [if_neg (fun keys => empty (none'.mp keys)), if_neg empty]

/-! ## Every type has its line -/

theorem found_eq_none_iff {type : Text} :
    found listSort quirks apps type = none ↔ supporters quirks apps type = [] := by
  rw [found]
  split
  · next none' => exact ⟨fun _ => none', fun _ => rfl⟩
  · next some' =>
    constructor
    · intro impossible
      cases impossible
    · exact fun none' => absurd none' some'

/-- The steps of a run that writes its output. -/
theorem generate_eq_ok_iff {text : Text} :
    generate listSort quirks apps = .ok text ↔
      ∃ dirs, join [':'] (quirks.lookup "datadirs".toList) = .ok dirs ∧ '\u0000' ∉ dirs ∧
      ∃ types, load (quirks.lookup "skip_apps".toList) apps = .ok types ∧
      ∃ types', types.mapM (sortApps listSort (quirks.lookup "incubating".toList)) = .ok types' ∧
      ∃ entries, items (quirks.lookup "override".toList) = .ok entries ∧
      ∃ s, entries.foldlM Overrides.apply ⟨types', Dict.empty⟩ = .ok s ∧
      ∃ heading, stripHeading (quirks.lookup "heading".toList) = .ok heading ∧
        render heading s = text := by
  unfold generate
  rw [bind_ok_iff]
  refine exists_congr fun dirs => and_congr_right fun _ => ?_
  by_cases bad : '\u0000' ∈ dirs
  · rw [if_pos bad]
    constructor
    · intro impossible
      cases impossible
    · exact fun clean => absurd bad clean.1
  · rw [if_neg bad]
    refine (bind_ok_iff.trans ?_).trans (and_iff_right bad).symm
    refine exists_congr fun types => and_congr_right fun _ => bind_ok_iff.trans ?_
    refine exists_congr fun types' => and_congr_right fun _ => bind_ok_iff.trans ?_
    refine exists_congr fun entries => and_congr_right fun _ => bind_ok_iff.trans ?_
    refine exists_congr fun s => and_congr_right fun _ => bind_ok_iff.trans ?_
    exact exists_congr fun heading => and_congr_right fun _ => ⟨Except.ok.inj, congrArg _⟩

theorem generate_eq_output (overriding : Overriding quirks overrides) (readable : Readable quirks apps)
    (removable : Removable quirks overrides apps) :
    generate listSort quirks apps = .ok (output listSort quirks overrides apps) := by
  obtain ⟨dirs, joined, clean⟩ := readable.dataDirs
  obtain ⟨types, loaded, gathers⟩ := load_ok readable.skipApps
  obtain ⟨types', sorts, lookups⟩ := mapM_sortApps listSort gathers readable.incubating
  obtain ⟨value, present⟩ := readable.override
  obtain ⟨text, heading⟩ := readable.heading
  have start : Overrides.Holds ⟨types', Dict.empty⟩ (found listSort quirks apps) fun _ => none :=
    ⟨lookups, fun _ => rfl⟩
  obtain ⟨s, run, holds⟩ := start.foldlM overriding.nodup (fun _ _ => rfl) fun type emptied absent =>
    removable type emptied (found_eq_none_iff.mp absent)
  have entries : items (quirks.lookup "override".toList) = .ok (overrideEntries overrides) := by
    rw [present, overriding.written value present]
    rfl
  have stripped : stripHeading (quirks.lookup "heading".toList) = .ok (strip (headingText quirks)) := by
    rw [headingText, heading]
    rfl
  exact generate_eq_ok_iff.mpr ⟨dirs, joined, clean, types, loaded, types', sorts, _, entries, s, run, _,
    stripped, render_eq_output overriding.nodup holds⟩

theorem readable_of_generate (overriding : Overriding quirks overrides) {text : Text}
    (run : generate listSort quirks apps = .ok text) :
    Readable quirks apps ∧ Removable quirks overrides apps := by
  obtain ⟨dirs, joined, clean, types, loaded, types', sorts, entries, opened, s, applied, heading,
    stripped, -⟩ := generate_eq_ok_iff.mp run
  have skipApps := skipApps_of_load loaded
  obtain ⟨_, loaded', gathers⟩ := load_ok skipApps
  cases loaded.symm.trans loaded'
  have incubating := table_of_mapM gathers sorts
  obtain ⟨_, sorts', lookups⟩ := mapM_sortApps listSort gathers incubating
  cases sorts.symm.trans sorts'
  have start : Overrides.Holds ⟨types', Dict.empty⟩ (found listSort quirks apps) fun _ => none :=
    ⟨lookups, fun _ => rfl⟩
  cases present : quirks.lookup "override".toList with
  | none =>
      rw [present] at opened
      cases opened
  | some value =>
      rw [present, overriding.written value present] at opened
      cases opened
      refine ⟨⟨⟨dirs, joined, clean⟩, skipApps, incubating, ⟨value, present⟩, ?_⟩, ?_⟩
      · unfold stripHeading at stripped
        split at stripped
        · next text known => exact ⟨text, known⟩
        · cases stripped
      · intro type emptied none'
        exact start.there_of_foldlM overriding.nodup (fun _ _ => rfl) applied type emptied
          (found_eq_none_iff.mpr none')

/--
The output is complete unless an empty list overrides a type that no application
supports: the tracking data allows for such a type, the removal does not.
-/
theorem generate_eq_output_iff (overriding : Overriding quirks overrides) :
    generate listSort quirks apps = .ok (output listSort quirks overrides apps) ↔
      Readable quirks apps ∧ Removable quirks overrides apps :=
  ⟨readable_of_generate overriding, fun both => generate_eq_output overriding both.1 both.2⟩

end Run

/-- The quirks take the default away from one type. -/
def emptiedQuirks : Table :=
  [("heading".toList, .string "# Made\n".toList),
    ("datadirs".toList, .array [.string "/usr/share".toList]),
    ("skip_apps".toList, .array []),
    ("incubating".toList, .table []),
    ("override".toList, .table [("c/d".toList, .array [])])]

def emptied : List (Text × Override) := [("c/d".toList, .apps [])]

theorem emptied_overriding : Overriding emptiedQuirks emptied where
  nodup := List.nodup_singleton _
  written := by
    intro value found
    cases found
    rfl

theorem emptied_readable (apps : List App) : Readable emptiedQuirks apps where
  dataDirs := ⟨_, rfl, by decide⟩
  skipApps := fun _ _ => ⟨_, rfl⟩
  incubating := fun _ _ => ⟨_, rfl⟩
  override := ⟨_, rfl⟩
  heading := ⟨_, rfl⟩

theorem supported_type_emptied :
    generate stableSort emptiedQuirks [⟨"core.desktop".toList, ["a/b".toList, "c/d".toList]⟩] =
      .ok (output stableSort emptiedQuirks emptied
        [⟨"core.desktop".toList, ["a/b".toList, "c/d".toList]⟩]) := by
  refine (generate_eq_output_iff emptied_overriding).mpr ⟨emptied_readable _, fun type found => ?_⟩
  by_cases same : type = "c/d".toList
  · rw [same]
    decide
  · rw [lookup_eq_none (by simpa [emptied] using same)] at found
    cases found

/-- The last application of the type is gone, and so is the output. -/
theorem unsupported_type_emptied :
    Overriding emptiedQuirks emptied ∧
      Readable emptiedQuirks [⟨"core.desktop".toList, ["a/b".toList]⟩] ∧
      generate stableSort emptiedQuirks [⟨"core.desktop".toList, ["a/b".toList]⟩] =
        .error .keyError ∧
      generate stableSort emptiedQuirks [⟨"core.desktop".toList, ["a/b".toList]⟩] ≠
        .ok (output stableSort emptiedQuirks emptied [⟨"core.desktop".toList, ["a/b".toList]⟩]) := by
  have stops : generate stableSort emptiedQuirks [⟨"core.desktop".toList, ["a/b".toList]⟩] =
      .error .keyError := by decide +kernel
  refine ⟨emptied_overriding, emptied_readable _, stops, ?_⟩
  rw [stops]
  intro impossible
  cases impossible

example : output stableSort emptiedQuirks emptied
      [⟨"core.desktop".toList, ["a/b".toList, "c/d".toList]⟩] =
    "# Made\n\n[Default Applications]\na/b=core.desktop\n\n".toList ++
      "# Tracking data to catch stale overrides:\n#OVERRIDE c/d WAS core.desktop\n".toList := by
  decide +kernel

end GnomeBuildMeta.Mimeapps
