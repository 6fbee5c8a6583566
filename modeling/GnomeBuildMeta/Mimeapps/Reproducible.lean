import GnomeBuildMeta.Mimeapps.Generate

/-!
# The output does not depend on the enumeration

The order in which applications and types are found decides the order of the
dictionary and of its lists.  The first sort takes the one away, the sorted keys
of the output the other, and everything in between goes by lookups.
-/

namespace GnomeBuildMeta.Mimeapps

open Containers Control

/-- The same applications in another order, each with its types in another order. -/
def Rearranged (apps apps' : List App) : Prop :=
  ∃ middle, apps.Perm middle ∧
    List.Forall₂ (fun a b => a.id = b.id ∧ a.types.Perm b.types) middle apps'

/-! ## What is gathered -/

/-- The ids that are gathered for a type, in the order of encounter. -/
def listed (skips : Text → Bool) (apps : List App) (type : Text) : List Text :=
  apps.flatMap fun app =>
    if skips app.id then [] else (app.types.filter (· = type)).map fun _ => app.id

/-- The lists of a dictionary; a type without any is no key. -/
def Gathers (types : Types) (g : Text → List Text) : Prop :=
  ∀ type, types.lookup type = if g type = [] then none else some (g type)

theorem Gathers.empty : Gathers Dict.empty fun _ => [] := fun _ => rfl

theorem Gathers.addType {types : Types} {g : Text → List Text} (gathers : Gathers types g)
    (id type : Text) :
    Gathers (addType id types type) fun other => if other = type then g other ++ [id] else g other := by
  intro other
  have found := gathers type
  have added : Mimeapps.addType id types type = types.set type (g type ++ [id]) := by
    rw [Mimeapps.addType, found]
    by_cases none' : g type = []
    · rw [if_pos none', none']
      rfl
    · rw [if_neg none']
  rw [added, Dict.lookup_set]
  by_cases same : other = type
  · subst same
    simp
  · simp only [if_neg same]
    exact gathers other

theorem Gathers.addTypes {types : Types} {g : Text → List Text} (gathers : Gathers types g)
    (id : Text) (found : List Text) :
    Gathers (found.foldl (Mimeapps.addType id) types) fun type =>
      g type ++ (found.filter (· = type)).map fun _ => id := by
  induction found generalizing types g with
  | nil => simpa using gathers
  | cons first rest ih =>
      have later := ih (gathers.addType id first)
      refine fun type => (later type).trans ?_
      by_cases same : first = type
      · subst same
        simp
      · have other : type ≠ first := fun equal => same equal.symm
        simp [other, same]

/-- Membership in a value fails for every text or for none. -/
theorem isIn_cases (value : Option Value) :
    (∀ text, isIn text value = .error .typeError) ∨
      ∃ skips : Text → Bool, ∀ text, isIn text value = .ok (skips text) := by
  match value with
  | none => exact Or.inl fun _ => rfl
  | some .other => exact Or.inl fun _ => rfl
  | some (.string _) => exact Or.inr ⟨_, fun _ => rfl⟩
  | some (.array _) => exact Or.inr ⟨_, fun _ => rfl⟩
  | some (.table _) => exact Or.inr ⟨_, fun _ => rfl⟩

section Load

variable {skipApps : Option Value} {skips : Text → Bool}

theorem load_gathers (tests : ∀ text, isIn text skipApps = .ok (skips text)) (apps : List App) :
    ∃ types, load skipApps apps = .ok types ∧
      Gathers types (listed (fun id => skips (removesuffix id suffix)) apps) := by
  have general : ∀ (apps : List App) {types : Types} {g : Text → List Text}, Gathers types g →
      ∃ types', apps.foldlM (addApp skipApps) types = .ok types' ∧
        Gathers types' fun type =>
          g type ++ listed (fun id => skips (removesuffix id suffix)) apps type := by
    intro apps
    induction apps with
    | nil =>
        intro types g gathers
        exact ⟨types, rfl, by simpa [listed] using gathers⟩
    | cons app rest ih =>
        intro types g gathers
        rw [List.foldlM_cons, addApp, tests]
        cases skipped : skips (removesuffix app.id suffix) with
        | true =>
            obtain ⟨types', done, gathers'⟩ := ih gathers
            refine ⟨types', done, fun type => (gathers' type).trans ?_⟩
            simp [listed, skipped]
        | false =>
            obtain ⟨types', done, gathers'⟩ := ih (gathers.addTypes app.id app.types)
            refine ⟨types', done, fun type => (gathers' type).trans ?_⟩
            simp [listed, skipped]
  obtain ⟨types, done, gathers⟩ := general apps Gathers.empty
  exact ⟨types, done, by simpa using gathers⟩

theorem load_error (fails : ∀ text, isIn text skipApps = .error .typeError) {apps : List App}
    (proper : apps ≠ []) : load skipApps apps = .error .typeError := by
  cases apps with
  | nil => exact absurd rfl proper
  | cons app rest =>
      rw [load, List.foldlM_cons, addApp, fails]
      rfl

end Load

/-! ## Two enumerations -/

theorem Rearranged.length_eq {apps apps' : List App} (rearranged : Rearranged apps apps') :
    apps.length = apps'.length := by
  obtain ⟨middle, perm, pairs⟩ := rearranged
  exact perm.length_eq.trans pairs.length_eq

theorem Rearranged.listed_perm {apps apps' : List App} (rearranged : Rearranged apps apps')
    (skips : Text → Bool) (type : Text) :
    (listed skips apps type).Perm (listed skips apps' type) := by
  obtain ⟨middle, perm, pairs⟩ := rearranged
  refine (perm.flatMap_right _).trans ?_
  clear perm
  induction pairs with
  | nil => exact .refl _
  | cons pair _ ih =>
      obtain ⟨sameId, types⟩ := pair
      rw [List.flatMap_cons, listed, List.flatMap_cons, sameId]
      refine List.Perm.append ?_ ih
      split
      · exact .refl _
      · exact (types.filter _).map _

variable (listSort : (Text → Text → Bool) → List Text → List Text)

/-- The first sort makes the order of encounter irrelevant for the second. -/
theorem sortApps_eq_of_perm (incubating : Option Value) {apps apps' : List Text}
    (perm : apps.Perm apps') :
    sortApps listSort incubating apps = sortApps listSort incubating apps' := by
  have same : sorted apps = sorted apps' := insertionSort_eq_of_perm perm
  unfold sortApps
  rw [perm.length_eq, same]

theorem sortApps_error {incubating : Option Value} {apps : List Text} {e : Error}
    (failed : sortApps listSort incubating apps = .error e) : e = .attributeError := by
  unfold sortApps at failed
  split at failed
  · cases failed
  · split at failed
    · cases failed
    · cases failed
      rfl

theorem agree_load (skipApps incubating : Option Value) {apps apps' : List App}
    (rearranged : Rearranged apps apps') :
    Agree (fun types types' : Types => ∀ type,
        (types.lookup type).map (sortApps listSort incubating) =
          (types'.lookup type).map (sortApps listSort incubating))
      (load skipApps apps) (load skipApps apps') := by
  rcases isIn_cases skipApps with fails | ⟨skips, tests⟩
  · cases apps with
    | nil =>
        have empty := List.eq_nil_of_length_eq_zero rearranged.length_eq.symm
        rw [empty]
        exact .ok fun _ => rfl
    | cons app rest =>
        have proper : apps' ≠ [] := by
          rintro rfl
          cases rearranged.length_eq
        rw [load_error fails (List.cons_ne_nil _ _), load_error fails proper]
        exact .error _
  · obtain ⟨types, done, gathers⟩ := load_gathers tests apps
    obtain ⟨types', done', gathers'⟩ := load_gathers tests apps'
    rw [done, done']
    refine .ok fun type => ?_
    have perm := rearranged.listed_perm (fun id => skips (removesuffix id suffix)) type
    rw [gathers, gathers']
    by_cases none' : listed (fun id => skips (removesuffix id suffix)) apps type = []
    · have none'' : listed (fun id => skips (removesuffix id suffix)) apps' type = [] := by
        rw [none'] at perm
        exact perm.symm.eq_nil
      rw [if_pos none', if_pos none'']
    · have some' : listed (fun id => skips (removesuffix id suffix)) apps' type ≠ [] := by
        intro empty
        rw [empty] at perm
        exact none' perm.eq_nil
      rw [if_neg none', if_neg some', Option.map_some, Option.map_some,
        sortApps_eq_of_perm listSort incubating perm]

/-! ## After the sorts -/

/-- The dictionaries of types differ in their order at most. -/
structure Overrides.Same (s s' : Overrides) : Prop where
  types : s.types.Same s'.types
  overridden : s.overridden = s'.overridden

theorem Overrides.Same.apply {s s' : Overrides} (same : s.Same s') (override : Text × Value) :
    Agree Overrides.Same (s.apply override) (s'.apply override) := by
  obtain ⟨types, overridden⟩ := s
  obtain ⟨types', overridden'⟩ := s'
  obtain ⟨sameTypes, rfl⟩ := same
  obtain ⟨ty, value⟩ := override
  simp only [Overrides.apply, sameTypes ty]
  split
  · split
    · exact .ok ⟨sameTypes.erase ty, rfl⟩
    · exact .error _
  · refine (Agree.refl _).bind fun names _ same => ?_
    subst same
    exact .ok ⟨sameTypes.set ty _, rfl⟩
  · refine (Agree.refl _).bind fun name _ same => ?_
    subst same
    exact .ok ⟨sameTypes.set ty _, rfl⟩

theorem render_eq {heading : Text} {s s' : Overrides} (same : s.Same s') :
    render heading s = render heading s' := by
  have keys : sorted s.types.keys = sorted s'.types.keys := insertionSort_eq_of_perm same.types.keys_perm
  have lookups : s.types.lookup = s'.types.lookup := funext same.types
  rw [render, render, keys, lookups, same.overridden]

/-- Two runs on rearranged applications write the same or fail in the same way. -/
theorem generate_eq_of_rearranged (quirks : Table) {apps apps' : List App}
    (rearranged : Rearranged apps apps') :
    generate listSort quirks apps = generate listSort quirks apps' := by
  refine Agree.eq ?_
  unfold generate
  refine (Agree.refl _).bind fun dataDirs _ same => ?_
  subst same
  split
  · exact .error _
  · refine (agree_load listSort (quirks.lookup "skip_apps".toList)
      (quirks.lookup "incubating".toList) rearranged).bind fun types types' each => ?_
    refine (Dict.agree_mapM each fun _ _ failed => sortApps_error listSort failed).bind
      fun types types' sameTypes => ?_
    refine (Agree.refl _).bind fun overrides _ same => ?_
    subst same
    have start : Overrides.Same ⟨types, Dict.empty⟩ ⟨types', Dict.empty⟩ := ⟨sameTypes, rfl⟩
    refine (Agree.foldlM (fun _ _ x same => Overrides.Same.apply same x) start).bind
      fun s s' same => ?_
    refine (Agree.refl _).bind fun heading _ same' => ?_
    subst same'
    exact .ok (render_eq same)

/-- A stable sort, for a comparison that is consistent on the list. -/
def stableSort (less : Text → Text → Bool) (texts : List Text) : List Text :=
  texts.insertionSort fun a b => less b a = false

def someQuirks : Table :=
  [("heading".toList, .string "# Made\n".toList),
    ("datadirs".toList, .array [.string "/usr/share".toList]),
    ("skip_apps".toList, .array []),
    ("incubating".toList, .table [("new".toList, .string "core".toList)]),
    ("override".toList, .table [("a/b".toList, .string "core".toList)])]

theorem two_orders_same :
    generate stableSort someQuirks
        [⟨"core.desktop".toList, ["a/b".toList, "c/d".toList]⟩, ⟨"new.desktop".toList, ["c/d".toList]⟩] =
      generate stableSort someQuirks
        [⟨"new.desktop".toList, ["c/d".toList]⟩, ⟨"core.desktop".toList, ["c/d".toList, "a/b".toList]⟩] :=
  generate_eq_of_rearranged stableSort someQuirks
    ⟨_, .swap _ _ _, .cons ⟨rfl, .refl _⟩ (.cons ⟨rfl, .swap _ _ _⟩ .nil)⟩

example : generate stableSort someQuirks
      [⟨"core.desktop".toList, ["c/d".toList]⟩, ⟨"new.desktop".toList, ["c/d".toList]⟩] =
    .ok ("# Made\n\n[Default Applications]\na/b=core.desktop\n".toList ++
      "c/d=new.desktop;core.desktop\n\n".toList ++
      "# Tracking data to catch stale overrides:\n#OVERRIDE a/b WAS <none>\n".toList) := by
  decide +kernel

end GnomeBuildMeta.Mimeapps
