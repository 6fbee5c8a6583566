import GnomeBuildMeta.Control.Except
import GnomeBuildMeta.Control.Fuel
import GnomeBuildMeta.UpdateRefs.ElementType

/-!
# The composited sources

BuildStream lets a file override what it includes, and a later include an
earlier one; `(<)` and `(>)` put their entries around the list below.  The search
takes the first list of the first file that gives one, and stops at a mapping.
-/

namespace GnomeBuildMeta.UpdateRefs

open Control

variable {p : Project} {path : Text}

/-! ## Composition -/

/-- The sources of a file over those below it. -/
def compose : Option Sources → Option Sources → Option Sources
  | none, under => under
  | some (.extend before after), some (.list entries) => some (.list (before ++ entries ++ after))
  | some (.extend before after), some (.overwrite entries) => some (.overwrite (before ++ entries ++ after))
  | some (.extend before after), some (.extend first last) => some (.extend (before ++ first) (last ++ after))
  | own, _ => own

/-- The list that is left in the end. -/
def entries : Option Sources → List Source
  | none => []
  | some (.list all) => all
  | some (.overwrite all) => all
  | some (.extend before after) => before ++ after

/-- The composited sources of a file, the last include first. -/
def composited (p : Project) : Nat → Text → Option (Option Sources)
  | 0, _ => none
  | fuel + 1, path =>
      match p.files path with
      | .missing => none
      | .empty => some none
      | .mapping data =>
          data.includes.foldr (fun i node => node.bind fun node =>
            (if ':' ∈ i then some (p.junction i) else composited p fuel i).map (compose node)) (some data.sources)

/-- A file includes another one of the project. -/
def Project.Includes (p : Project) (included path : Text) : Prop :=
  ∃ data, p.files path = .mapping data ∧ included ∈ data.includes ∧ ':' ∉ included

/-- The includes of the project can be composited: none is missing, and there is no cycle. -/
structure Project.Composable (p : Project) : Prop where
  acyclic : WellFounded p.Includes
  complete : ∀ included path, p.Includes included path → p.files included ≠ .missing

/-- The class of the first entry, if there is one. -/
def typeOf (all : List Source) : Option ElementType := all.head?.map sourceType

/-! ## The order of the search -/

/-- The documents depth first, without the includes of freedesktop-sdk. -/
def searchOrder (p : Project) : Nat → Text → Option (List Document)
  | 0, _ => none
  | fuel + 1, path =>
      match p.files path with
      | .mapping data =>
          ((data.includes.filter fun i => ¬ freedesktopSdk <+: i).mapM (searchOrder p fuel)).map fun later =>
            .mapping data :: later.flatten
      | other => some [other]

/-- A document behind which the search goes on. -/
def Silent (document : Document) : Prop :=
  ∃ data, document = .mapping data ∧ (data.sources = none ∨ data.sources = some (.list []))

/--
The first document that is not silent is a file with a list, whose first entry
is that of the composited list, or by chance one of the same class; or all are
silent, and the composited list is empty.  `first_list_of_straight` says when
the list that is met first is the composited one.
-/
inductive Agrees (all : List Source) : List Document → Prop where
  | empty (none : all = []) : Agrees all []
  | silent {d : Document} {order : List Document} (nothing : Silent d) (later : Agrees all order) :
      Agrees all (d :: order)
  | first {data : File} {first : Source} {rest : List Source} {order : List Document}
      (own : data.sources = some (.list (first :: rest))) (same : all.head? = some first) :
      Agrees all (.mapping data :: order)
  | chance {data : File} {first : Source} {rest : List Source} {order : List Document}
      (own : data.sources = some (.list (first :: rest))) (other : all.head? ≠ some first)
      (same : typeOf all = some (sourceType first)) : Agrees all (.mapping data :: order)

/-! ## The search along its order -/

abbrev Outcome := Except Error (Option ElementType)

/-- What a document says alone. -/
def verdictOf : Document → Outcome
  | .missing => .error .fileNotFound
  | .empty => .error .attribute
  | .mapping data =>
      match data.sources with
      | some (.list (first :: _)) => .ok (some (sourceType first))
      | some (.extend _ _) => .error .key
      | some (.overwrite _) => .error .key
      | some (.list []) => .ok none
      | none => .ok none

/-- The first that says anything decides. -/
def orElse : Outcome → Outcome → Outcome
  | .ok none, later => later
  | decided, _ => decided

def verdict (order : List Document) : Outcome := order.foldr (fun d later => orElse (verdictOf d) later) (.ok none)

theorem verdict_append (order later : List Document) :
    verdict (order ++ later) = orElse (verdict order) (verdict later) := by
  induction order with
  | nil => rfl
  | cons d order ih =>
      change orElse (verdictOf d) (verdict (order ++ later)) = orElse (orElse (verdictOf d) (verdict order)) _
      rw [ih]
      cases verdictOf d with
      | error e => rfl
      | ok found => cases found <;> rfl

theorem firstType_cons (getType : Text → Outcome) (i : Text) (rest : List Text) :
    firstType getType (i :: rest) =
      if freedesktopSdk <+: i then firstType getType rest else orElse (getType i) (firstType getType rest) := by
  rw [firstType]
  split
  · rfl
  · cases getType i with
    | error e => rfl
    | ok found => cases found <;> rfl

theorem getElementType_mapping {data : File} (there : p.files path = .mapping data) (fuel : Nat) :
    getElementType p (fuel + 1) path =
      orElse (verdictOf (.mapping data)) (firstType (getElementType p fuel) data.includes) := by
  rw [getElementType, there]
  obtain ⟨sources, includes⟩ := data
  cases sources with
  | none => rfl
  | some sources =>
      cases sources with
      | list all => cases all <;> rfl
      | extend before after => rfl
      | overwrite all => rfl

theorem verdict_eq_iff {order : List Document} {all : List Source} :
    verdict order = .ok (typeOf all) ↔ Agrees all order := by
  constructor
  · intro same
    induction order with
    | nil =>
        refine .empty ?_
        cases all with
        | nil => rfl
        | cons first rest => cases same
    | cons d order ih =>
        change orElse (verdictOf d) (verdict order) = _ at same
        cases d with
        | missing => cases same
        | empty => cases same
        | mapping data =>
            cases own : data.sources with
            | none =>
                simp only [verdictOf, own, orElse] at same
                exact .silent ⟨data, rfl, Or.inl own⟩ (ih same)
            | some sources =>
                cases sources with
                | list given =>
                    cases given with
                    | nil =>
                        simp only [verdictOf, own, orElse] at same
                        exact .silent ⟨data, rfl, Or.inr own⟩ (ih same)
                    | cons first rest =>
                        simp only [verdictOf, own, orElse, Except.ok.injEq] at same
                        by_cases head : all.head? = some first
                        · exact .first own head
                        · exact .chance own head same.symm
                | extend before after =>
                    simp only [verdictOf, own, orElse] at same
                    cases same
                | overwrite given =>
                    simp only [verdictOf, own, orElse] at same
                    cases same
  · intro agrees
    induction agrees with
    | empty none =>
        rw [none]
        rfl
    | silent nothing later ih =>
        obtain ⟨data, rfl, nothing⟩ := nothing
        change orElse (verdictOf (.mapping data)) _ = _
        rcases nothing with own | own <;> rw [verdictOf, own] <;> exact ih
    | @first data first rest order own same =>
        change orElse (verdictOf (.mapping data)) _ = _
        rw [verdictOf, own, typeOf, same]
        rfl
    | @chance data first rest order own other same =>
        change orElse (verdictOf (.mapping data)) _ = _
        rw [verdictOf, own, same]
        rfl

/-! ## Enough fuel -/

/-- The search is along the order that it has with enough fuel. -/
def Searched (p : Project) (path : Text) : Prop :=
  ∃ order, Eventually (fun fuel => searchOrder p fuel path) (some order) ∧
    Eventually (fun fuel => getElementType p fuel path) (verdict order)

theorem searched_of_missing (gone : p.files path = .missing) : Searched p path := by
  refine ⟨[.missing], ?_, ?_⟩
  · refine Eventually.succ (g := fun _ => some [.missing]) (fun fuel => ?_) (.of_forall fun _ => rfl)
    rw [searchOrder, gone]
  · refine Eventually.succ (g := fun _ => .error .fileNotFound) (fun fuel => ?_) (.of_forall fun _ => rfl)
    rw [getElementType, gone]

theorem searched_of_empty (nothing : p.files path = .empty) : Searched p path := by
  refine ⟨[.empty], ?_, ?_⟩
  · refine Eventually.succ (g := fun _ => some [.empty]) (fun fuel => ?_) (.of_forall fun _ => rfl)
    rw [searchOrder, nothing]
  · refine Eventually.succ (g := fun _ => .error .attribute) (fun fuel => ?_) (.of_forall fun _ => rfl)
    rw [getElementType, nothing]

/-- The loop over the includes is along their orders, one behind the other. -/
theorem searched_includes {includes : List Text} (each : ∀ i ∈ includes, Searched p i) :
    ∃ later, Eventually (fun fuel => (includes.filter fun i => ¬ freedesktopSdk <+: i).mapM (searchOrder p fuel))
        (some later) ∧
      Eventually (fun fuel => firstType (getElementType p fuel) includes) (verdict later.flatten) := by
  induction includes with
  | nil => exact ⟨[], .of_forall fun _ => rfl, .of_forall fun _ => rfl⟩
  | cons i includes ih =>
      obtain ⟨⟨order, ordered, found⟩, eachLater⟩ := List.forall_mem_cons.mp each
      obtain ⟨later, orderedLater, foundLater⟩ := ih eachLater
      by_cases skipped : freedesktopSdk <+: i
      · refine ⟨later, ?_, ?_⟩
        · rwa [List.filter_cons_of_neg (by simpa using skipped)]
        · simpa only [firstType_cons, if_pos skipped] using foundLater
      · refine ⟨order :: later, ?_, ?_⟩
        · rw [List.filter_cons_of_pos (by simpa using skipped)]
          simp only [List.mapM_cons]
          exact ordered.map₂ (fun first rest => first >>= fun order => rest >>= fun later => pure (order :: later))
            orderedLater
        · have both := found.map₂ orElse foundLater
          simpa only [firstType_cons, if_neg skipped, List.flatten_cons, verdict_append] using both

theorem searched (acyclic : WellFounded p.Includes) (path : Text) : Searched p path := by
  induction path using acyclic.induction with
  | _ path ih =>
      cases there : p.files path with
      | missing => exact searched_of_missing there
      | empty => exact searched_of_empty there
      | mapping data =>
          have each : ∀ i ∈ data.includes, Searched p i := by
            intro i listed
            by_cases colon : ':' ∈ i
            · exact searched_of_missing (Decidable.not_not.mp fun found => p.local_of_there i found colon)
            · exact ih i ⟨data, there, listed, colon⟩
          obtain ⟨later, ordered, found⟩ := searched_includes each
          refine ⟨.mapping data :: later.flatten, ?_, ?_⟩
          · refine Eventually.succ (fun fuel => ?_) (ordered.map (Option.map fun later => .mapping data :: later.flatten))
            rw [searchOrder, there]
          · exact Eventually.succ (getElementType_mapping there) (found.map (orElse (verdictOf (.mapping data))))

/-- The includes are composited from the last to the first, under the file's own sources. -/
theorem composited_includes {includes : List Text} (own : Option Sources)
    (each : ∀ i ∈ includes, ':' ∉ i → ∃ sources, Eventually (fun fuel => composited p fuel i) (some sources)) :
    ∃ sources, Eventually (fun fuel => includes.foldr (fun i node => node.bind fun node =>
      (if ':' ∈ i then some (p.junction i) else composited p fuel i).map (compose node)) (some own)) (some sources) := by
  induction includes with
  | nil => exact ⟨own, .of_forall fun _ => rfl⟩
  | cons i includes ih =>
      obtain ⟨first, eachLater⟩ := List.forall_mem_cons.mp each
      obtain ⟨node, later⟩ := ih eachLater
      by_cases colon : ':' ∈ i
      · refine ⟨compose node (p.junction i), ?_⟩
        simp only [List.foldr_cons, if_pos colon]
        exact later.map fun node => node.bind fun node => (some (p.junction i)).map (compose node)
      · obtain ⟨sources, here⟩ := first colon
        refine ⟨compose node sources, ?_⟩
        simp only [List.foldr_cons, if_neg colon]
        exact later.map₂ (fun node sources => node.bind fun node => sources.map (compose node)) here

theorem exists_composited (composable : p.Composable) (there : p.files path ≠ .missing) :
    ∃ sources, Eventually (fun fuel => composited p fuel path) (some sources) := by
  induction path using composable.acyclic.induction with
  | _ path ih =>
      cases found : p.files path with
      | missing => exact absurd found there
      | empty =>
          refine ⟨none, Eventually.succ (g := fun _ => some none) (fun fuel => ?_) (.of_forall fun _ => rfl)⟩
          rw [composited, found]
      | mapping data =>
          have each : ∀ i ∈ data.includes, ':' ∉ i →
              ∃ sources, Eventually (fun fuel => composited p fuel i) (some sources) := by
            intro i listed colon
            have included : p.Includes i path := ⟨data, found, listed, colon⟩
            exact ih i included (composable.complete i path included)
          obtain ⟨sources, later⟩ := composited_includes data.sources each
          refine ⟨sources, Eventually.succ (fun fuel => ?_) later⟩
          rw [composited, found]

/--
The search gives the class of the first entry of the composited sources if and
only if its order agrees with them.
-/
theorem getElementType_iff_agrees (composable : p.Composable) (there : p.files path ≠ .missing) :
    ∃ order sources, Eventually (fun fuel => searchOrder p fuel path) (some order) ∧
      Eventually (fun fuel => composited p fuel path) (some sources) ∧
      (Eventually (fun fuel => getElementType p fuel path) (.ok (typeOf (entries sources))) ↔
        Agrees (entries sources) order) := by
  obtain ⟨order, ordered, found⟩ := searched composable.acyclic path
  obtain ⟨sources, whole⟩ := exists_composited composable there
  refine ⟨order, sources, ordered, whole, ?_⟩
  rw [← verdict_eq_iff]
  constructor
  · exact found.unique
  · intro same
    rwa [same] at found

/-! ## Elements that are classified right -/

/-- Neither the file nor what it includes gives sources; of other projects there is only freedesktop-sdk. -/
inductive Bare (p : Project) : Text → Prop where
  | own {path : Text} {data : File} (there : p.files path = .mapping data) (none : data.sources = none)
      (each : ∀ i ∈ data.includes, Bare p i) : Bare p path
  | junction {path : Text} (skipped : freedesktopSdk <+: path) (none : p.junction path = none) : Bare p path

/--
A file has a list of its own; or it has no sources, and one of its includes
leads to a list, the search finds nothing in those before it, and those behind
it do not override it.
-/
inductive Straight (p : Project) : Text → List Source → Prop where
  | own {path : Text} {data : File} {given : List Source} (there : p.files path = .mapping data)
      (list : data.sources = some (.list given)) (some : given ≠ []) : Straight p path given
  | included {path i : Text} {data : File} {before after : List Text} {given : List Source}
      (there : p.files path = .mapping data) (none : data.sources = none)
      (includes : data.includes = before ++ i :: after)
      (quiet : ∀ j ∈ before, freedesktopSdk <+: j ∨ Bare p j) (bare : ∀ j ∈ after, Bare p j)
      (later : Straight p i given) : Straight p path given

theorem colon_mem_of_freedesktopSdk {i : Text} (skipped : freedesktopSdk <+: i) : ':' ∈ i :=
  skipped.subset (by decide)

theorem not_freedesktopSdk_of_there {data : File} (there : p.files path = .mapping data) : ¬ freedesktopSdk <+: path := by
  intro skipped
  exact p.local_of_there path (by rw [there]; nofun) (colon_mem_of_freedesktopSdk skipped)

theorem Straight.there {given : List Source} (straight : Straight p path given) :
    ∃ data, p.files path = .mapping data := by
  cases straight with
  | own there => exact ⟨_, there⟩
  | included there => exact ⟨_, there⟩

theorem silent_of_bare {i : Text} (bare : Bare p i) (searched : ¬ freedesktopSdk <+: i) {fuel : Nat}
    {order : List Document} (ordered : searchOrder p fuel i = some order) : ∀ d ∈ order, Silent d := by
  induction bare generalizing fuel order with
  | junction skipped => exact absurd skipped searched
  | @own path data there none each ih =>
      obtain _ | fuel := fuel
      · cases ordered
      rw [searchOrder, there] at ordered
      obtain ⟨later, orders, rfl⟩ := Option.map_eq_some_iff.mp ordered
      rintro d (_ | ⟨_, listed⟩)
      · exact ⟨data, rfl, Or.inl none⟩
      · obtain ⟨below, among, inside⟩ := List.mem_flatten.mp listed
        obtain ⟨i, kept, here⟩ := exists_of_mapM orders below among
        obtain ⟨included, notSkipped⟩ := List.mem_filter.mp kept
        exact ih i included (by simpa using notSkipped) here d inside

/-- The includes are composited one below the other, the last include first. -/
def compositedAll (p : Project) (fuel : Nat) (own : Option Sources) (includes : List Text) : Option (Option Sources) :=
  includes.foldr (fun i node => node.bind fun node =>
    (if ':' ∈ i then some (p.junction i) else composited p fuel i).map (compose node)) (some own)

theorem compositedAll_cons {fuel : Nat} {own : Option Sources} {i : Text} {includes : List Text}
    {sources : Option Sources} (whole : compositedAll p fuel own (i :: includes) = some sources) :
    ∃ node under, compositedAll p fuel own includes = some node ∧
      (if ':' ∈ i then some (p.junction i) else composited p fuel i) = some under ∧ sources = compose node under := by
  obtain ⟨node, later, here⟩ := Option.bind_eq_some_iff.mp whole
  obtain ⟨under, below, rfl⟩ := Option.map_eq_some_iff.mp here
  exact ⟨node, under, later, below, rfl⟩

theorem compositedAll_append (fuel : Nat) (own : Option Sources) (before after : List Text) :
    compositedAll p fuel own (before ++ after) =
      (compositedAll p fuel own after).bind fun node => compositedAll p fuel node before := by
  induction before with
  | nil => exact (Option.bind_fun_some _).symm
  | cons i before ih =>
      change Option.bind (compositedAll p fuel own (before ++ after)) _ = _
      rw [ih, Option.bind_assoc]
      rfl

/-- Nothing goes below a list. -/
theorem compositedAll_list {given : List Source} {includes : List Text} {fuel : Nat} {sources : Option Sources}
    (whole : compositedAll p fuel (some (.list given)) includes = some sources) : sources = some (.list given) := by
  induction includes generalizing sources with
  | nil =>
      cases whole
      rfl
  | cons i includes ih =>
      obtain ⟨node, under, later, _, rfl⟩ := compositedAll_cons whole
      rw [ih later]
      rfl

/-- Files that give nothing composite to nothing. -/
theorem compositedAll_none {includes : List Text} {fuel : Nat} {sources : Option Sources}
    (each : ∀ i ∈ includes, ∀ under,
      (if ':' ∈ i then some (p.junction i) else composited p fuel i) = some under → under = none)
    (whole : compositedAll p fuel none includes = some sources) : sources = none := by
  induction includes generalizing sources with
  | nil =>
      cases whole
      rfl
  | cons i includes ih =>
      obtain ⟨first, eachLater⟩ := List.forall_mem_cons.mp each
      obtain ⟨node, under, later, below, rfl⟩ := compositedAll_cons whole
      rw [ih eachLater later, first under below]
      rfl

theorem none_of_bare {i : Text} (bare : Bare p i) {fuel : Nat} {under : Option Sources}
    (below : (if ':' ∈ i then some (p.junction i) else composited p fuel i) = some under) : under = none := by
  induction bare generalizing fuel under with
  | junction skipped none =>
      rw [if_pos (colon_mem_of_freedesktopSdk skipped), none] at below
      exact (Option.some.inj below).symm
  | @own path data there none each ih =>
      rw [if_neg (p.local_of_there path (by rw [there]; nofun))] at below
      obtain _ | fuel := fuel
      · cases below
      rw [composited, there] at below
      simp only [none] at below
      exact compositedAll_none (fun i included under found => ih i included found) below

/-- The composited list is the one that the includes lead to. -/
theorem composited_of_straight {given : List Source} (straight : Straight p path given) {fuel : Nat}
    {sources : Option Sources} (whole : composited p fuel path = some sources) : sources = some (.list given) := by
  induction straight generalizing fuel sources with
  | own there list =>
      obtain _ | fuel := fuel
      · cases whole
      rw [composited, there] at whole
      simp only [list] at whole
      exact compositedAll_list whole
  | @included path i data before after given there none includes quiet bare later ih =>
      obtain _ | fuel := fuel
      · cases whole
      rw [composited, there] at whole
      simp only [none] at whole
      change compositedAll p fuel Option.none data.includes = _ at whole
      rw [includes, compositedAll_append] at whole
      obtain ⟨node, below, above⟩ := Option.bind_eq_some_iff.mp whole
      obtain ⟨behind, under, last, here, rfl⟩ := compositedAll_cons below
      obtain ⟨data', there'⟩ := later.there
      rw [if_neg (p.local_of_there i (by rw [there']; nofun))] at here
      rw [compositedAll_none (fun j among _ found => none_of_bare (bare j among) found) last, ih here] at above
      exact compositedAll_list above

/-- Nothing is met before this list in the order of the search. -/
def MeetsFirst (given : List Source) (order : List Document) : Prop :=
  ∃ quiet data later, order = quiet ++ .mapping data :: later ∧ (∀ d ∈ quiet, Silent d) ∧
    data.sources = some (.list given)

theorem searchOrder_of_straight {given : List Source} (straight : Straight p path given) {fuel : Nat}
    {order : List Document} (ordered : searchOrder p fuel path = some order) : MeetsFirst given order := by
  induction straight generalizing fuel order with
  | @own path data given there list =>
      obtain _ | fuel := fuel
      · cases ordered
      rw [searchOrder, there] at ordered
      obtain ⟨later, _, rfl⟩ := Option.map_eq_some_iff.mp ordered
      exact ⟨[], data, later.flatten, rfl, nofun, list⟩
  | @included path i data before after given there none includes quiet bare later ih =>
      obtain _ | fuel := fuel
      · cases ordered
      rw [searchOrder, there] at ordered
      obtain ⟨orders, found, rfl⟩ := Option.map_eq_some_iff.mp ordered
      obtain ⟨data', there'⟩ := later.there
      rw [includes, List.filter_append, List.filter_cons_of_pos (by simpa using not_freedesktopSdk_of_there there'),
        List.mapM_append] at found
      simp only [List.mapM_cons, Option.bind_eq_bind, Option.bind_eq_some_iff] at found
      obtain ⟨first, above, _, ⟨here, orderedHere, rest, _, among⟩, same⟩ := found
      cases among
      cases same
      obtain ⟨silent, data', behind, rfl, nothing, list⟩ := ih orderedHere
      refine ⟨.mapping data :: (first.flatten ++ silent), data', behind ++ rest.flatten, by simp, ?_, list⟩
      rintro d (_ | ⟨_, listed⟩)
      · exact ⟨data, rfl, Or.inl none⟩
      · rcases List.mem_append.mp listed with earlier | among
        · obtain ⟨documents, among, inside⟩ := List.mem_flatten.mp earlier
          obtain ⟨j, kept, found⟩ := exists_of_mapM above documents among
          obtain ⟨included, notSkipped⟩ := List.mem_filter.mp kept
          have searched : ¬ freedesktopSdk <+: j := by simpa using notSkipped
          exact silent_of_bare ((quiet j included).resolve_left searched) searched found d inside
        · exact nothing d among

theorem agrees_of_meetsFirst {given all : List Source} {order : List Document} (meets : MeetsFirst given order)
    (some : given ≠ []) (same : all = given) : Agrees all order := by
  obtain ⟨quiet, data, later, rfl, nothing, list⟩ := meets
  induction quiet with
  | nil =>
      obtain ⟨first, rest, rfl⟩ := List.exists_cons_of_ne_nil some
      exact .first list (by rw [same, List.head?_cons])
  | cons d quiet ih =>
      obtain ⟨silent, nothing⟩ := List.forall_mem_cons.mp nothing
      exact .silent silent (ih nothing)

theorem Straight.ne_nil {given : List Source} (straight : Straight p path given) : given ≠ [] := by
  induction straight with
  | own there list some => exact some
  | included there none includes quiet bare later ih => exact ih

/-- The list that the search meets first is the composited one. -/
theorem first_list_of_straight {given : List Source} (straight : Straight p path given) {order : List Document}
    {sources : Option Sources} (ordered : Eventually (fun fuel => searchOrder p fuel path) (some order))
    (whole : Eventually (fun fuel => composited p fuel path) (some sources)) :
    MeetsFirst given order ∧ entries sources = given ∧ Agrees (entries sources) order := by
  obtain ⟨n, fromN⟩ := ordered
  obtain ⟨m, fromM⟩ := whole
  have meets := searchOrder_of_straight straight (fromN n (Nat.le_refl n))
  have same : entries sources = given := by
    rw [composited_of_straight straight (fromM m (Nat.le_refl m))]
    rfl
  exact ⟨meets, same, agrees_of_meetsFirst meets straight.ne_nil same⟩

/-! ## The scan of the elements -/

/-- The lists with the elements of a list behind them. -/
def Tracked.with (found : Tracked) (types : Text → Option ElementType) (elements : List Text) : Tracked :=
  ⟨found.gnomeElements ++ elements.filter (types · = some .gnome),
    found.dependenciesElements ++ elements.filter (types · = some .dependency)⟩

theorem track_eq {getType : Text → Outcome} {types : Text → Option ElementType} {name : Text}
    (known : getType (join elementsDir name) = .ok (types name)) (found : Tracked) :
    track getType found (join elementsDir name) = .ok (found.with types [name]) := by
  rw [track, known, relpath_join]
  cases same : types name with
  | none => simp [Tracked.with, same, bind, Except.bind, pure, Except.pure]
  | some type => cases type <;> simp [Tracked.with, same, bind, Except.bind, pure, Except.pure]

theorem Tracked.with_cons (found : Tracked) (types : Text → Option ElementType) (name : Text) (elements : List Text) :
    found.with types (name :: elements) = (found.with types [name]).with types elements := by
  simp only [Tracked.with, List.append_assoc, ← List.filter_append, List.singleton_append]

theorem foldlM_track_eventually {elements : List Text} {types : Text → Option ElementType}
    (each : ∀ name ∈ elements,
      Eventually (fun fuel => getElementType p fuel (join elementsDir name)) (.ok (types name)))
    (found : Tracked) : Eventually
      (fun fuel => (elements.map (join elementsDir)).foldlM (track (getElementType p fuel)) found)
      (.ok (found.with types elements)) := by
  induction elements generalizing found with
  | nil =>
      refine .of_forall fun _ => ?_
      rw [Tracked.with, List.filter_nil, List.filter_nil, List.append_nil, List.append_nil]
      rfl
  | cons name elements ih =>
      obtain ⟨⟨n, fromN⟩, eachLater⟩ := List.forall_mem_cons.mp each
      have first : Eventually (fun fuel => track (getElementType p fuel) found (join elementsDir name))
          (.ok (found.with types [name])) :=
        ⟨n, fun fuel enough => track_eq (fromN fuel enough) found⟩
      simp only [List.map_cons, List.foldlM_cons]
      rw [Tracked.with_cons]
      exact first.bind (k := fun fuel tracked =>
        tracked >>= (elements.map (join elementsDir)).foldlM (track (getElementType p fuel))) (ih eachLater _)

/--
If the search agrees for every file below `elements`, the scan lists the files
by their composited sources, each by its name below that directory.
-/
theorem scan_eventually (composable : p.Composable) {elements : List Text} {sources : Text → Option Sources}
    (agrees : ∀ name ∈ elements, ∀ order,
      Eventually (fun fuel => searchOrder p fuel (join elementsDir name)) (some order) →
        Agrees (entries (sources name)) order) :
    Eventually (fun fuel => scan (getElementType p fuel) (elements.map (join elementsDir)))
      (.ok (Tracked.with ⟨[], []⟩ (fun name => typeOf (entries (sources name))) elements)) := by
  refine foldlM_track_eventually (fun name listed => ?_) _
  obtain ⟨order, ordered, found⟩ := searched composable.acyclic (join elementsDir name)
  rwa [verdict_eq_iff.mpr (agrees name listed order ordered)] at found

/-! ## Projects of a few files -/

theorem mem_of_lookup {table : List (Text × Document)} {name : Text} {d : Document}
    (found : table.lookup name = some d) : (name, d) ∈ table := by
  obtain ⟨before, after, whole, _⟩ := List.lookup_eq_some_iff.mp found
  rw [whole]
  exact List.mem_append_right _ List.mem_cons_self

/-- A project with the files of a table; no other project gives sources. -/
def ofTable (table : List (Text × Document)) (names : ∀ name ∈ table.map Prod.fst, ':' ∉ name) : Project where
  files name := (table.lookup name).getD .missing
  junction _ := none
  local_of_there name there := by
    cases found : table.lookup name with
    | none => exact absurd (by rw [found]; rfl) there
    | some d => exact names name (List.mem_map_of_mem (mem_of_lookup found))

def Document.includes : Document → List Text
  | .mapping data => data.includes
  | _ => []

theorem composable_ofTable {table : List (Text × Document)} {names : ∀ name ∈ table.map Prod.fst, ':' ∉ name}
    (rank : Text → Nat) (checked : ∀ entry ∈ table, ∀ i ∈ entry.2.includes,
      rank i < rank entry.1 ∧ (table.lookup i).getD .missing ≠ .missing) : (ofTable table names).Composable := by
  have all : ∀ i name, (ofTable table names).Includes i name →
      rank i < rank name ∧ (table.lookup i).getD .missing ≠ .missing := by
    rintro i name ⟨data, there, listed, _⟩
    refine checked (name, .mapping data) (mem_of_lookup ?_) i listed
    cases found : table.lookup name with
    | none => simp [ofTable, found] at there
    | some d => simpa [ofTable, found] using there
  constructor
  · exact Subrelation.wf (fun included => (all _ _ included).1) (InvImage.wf rank Nat.lt_wfRel.wf)
  · exact fun i name included => (all i name included).2

def gitSource : Source := ⟨some "git_repo".toList, some "gnome:glib.git".toList⟩

def tarSource : Source := ⟨some "tar".toList, none⟩

/-- `a.bst` includes a list. -/
def oneList : Project :=
  ofTable [("a.bst".toList, .mapping ⟨none, ["x.inc".toList]⟩),
    ("x.inc".toList, .mapping ⟨some (.list [gitSource]), []⟩)] (by decide)

/-- `a.bst` appends to the list that it includes. -/
def appendedList : Project :=
  ofTable [("a.bst".toList, .mapping ⟨some (.extend [] [tarSource]), ["x.inc".toList]⟩),
    ("x.inc".toList, .mapping ⟨some (.list [gitSource]), []⟩)] (by decide)

/-- `a.bst` includes two lists. -/
def twoLists : Project :=
  ofTable [("a.bst".toList, .mapping ⟨none, ["x.inc".toList, "y.inc".toList]⟩),
    ("x.inc".toList, .mapping ⟨some (.list [gitSource]), []⟩),
    ("y.inc".toList, .mapping ⟨some (.list [tarSource]), []⟩)] (by decide)

/-- Only `a.bst` includes anything. -/
def rank (name : Text) : Nat := if name = "a.bst".toList then 1 else 0

theorem oneList_type : ∃ order sources,
    Eventually (fun fuel => searchOrder oneList fuel "a.bst".toList) (some order) ∧
      Eventually (fun fuel => composited oneList fuel "a.bst".toList) (some sources) ∧
      (Eventually (fun fuel => getElementType oneList fuel "a.bst".toList) (.ok (typeOf (entries sources))) ↔
        Agrees (entries sources) order) :=
  getElementType_iff_agrees (composable_ofTable rank (by decide)) (by decide)

/-- The search stops at the directive with an error, and takes the first of two included lists. -/
theorem composited_not_found :
    (appendedList.Composable ∧
        Eventually (fun fuel => composited appendedList fuel "a.bst".toList)
          (some (some (.list [gitSource, tarSource]))) ∧
        Eventually (fun fuel => getElementType appendedList fuel "a.bst".toList) (.error .key)) ∧
      twoLists.Composable ∧
        Eventually (fun fuel => composited twoLists fuel "a.bst".toList) (some (some (.list [tarSource]))) ∧
        typeOf [tarSource] = some .notTrackable ∧
        Eventually (fun fuel => getElementType twoLists fuel "a.bst".toList) (.ok (some .gnome)) :=
  ⟨⟨composable_ofTable rank (by decide), .of_add 2 fun _ => rfl, .of_add 2 fun _ => rfl⟩,
    composable_ofTable rank (by decide), .of_add 2 fun _ => rfl, rfl, .of_add 2 fun _ => rfl⟩

end GnomeBuildMeta.UpdateRefs
