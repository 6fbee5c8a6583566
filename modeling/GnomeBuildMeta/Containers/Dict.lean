import GnomeBuildMeta.Control.Except
import GnomeBuildMeta.Control.TwoRuns
import Mathlib.Data.List.Lex
import Mathlib.Data.List.Sort

/-!
# Dictionaries in the order of insertion

A dictionary keeps its keys in the order in which they came.  Two dictionaries
with the same lookups have the same keys up to their order, and what is computed
from the sorted keys and the lookups cannot tell them apart.
-/

namespace GnomeBuildMeta.Containers

structure Dict (α β : Type) where
  entries : List (α × β)
  nodup : (entries.map Prod.fst).Nodup

namespace Dict

variable {α β γ ε : Type} [DecidableEq α]

def empty : Dict α β := ⟨[], List.nodup_nil⟩

def keys (d : Dict α β) : List α := d.entries.map Prod.fst

def lookup (d : Dict α β) (k : α) : Option β := d.entries.lookup k

/-- The value of a key, in its place or at the end. -/
def set (d : Dict α β) (k : α) (v : β) : Dict α β where
  entries :=
    if k ∈ d.entries.map Prod.fst then d.entries.map fun e => if e.1 = k then (k, v) else e
    else d.entries ++ [(k, v)]
  nodup := by
    split
    case isTrue =>
      have same : (d.entries.map fun e => if e.1 = k then (k, v) else e).map Prod.fst =
          d.entries.map Prod.fst := by
        rw [List.map_map]
        refine List.map_congr_left fun e _ => ?_
        by_cases here : e.1 = k
        · simp [here]
        · simp [here]
      rw [same]
      exact d.nodup
    case isFalse fresh =>
      rw [List.map_append, List.map_singleton]
      refine List.nodup_append.mpr ⟨d.nodup, List.nodup_singleton _, fun a inside b last => ?_⟩
      rw [List.mem_singleton.mp last]
      rintro rfl
      exact fresh inside

def erase (d : Dict α β) (k : α) : Dict α β where
  entries := d.entries.filter fun e => e.1 ≠ k
  nodup := d.nodup.sublist (List.filter_sublist.map _)

omit [DecidableEq α] in
theorem keys_of_mapM {f : β → Except ε γ} {entries : List (α × β)} {entries' : List (α × γ)}
    (done : (entries.mapM fun e => (f e.2).map fun v => (e.1, v)) = .ok entries') :
    entries'.map Prod.fst = entries.map Prod.fst := by
  have pairs := Control.mapM_ok_iff.mp done
  clear done
  induction pairs with
  | nil => rfl
  | @cons e e' _ _ one _ ih =>
      cases value : f e.2 with
      | error _ =>
          rw [value] at one
          cases one
      | ok v =>
          rw [value] at one
          cases one
          rw [List.map_cons, List.map_cons, ih]

/-- Every value is replaced, unless one of them fails. -/
def mapM (f : β → Except ε γ) (d : Dict α β) : Except ε (Dict α γ) :=
  match done : d.entries.mapM fun e => (f e.2).map fun v => (e.1, v) with
  | .error e => .error e
  | .ok entries => .ok ⟨entries, (keys_of_mapM done).symm ▸ d.nodup⟩

/-! ## Lookups -/

variable {d d' : Dict α β} {k k' : α} {v : β}

theorem lookup_eq_some_iff : d.lookup k = some v ↔ (k, v) ∈ d.entries := by
  obtain ⟨entries, nodup⟩ := d
  change entries.lookup k = some v ↔ (k, v) ∈ entries
  induction entries with
  | nil => simp
  | cons e entries ih =>
      obtain ⟨key, value⟩ := e
      obtain ⟨fresh, nodup⟩ := List.nodup_cons.mp nodup
      rw [List.lookup_cons, List.mem_cons]
      by_cases same : k = key
      · subst same
        have absent : (k, v) ∉ entries := fun inside =>
          fresh (List.mem_map.mpr ⟨(k, v), inside, rfl⟩)
        simp [absent, eq_comm]
      · have differ : (k == key) = false := by simpa using same
        rw [differ]
        simp [same, ih nodup]

theorem mem_keys_iff : k ∈ d.keys ↔ (d.lookup k).isSome = true := by
  rw [Option.isSome_iff_exists, keys, List.mem_map]
  constructor
  · rintro ⟨⟨key, value⟩, inside, rfl⟩
    exact ⟨value, lookup_eq_some_iff.mpr inside⟩
  · rintro ⟨value, found⟩
    exact ⟨(k, value), lookup_eq_some_iff.mp found, rfl⟩

theorem lookup_eq_none_iff : d.lookup k = none ↔ k ∉ d.keys := by
  rw [mem_keys_iff, Option.not_isSome_iff_eq_none]

theorem lookup_set : (d.set k v).lookup k' = if k' = k then some v else d.lookup k' := by
  refine Option.ext fun w => ?_
  rw [lookup_eq_some_iff]
  by_cases present : k ∈ d.entries.map Prod.fst
  · have entries : (d.set k v).entries = d.entries.map fun e => if e.1 = k then (k, v) else e :=
      if_pos present
    rw [entries, List.mem_map]
    by_cases same : k' = k
    · subst same
      rw [if_pos rfl, Option.some_inj]
      constructor
      · rintro ⟨e, inside, replaced⟩
        split at replaced
        · exact congrArg Prod.snd replaced
        · rename_i other
          exact absurd (congrArg Prod.fst replaced) other
      · rintro rfl
        obtain ⟨e, inside, key⟩ := List.mem_map.mp present
        exact ⟨e, inside, if_pos key⟩
    · rw [if_neg same, lookup_eq_some_iff]
      constructor
      · rintro ⟨e, inside, replaced⟩
        split at replaced
        · exact absurd (congrArg Prod.fst replaced).symm same
        · exact replaced ▸ inside
      · exact fun inside => ⟨_, inside, if_neg same⟩
  · have entries : (d.set k v).entries = d.entries ++ [(k, v)] := if_neg present
    rw [entries, List.mem_append, List.mem_singleton, ← lookup_eq_some_iff]
    by_cases same : k' = k
    · subst same
      rw [if_pos rfl, lookup_eq_none_iff.mpr present]
      simp [eq_comm]
    · simp [same]

theorem lookup_erase : (d.erase k).lookup k' = if k' = k then none else d.lookup k' := by
  refine Option.ext fun w => ?_
  rw [lookup_eq_some_iff]
  change (k', w) ∈ d.entries.filter (fun e => e.1 ≠ k) ↔ _
  rw [List.mem_filter, ← lookup_eq_some_iff]
  by_cases same : k' = k <;> simp [same]

omit [DecidableEq α] in
theorem map_eq_ok_iff {f : β → Except ε γ} {e : α × β} {e' : α × γ} :
    (f e.2).map (fun v => (e.1, v)) = .ok e' ↔ e'.1 = e.1 ∧ f e.2 = .ok e'.2 := by
  obtain ⟨key, value⟩ := e'
  cases f e.2 with
  | error _ => simp [Except.map]
  | ok v => simp [Except.map, eq_comm]

omit [DecidableEq α] in
theorem mapM_eq_ok {f : β → Except ε γ} {d : Dict α β} {d' : Dict α γ} (done : d.mapM f = .ok d') :
    (d.entries.mapM fun e => (f e.2).map fun v => (e.1, v)) = .ok d'.entries := by
  rw [mapM] at done
  split at done
  · cases done
  · cases done
    assumption

omit [DecidableEq α] in
theorem mapM_eq_error {f : β → Except ε γ} {d : Dict α β} {e : ε} (failed : d.mapM f = .error e) :
    ∃ entry ∈ d.entries, f entry.2 = .error e := by
  rw [mapM] at failed
  split at failed
  · rename_i e' run
    cases failed
    obtain ⟨entry, inside, fails⟩ := Control.mapM_error run
    refine ⟨entry, inside, ?_⟩
    cases value : f entry.2 with
    | error e' =>
        rw [value] at fails
        cases fails
        rfl
    | ok v =>
        rw [value] at fails
        cases fails
  · cases failed

theorem lookup_mapM {f : β → Except ε γ} {d' : Dict α γ} (done : d.mapM f = .ok d') {w : γ} :
    d'.lookup k = some w ↔ ∃ v, d.lookup k = some v ∧ f v = .ok w := by
  obtain ⟨back, forth⟩ := Control.mapM_mem (mapM_eq_ok done)
  simp only [lookup_eq_some_iff]
  constructor
  · intro inside
    obtain ⟨e, source, made⟩ := back _ inside
    obtain ⟨key, value⟩ := map_eq_ok_iff.mp made
    refine ⟨e.2, ?_, value⟩
    rw [show k = e.1 from key]
    exact source
  · rintro ⟨v, inside, value⟩
    obtain ⟨e', result, made⟩ := forth _ inside
    obtain ⟨key, value'⟩ := map_eq_ok_iff.mp made
    have same : e'.2 = w := Except.ok.inj (value'.symm.trans value)
    rw [← same, ← show e'.1 = k from key]
    exact result

/-! ## Dictionaries with the same lookups -/

def Same (d d' : Dict α β) : Prop := ∀ k, d.lookup k = d'.lookup k

theorem Same.keys_perm (same : d.Same d') : d.keys.Perm d'.keys := by
  refine (List.perm_ext_iff_of_nodup d.nodup d'.nodup).mpr fun k => ?_
  change k ∈ d.keys ↔ k ∈ d'.keys
  rw [mem_keys_iff, mem_keys_iff, same k]

theorem Same.set (same : d.Same d') (k : α) (v : β) : (d.set k v).Same (d'.set k v) := fun other => by
  rw [lookup_set, lookup_set, same other]

theorem Same.erase (same : d.Same d') (k : α) : (d.erase k).Same (d'.erase k) := fun other => by
  rw [lookup_erase, lookup_erase, same other]

/-- If a value fails, then so does the value of the other dictionary. -/
theorem mapM_error_of_error {f : β → Except ε γ} {e : ε}
    (each : ∀ k, (d.lookup k).map f = (d'.lookup k).map f)
    (error : ∀ v e', f v = .error e' → e' = e) {e' : ε} (failed : d.mapM f = .error e') :
    d'.mapM f = .error e := by
  obtain ⟨⟨k, v⟩, inside, fails⟩ := mapM_eq_error failed
  have values := each k
  rw [lookup_eq_some_iff.mpr inside, Option.map_some] at values
  obtain ⟨v', found, same⟩ := Option.map_eq_some_iff.mp values.symm
  cases other : d'.mapM f with
  | error e'' =>
      obtain ⟨entry, _, fails'⟩ := mapM_eq_error other
      rw [error _ _ fails']
  | ok r =>
      obtain ⟨_, _, made⟩ := (Control.mapM_mem (mapM_eq_ok other)).2 _ (lookup_eq_some_iff.mp found)
      have value := (map_eq_ok_iff.mp made).2
      rw [show f v' = .error e' from same.trans fails] at value
      cases value

/-- If the values of each key give the same, so do the dictionaries. -/
theorem agree_mapM {f : β → Except ε γ} {e : ε}
    (each : ∀ k, (d.lookup k).map f = (d'.lookup k).map f)
    (error : ∀ v e', f v = .error e' → e' = e) :
    Control.Agree Same (d.mapM f) (d'.mapM f) := by
  cases first : d.mapM f with
  | error e' =>
      obtain ⟨entry, _, fails⟩ := mapM_eq_error first
      rw [mapM_error_of_error each error first, error _ _ fails]
      exact .error e
  | ok r =>
      cases second : d'.mapM f with
      | error e' =>
          rw [mapM_error_of_error (fun k => (each k).symm) error second] at first
          cases first
      | ok r' =>
          refine .ok fun k => Option.ext fun w => ?_
          have values : (∃ v, d.lookup k = some v ∧ f v = .ok w) ↔
              ∃ v, d'.lookup k = some v ∧ f v = .ok w := by
            rw [← Option.map_eq_some_iff, ← Option.map_eq_some_iff, each k]
          rw [lookup_mapM first, lookup_mapM second, values]

end Dict

theorem insertionSort_eq_of_perm {α : Type} [LinearOrder α] {l l' : List α} (perm : l.Perm l') :
    l.insertionSort (· ≤ ·) = l'.insertionSort (· ≤ ·) :=
  List.Perm.eq_of_sortedLE List.sortedLE_insertionSort List.sortedLE_insertionSort
    ((List.perm_insertionSort _ _).trans (perm.trans (List.perm_insertionSort _ _).symm))

end GnomeBuildMeta.Containers
