import GnomeBuildMeta.Initramfs.UnitSyntax

/-!
# Reading unit files

The lines of a unit file are the lines of its content, and a section of its map
has a key exactly if an assignment stands in a section of that name.
-/

namespace GnomeBuildMeta.Initramfs

/-! ## Lines -/

theorem IsLine.append {first second : Chars} (one : IsLine first) (two : IsLine second) :
    IsLine (first ++ second) := by
  intro c inside
  rcases List.mem_append.mp inside with here | there
  · exact one c here
  · exact two c there

theorem isLine_backslash : IsLine ['\\'] := by
  intro c inside
  rw [List.mem_singleton.mp inside]
  decide

theorem IsKey.assignment {key value : Chars} (isKey : IsKey key) (isLine : IsLine value) :
    IsLine (assignment key value) := by
  refine isKey.isLine.append fun c inside => ?_
  rcases List.mem_cons.mp inside with rfl | later
  · decide
  · exact isLine c later

theorem Inner.Proper.isLine {i : Inner} (proper : i.Proper) : IsLine i.text := by
  cases i with
  | comment line => exact proper.1
  | part line => exact (IsPart.isLine proper).append isLine_backslash

theorem isLine_of_mem_openLines {key first : Chars} {inner : List Inner} (isKey : IsKey key)
    (isLine : IsLine first) (proper : ∀ i ∈ inner, i.Proper) {line : Chars}
    (member : line ∈ openLines key first inner) : IsLine line := by
  rcases List.mem_cons.mp member with rfl | later
  · exact isKey.assignment (isLine.append isLine_backslash)
  · obtain ⟨i, inside, rfl⟩ := List.mem_map.mp later
    exact (proper i inside).isLine

theorem Item.Proper.isLine {item : Item} (proper : item.Proper) {line : Chars}
    (member : line ∈ item.lines) : IsLine line := by
  cases item with
  | header name =>
      rw [List.mem_singleton.mp member]
      intro c inside
      rcases List.mem_cons.mp inside with rfl | later
      · decide
      · rcases List.mem_append.mp later with here | last
        · exact proper c here
        · rw [List.mem_singleton.mp last]
          decide
  | blank space =>
      rw [List.mem_singleton.mp member]
      intro c inside
      have space : c = ' ' ∨ c = '\t' := by simpa [isBlank] using proper c inside
      rcases space with rfl | rfl
      · decide
      · decide
  | comment line =>
      rw [List.mem_singleton.mp member]
      exact proper.1
  | assign key value =>
      rw [List.mem_singleton.mp member]
      exact proper.1.assignment proper.2.1
  | continued key first inner last =>
      obtain ⟨isKey, isLine, inside, isPart, _⟩ := proper
      rcases List.mem_append.mp member with early | final
      · exact isLine_of_mem_openLines isKey isLine inside early
      · rw [List.mem_singleton.mp final]
        exact isPart.isLine

theorem UnitText.isLine (u : UnitText) {line : Chars} (member : line ∈ u.lines) : IsLine line := by
  rcases List.mem_append.mp member with inItems | inRest
  · obtain ⟨item, inside, here⟩ := List.mem_flatMap.mp inItems
    exact (u.proper item inside).isLine here
  · cases broken : u.rest with
    | none =>
        rw [broken] at inRest
        cases inRest
    | some b =>
        rw [broken] at inRest
        obtain ⟨isKey, isLine, inner⟩ := u.proper_rest b broken
        exact isLine_of_mem_openLines isKey isLine inner inRest

/-! ## What a map holds -/

def valuesOf (map : UnitMap) (name key : Chars) : Option (List Chars) :=
  (map name).bind fun entries => entries key

def Data.valuesOf (data : Data) (name key : Chars) : Option (List (Option Chars)) :=
  (data name).bind fun entries => entries key

theorem valuesOf_assign_of_ne {r : Reading} {name key value name' key' : Chars}
    (current : r.current = some name) (other : ¬ (name' = name ∧ key' = keyName key)) :
    valuesOf (r.assign key value).map name' key' = valuesOf r.map name' key' := by
  simp only [Reading.assign, current, valuesOf]
  by_cases here : name' = name
  · subst here
    have otherKey : key' ≠ keyName key := fun same => other ⟨rfl, same⟩
    rw [Function.update_self, Option.bind_some, Function.update_of_ne otherKey]
    cases r.map name' <;> rfl
  · rw [Function.update_of_ne here]

theorem valuesOf_header (r : Reading) (header name key : Chars) :
    valuesOf (r.item (.header header)).map name key = valuesOf r.map name key := by
  simp only [Reading.item, valuesOf]
  by_cases here : name = header
  · subst here
    rw [Function.update_self]
    cases r.map name <;> rfl
  · rw [Function.update_of_ne here]

theorem valuesOf_setValue {data data' : Data} {name key : Chars} {value : Option Chars}
    (done : setValue data (some name) key value = .ok data') :
    data'.valuesOf name key = some (if value = some [] then []
      else (data.valuesOf name key).getD [] ++ [value]) := by
  simp only [setValue] at done
  cases found : data name with
  | none =>
      rw [found] at done
      cases done
  | some entries =>
      rw [found] at done
      cases done
      simp [Data.valuesOf, found]

theorem valuesOf_setValue_of_ne {data data' : Data} {name key name' key' : Chars} {value : Option Chars}
    (done : setValue data (some name) key value = .ok data') (other : ¬ (name' = name ∧ key' = key)) :
    data'.valuesOf name' key' = data.valuesOf name' key' := by
  simp only [setValue] at done
  cases found : data name with
  | none =>
      rw [found] at done
      cases done
  | some entries =>
      rw [found] at done
      cases done
      simp only [Data.valuesOf]
      by_cases here : name' = name
      · subst here
        have otherKey : key' ≠ key := fun same => other ⟨rfl, same⟩
        rw [Function.update_self, found, Option.bind_some, Option.bind_some, Function.update_of_ne otherKey]
      · rw [Function.update_of_ne here]

theorem current_of_setValue {data data' : Data} {current : Option Chars} {key : Chars}
    {value : Option Chars} (done : setValue data current key value = .ok data') :
    ∃ name, current = some name := by
  cases current with
  | none => cases done
  | some name => exact ⟨name, rfl⟩

/-! ## The readings of items -/

theorem current_assign (r : Reading) (key value : Chars) : (r.assign key value).current = r.current := by
  cases current : r.current with
  | none => simp [Reading.assign, current]
  | some name => simp [Reading.assign, current]

theorem assign_of_outside {r : Reading} (outside : r.current = none) (key value : Chars) :
    r.assign key value = r := by
  rw [Reading.assign, outside]

/-- The section that a reading is in is there, and its keys end in no blank. -/
structure Reading.Sound (r : Reading) : Prop where
  outside : r.current = none → ∀ name, r.map name = none
  present : ∀ name, r.current = some name → ∃ entries, r.map name = some entries
  named : ∀ name key, valuesOf r.map name key ≠ none → keyName key = key

theorem Reading.Sound.assign {r : Reading} (sound : r.Sound) (key value : Chars) :
    (r.assign key value).Sound := by
  cases current : r.current with
  | none => rwa [assign_of_outside current]
  | some name =>
      constructor
      · intro outside
        rw [current_assign, current] at outside
        cases outside
      · intro name' current'
        rw [current_assign, current] at current'
        cases current'
        simp [Reading.assign, current]
      · intro name' key' held
        by_cases here : name' = name ∧ key' = keyName key
        · rw [here.2]
          exact List.rdropWhile_idempotent isBlank key
        · rw [valuesOf_assign_of_ne current here] at held
          exact sound.named name' key' held

theorem Reading.Sound.item {r : Reading} (sound : r.Sound) (item : Item) : (r.item item).Sound := by
  cases item with
  | header name =>
      constructor
      · intro outside
        cases outside
      · intro name' current'
        cases current'
        exact ⟨_, Function.update_self ..⟩
      · intro name' key' held
        rw [valuesOf_header] at held
        exact sound.named name' key' held
  | blank space => exact sound
  | comment line => exact sound
  | assign key value => exact sound.assign key value
  | continued key first inner last => exact sound.assign key _

end GnomeBuildMeta.Initramfs
