/-!
# Doubled separators

A list of texts is written with single separators between them, and a separator
inside a text is doubled.  Reading from the left, two separators in a row are
one that belongs to the text.
-/

namespace GnomeBuildMeta.Words

variable {α : Type} [DecidableEq α] {separator c : α} {text rest : List α} {pieces : List (List α)}

def doubled (separator : α) (text : List α) : List α :=
  text.flatMap fun c => if c = separator then [separator, separator] else [c]

def splitDoubled (separator : α) : List α → List (List α)
  | [] => [[]]
  | [c] => if c = separator then [[], []] else [[c]]
  | c :: d :: rest =>
      if c = separator then
        if d = separator then (splitDoubled separator rest).modifyHead (separator :: ·)
        else [] :: splitDoubled separator (d :: rest)
      else (splitDoubled separator (d :: rest)).modifyHead (c :: ·)

theorem doubled_cons_of_ne (other : c ≠ separator) (text : List α) :
    doubled separator (c :: text) = c :: doubled separator text := by
  rw [doubled, List.flatMap_cons, if_neg other]
  rfl

theorem doubled_cons_self (separator : α) (text : List α) :
    doubled separator (separator :: text) = separator :: separator :: doubled separator text := by
  rw [doubled, List.flatMap_cons, if_pos rfl]
  rfl

theorem doubled_append (separator : α) (text rest : List α) :
    doubled separator (text ++ rest) = doubled separator text ++ doubled separator rest :=
  List.flatMap_append

theorem doubled_of_not_mem (absent : separator ∉ text) : doubled separator text = text := by
  induction text with
  | nil => rfl
  | cons c text ih =>
      rw [List.mem_cons, not_or] at absent
      rw [doubled_cons_of_ne (Ne.symm absent.1), ih absent.2]

/-- Only a text without the separator is left as it is: any other gets longer. -/
theorem doubled_eq_self_iff : doubled separator text = text ↔ separator ∉ text := by
  refine ⟨fun same => ?_, doubled_of_not_mem⟩
  have length : (doubled separator text).length = text.length + text.count separator := by
    clear same
    induction text with
    | nil => rfl
    | cons c text ih =>
        by_cases here : c = separator
        · rw [here, doubled_cons_self, List.count_cons_self]
          simp only [List.length_cons, ih]
          omega
        · rw [doubled_cons_of_ne here, List.count_cons_of_ne here]
          simp only [List.length_cons, ih]
          omega
  rw [same] at length
  exact List.count_eq_zero.mp (by omega)

theorem splitDoubled_cons_of_ne (other : c ≠ separator) (text : List α) :
    splitDoubled separator (c :: text) = (splitDoubled separator text).modifyHead (c :: ·) := by
  cases text with
  | nil => simp only [splitDoubled, if_neg other, List.modifyHead_cons]
  | cons d rest => rw [splitDoubled, if_neg other]

theorem splitDoubled_cons_self_cons_self (separator : α) (rest : List α) :
    splitDoubled separator (separator :: separator :: rest) =
      (splitDoubled separator rest).modifyHead (separator :: ·) := by
  rw [splitDoubled, if_pos rfl, if_pos rfl]

theorem splitDoubled_cons_self (single : rest.head? ≠ some separator) :
    splitDoubled separator (separator :: rest) = [] :: splitDoubled separator rest := by
  cases rest with
  | nil => simp only [splitDoubled, if_pos]
  | cons d rest =>
      have other : d ≠ separator := fun same => single (congrArg some same)
      rw [splitDoubled, if_pos rfl, if_neg other]

/-- A doubled text ends at the first single separator behind it. -/
theorem splitDoubled_doubled_append (single : rest.head? ≠ some separator) (text : List α) :
    splitDoubled separator (doubled separator text ++ separator :: rest) = text :: splitDoubled separator rest := by
  induction text with
  | nil => exact splitDoubled_cons_self single
  | cons c text ih =>
      by_cases here : c = separator
      · rw [here, doubled_cons_self, List.cons_append, List.cons_append, splitDoubled_cons_self_cons_self, ih]
        rfl
      · rw [doubled_cons_of_ne here, List.cons_append, splitDoubled_cons_of_ne here, ih]
        rfl

theorem splitDoubled_doubled (separator : α) (text : List α) :
    splitDoubled separator (doubled separator text) = [text] := by
  induction text with
  | nil => rfl
  | cons c text ih =>
      by_cases here : c = separator
      · rw [here, doubled_cons_self, splitDoubled_cons_self_cons_self, ih]
        rfl
      · rw [doubled_cons_of_ne here, splitDoubled_cons_of_ne here, ih]
        rfl

omit [DecidableEq α] in
theorem exists_of_modifyHead {first : List α} {all : List (List α)}
    (changed : all.modifyHead (c :: ·) = first :: pieces) : ∃ front, all = front :: pieces ∧ first = c :: front := by
  cases all with
  | nil => cases changed
  | cons front later =>
      cases changed
      exact ⟨front, rfl, rfl⟩

/-- The first piece is what is read up to the first single separator. -/
theorem of_splitDoubled_eq_cons {first : List α} (split : splitDoubled separator text = first :: pieces) :
    ∃ behind, text = doubled separator first ++ behind ∧
      (behind = [] ∧ pieces = [] ∨ ∃ rest, behind = separator :: rest ∧ splitDoubled separator rest = pieces) := by
  induction text using splitDoubled.induct separator generalizing first pieces with
  | case1 =>
      cases split
      exact ⟨[], rfl, Or.inl ⟨rfl, rfl⟩⟩
  | case2 =>
      rw [splitDoubled, if_pos rfl] at split
      cases split
      exact ⟨[separator], rfl, Or.inr ⟨[], rfl, rfl⟩⟩
  | case3 c other =>
      rw [splitDoubled, if_neg other] at split
      cases split
      exact ⟨[], by rw [doubled_cons_of_ne other]; rfl, Or.inl ⟨rfl, rfl⟩⟩
  | case4 rest ih =>
      rw [splitDoubled_cons_self_cons_self] at split
      obtain ⟨front, before, rfl⟩ := exists_of_modifyHead split
      obtain ⟨behind, rfl, later⟩ := ih before
      exact ⟨behind, by rw [doubled_cons_self]; rfl, later⟩
  | case5 d rest other ih =>
      rw [splitDoubled, if_pos rfl, if_neg other] at split
      cases split
      exact ⟨separator :: d :: rest, rfl, Or.inr ⟨d :: rest, rfl, rfl⟩⟩
  | case6 c d rest other ih =>
      rw [splitDoubled_cons_of_ne other] at split
      obtain ⟨front, before, rfl⟩ := exists_of_modifyHead split
      obtain ⟨behind, same, later⟩ := ih before
      exact ⟨behind, by rw [doubled_cons_of_ne other, same]; rfl, later⟩

theorem mem_of_mem_doubled (member : c ∈ doubled separator text) : c ∈ text := by
  obtain ⟨d, inside, here⟩ := List.mem_flatMap.mp member
  have same : c = d := by
    split at here
    · next separates => simpa [separates] using here
    · exact List.mem_singleton.mp here
  rwa [same]

theorem doubled_intercalate (separator between : α) (other : between ≠ separator) (texts : List (List α)) :
    [between].intercalate (texts.map (doubled separator)) = doubled separator ([between].intercalate texts) := by
  induction texts with
  | nil => rfl
  | cons first texts ih =>
      cases texts with
      | nil => simp only [List.map_cons, List.map_nil, List.intercalate_singleton]
      | cons second texts =>
          rw [List.map_cons, List.map_cons, List.intercalate_cons_cons, ← List.map_cons, ih,
            List.intercalate_cons_cons, doubled_append, doubled_append, doubled_cons_of_ne other]
          rfl

/-- The pieces are read back if none of them is empty or begins with the separator. -/
theorem splitDoubled_intercalate (proper : pieces ≠ [])
    (starts : ∀ piece ∈ pieces, ∃ c rest, piece = c :: rest ∧ c ≠ separator) :
    splitDoubled separator ([separator].intercalate (pieces.map (doubled separator))) = pieces := by
  induction pieces with
  | nil => exact absurd rfl proper
  | cons first later ih =>
      cases later with
      | nil => rw [List.map_singleton, List.intercalate_singleton, splitDoubled_doubled]
      | cons second later =>
          have next := ih (List.cons_ne_nil _ _) (List.forall_mem_cons.mp starts).2
          obtain ⟨c, rest, begins, other⟩ := starts second (List.mem_cons_of_mem _ List.mem_cons_self)
          have single : ([separator].intercalate ((second :: later).map (doubled separator))).head? ≠
              some separator := by
            rw [begins, List.map_cons, doubled_cons_of_ne other, List.intercalate_cons_cons_left, List.head?_cons]
            exact fun same => other (Option.some.inj same)
          rw [List.map_cons, List.map_cons, List.intercalate_cons_cons, ← List.map_cons, List.append_assoc,
            List.singleton_append, splitDoubled_doubled_append single, next]

/-- What is in front of the first separator is not doubled. -/
theorem of_doubled_append_eq {front first : List α} (absent : separator ∉ front)
    (ends : ∀ c ∈ text.head?, c = separator) (same : doubled separator first ++ text = front ++ rest) :
    ∃ later, first = front ++ later ∧ doubled separator later ++ text = rest := by
  induction front generalizing first with
  | nil => exact ⟨first, rfl, same⟩
  | cons c front ih =>
      rw [List.mem_cons, not_or] at absent
      cases first with
      | nil =>
          rw [doubled, List.flatMap_nil, List.nil_append] at same
          exact absurd (ends c (by rw [same]; rfl)).symm absent.1
      | cons d first =>
          by_cases here : d = separator
          · rw [here, doubled_cons_self] at same
            exact absurd (List.cons.inj same).1 absent.1
          · rw [doubled_cons_of_ne here] at same
            obtain ⟨rfl, tails⟩ := List.cons.inj same
            obtain ⟨later, rfl, behind⟩ := ih absent.2 tails
            exact ⟨later, rfl, behind⟩

end GnomeBuildMeta.Words
