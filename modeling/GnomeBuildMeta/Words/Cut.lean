import Mathlib.Data.List.Basic

/-!
# Words and quoted arguments

A text is cut at its breaks.  Cut at every break it gives its words; cut only at
the breaks outside quotes it gives arguments, whose words are those of the text.
-/

namespace GnomeBuildMeta.Words

variable {α : Type} {isBreak : α → Bool} {c : α} {text word : List α}

/-! ## Joined texts -/

theorem of_mem_intercalate {separator x : α} {texts : List (List α)}
    (member : x ∈ List.intercalate [separator] texts) :
    x = separator ∨ ∃ text ∈ texts, x ∈ text := by
  induction texts with
  | nil => cases member
  | cons text texts ih =>
      cases texts with
      | nil => exact Or.inr ⟨text, List.mem_singleton_self _, by simpa using member⟩
      | cons next texts =>
          rw [List.intercalate_cons_cons] at member
          rcases List.mem_append.mp member with first | later
          · rcases List.mem_append.mp first with here | between
            · exact Or.inr ⟨text, List.mem_cons_self, here⟩
            · exact Or.inl (List.mem_singleton.mp between)
          · rcases ih later with same | ⟨other, inside, here⟩
            · exact Or.inl same
            · exact Or.inr ⟨other, List.mem_cons_of_mem _ inside, here⟩

theorem mem_intercalate {separator x : α} {texts : List (List α)}
    (inside : text ∈ texts) (member : x ∈ text) : x ∈ List.intercalate [separator] texts := by
  induction texts with
  | nil => cases inside
  | cons first texts ih =>
      cases texts with
      | nil =>
          rw [List.mem_singleton.mp inside] at member
          simpa using member
      | cons next texts =>
          rw [List.intercalate_cons_cons]
          rcases List.mem_cons.mp inside with rfl | later
          · exact List.mem_append_left _ (List.mem_append_left _ member)
          · exact List.mem_append_right _ (ih later)

/-! ## Words -/

/-- The nonempty pieces between the breaks. -/
def words (isBreak : α → Bool) (text : List α) : List (List α) :=
  (text.splitOnP isBreak).filter fun piece => !piece.isEmpty

@[simp]
theorem words_nil : words isBreak [] = [] := by
  simp [words, List.splitOnP_nil]

theorem words_append_break (breaks : isBreak c = true) (before after : List α) :
    words isBreak (before ++ c :: after) = words isBreak before ++ words isBreak after := by
  rw [words, List.splitOnP_append_cons before after breaks, List.filter_append]
  rfl

theorem words_of_no_break (proper : text ≠ []) (noBreak : ∀ c ∈ text, isBreak c = false) :
    words isBreak text = [text] := by
  have whole : text.splitOnP isBreak = [text] :=
    List.splitOnP_eq_singleton fun c member => noBreak c member
  rw [words, whole]
  simpa using proper

/-- What is in a piece is in the text, and no break. -/
theorem of_mem_piece {piece : List α} (listed : piece ∈ text.splitOnP isBreak) (member : c ∈ piece) :
    c ∈ text ∧ isBreak c = false := by
  induction text generalizing piece with
  | nil =>
      rw [List.splitOnP_nil, List.mem_singleton] at listed
      cases listed ▸ member
  | cons first text ih =>
      have further : ∀ {piece}, piece ∈ text.splitOnP isBreak → c ∈ piece →
          c ∈ first :: text ∧ isBreak c = false := fun listed member =>
        ⟨List.mem_cons_of_mem _ (ih listed member).1, (ih listed member).2⟩
      rw [List.splitOnP_cons_eq_if_modifyHead] at listed
      split at listed
      case isTrue =>
        rcases List.mem_cons.mp listed with rfl | later
        · cases member
        · exact further later member
      case isFalse plain =>
        obtain ⟨head, rest, whole⟩ := List.exists_cons_of_ne_nil (List.splitOnP_ne_nil isBreak text)
        rw [whole, List.modifyHead_cons] at listed
        rcases List.mem_cons.mp listed with rfl | later
        · rcases List.mem_cons.mp member with rfl | inHead
          · exact ⟨List.mem_cons_self, by simpa using plain⟩
          · exact further (whole ▸ List.mem_cons_self) inHead
        · exact further (whole ▸ List.mem_cons_of_mem _ later) member

theorem not_break_of_mem_splitOnP {piece : List α} (listed : piece ∈ text.splitOnP isBreak)
    (member : c ∈ piece) : isBreak c = false := (of_mem_piece listed member).2

theorem mem_of_mem_splitOnP {piece : List α} (listed : piece ∈ text.splitOnP isBreak)
    (member : c ∈ piece) : c ∈ text := (of_mem_piece listed member).1

theorem of_mem_words (listed : word ∈ words isBreak text) :
    word ≠ [] ∧ ∀ c ∈ word, isBreak c = false := by
  obtain ⟨piece, proper⟩ := List.mem_filter.mp listed
  exact ⟨by simpa using proper, fun c member => not_break_of_mem_splitOnP piece member⟩

theorem mem_of_mem_words (listed : word ∈ words isBreak text) (member : c ∈ word) : c ∈ text :=
  mem_of_mem_splitOnP (List.mem_filter.mp listed).1 member

/-- A text that is among its own words is its only word. -/
theorem words_of_self_mem (listed : text ∈ words isBreak text) : words isBreak text = [text] :=
  words_of_no_break (of_mem_words listed).1 (of_mem_words listed).2

/-! ## Arguments -/

/-- Cut at the breaks outside quotes; the quotes stay, and a piece may be empty. -/
def argumentsFrom (isBreak isQuote : α → Bool) : Bool → List α → List (List α)
  | _, [] => [[]]
  | inQuote, c :: text =>
      if isBreak c && !inQuote then [] :: argumentsFrom isBreak isQuote false text
      else (argumentsFrom isBreak isQuote (inQuote ^^ isQuote c) text).modifyHead (c :: ·)

def arguments (isBreak isQuote : α → Bool) (text : List α) : List (List α) :=
  argumentsFrom isBreak isQuote false text

variable {isQuote : α → Bool} {inQuote : Bool}

/-- Whatever stands before a text belongs to its first argument. -/
theorem words_flatMap_argumentsFrom (isQuote : α → Bool) (inQuote : Bool) (before : List α) :
    ((argumentsFrom isBreak isQuote inQuote text).modifyHead (before ++ ·)).flatMap (words isBreak) =
      words isBreak (before ++ text) := by
  induction text generalizing inQuote before with
  | nil => simp [argumentsFrom]
  | cons c text ih =>
      rw [argumentsFrom]
      split
      case isTrue outside =>
        have breaks : isBreak c = true := (Bool.and_eq_true_iff.mp outside).1
        have rest := ih false []
        rw [List.nil_append, show ([] ++ · : List α → List α) = id from rfl, List.modifyHead_id]
          at rest
        rw [List.modifyHead_cons, List.flatMap_cons, words_append_break breaks, List.append_nil]
        exact congrArg _ rest
      case isFalse =>
        have rest := ih (inQuote ^^ isQuote c) (before ++ [c])
        simpa [Function.comp_def] using rest

/-- The words of a text are those of its arguments. -/
theorem words_flatMap_arguments (isQuote : α → Bool) :
    (arguments isBreak isQuote text).flatMap (words isBreak) = words isBreak text := by
  have whole : ((arguments isBreak isQuote text).modifyHead ([] ++ ·)).flatMap (words isBreak) =
      words isBreak ([] ++ text) := words_flatMap_argumentsFrom isQuote false []
  rwa [List.nil_append, show ([] ++ · : List α → List α) = id from rfl, List.modifyHead_id] at whole

theorem arguments_of_no_quote (noQuote : ∀ c ∈ text, isQuote c = false) :
    arguments isBreak isQuote text = text.splitOnP isBreak := by
  rw [arguments]
  induction text with
  | nil => simp [argumentsFrom, List.splitOnP_nil]
  | cons c text ih =>
      have rest := ih fun other member => noQuote other (List.mem_cons_of_mem _ member)
      rw [argumentsFrom, List.splitOnP_cons_eq_if_modifyHead, noQuote c List.mem_cons_self]
      simp [rest]

theorem mem_words_iff (isQuote : α → Bool) : word ∈ words isBreak text ↔
    ∃ argument ∈ arguments isBreak isQuote text, word ∈ words isBreak argument := by
  rw [← words_flatMap_arguments isQuote, List.mem_flatMap]

end GnomeBuildMeta.Words
