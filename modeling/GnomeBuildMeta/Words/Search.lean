import GnomeBuildMeta.Words.Occurrence

/-!
# The first occurrence of a word

What stands behind the first occurrence of a word in a text, for texts that are
put together from pieces and for texts that are read line by line.
-/

namespace GnomeBuildMeta.Words

variable {α : Type} [DecidableEq α]

/-- What stands behind the first occurrence of a word. -/
def after (word : List α) : List α → Option (List α)
  | [] => if word = [] then some [] else none
  | c :: text => if word <+: c :: text then some ((c :: text).drop word.length) else after word text

variable {word text rest behind : List α} {newline : α}

theorem after_of_start (first : word <+: text) : after word text = some (text.drop word.length) := by
  cases text with
  | nil => rw [after, if_pos (List.prefix_nil.mp first), List.drop_nil]
  | cons c text => rw [after, if_pos first]

theorem after_cons_of_later {c : α} (later : ¬ word <+: c :: text) :
    after word (c :: text) = after word text := by
  rw [after, if_neg later]

/-- The first occurrence, with what is before and behind it. -/
theorem exists_of_after (found : after word text = some behind) : ∃ before, text = before ++ word ++ behind := by
  induction text with
  | nil =>
      by_cases empty : word = []
      · rw [after, if_pos empty] at found
        cases found
        exact ⟨[], by simp [empty]⟩
      · rw [after, if_neg empty] at found
        cases found
  | cons c text ih =>
      by_cases first : word <+: c :: text
      · rw [after_of_start first] at found
        cases found
        obtain ⟨rest, whole⟩ := first
        exact ⟨[], by rw [← whole]; simp⟩
      · rw [after_cons_of_later first] at found
        obtain ⟨before, rfl⟩ := ih found
        exact ⟨c :: before, rfl⟩

theorem length_after (found : after word text = some behind) :
    behind.length + word.length ≤ text.length := by
  obtain ⟨before, rfl⟩ := exists_of_after found
  simp only [List.length_append]
  omega

theorem after_eq_none_iff : after word text = none ↔ ¬ word <:+: text := by
  induction text with
  | nil =>
      rw [after, List.infix_nil]
      split
      · next empty => simp [empty]
      · next proper => simp [proper]
  | cons c text ih =>
      rw [List.infix_cons_iff, not_or]
      by_cases first : word <+: c :: text
      · simp [after_of_start first, first]
      · rw [after_cons_of_later first, ih]
        exact (and_iff_right first).symm

theorem after_ne_none_iff : after word text ≠ none ↔ word <:+: text := by
  rw [Ne, after_eq_none_iff, not_not]

theorem after_append (found : after word text = some behind) (rest : List α) :
    after word (text ++ rest) = some (behind ++ rest) := by
  induction text with
  | nil =>
      by_cases empty : word = []
      · subst empty
        cases found
        exact after_of_start List.nil_prefix
      · rw [after, if_neg empty] at found
        cases found
  | cons c text ih =>
      by_cases first : word <+: c :: text
      · rw [after_of_start first] at found
        cases found
        rw [after_of_start (first.trans (List.prefix_append _ _)),
          List.drop_append_of_le_length first.length_le]
      · rw [after_cons_of_later first] at found
        have short : ¬ word <+: c :: text ++ rest := by
          intro longer
          obtain ⟨before, rfl⟩ := exists_of_after found
          refine first (List.prefix_of_prefix_length_le longer (List.prefix_append _ _) ?_)
          simp only [List.length_cons, List.length_append]
          omega
        rw [List.cons_append] at short ⊢
        rw [after_cons_of_later short]
        exact ih found

/-- An occurrence of the word begins in the first of two texts. -/
def BeginsIn (word text rest : List α) : Prop :=
  ∃ front back, text = front ++ back ∧ back ≠ [] ∧ word <+: back ++ rest

theorem after_append_of_not_beginsIn (later : ¬ BeginsIn word text rest) :
    after word (text ++ rest) = after word rest := by
  induction text with
  | nil => rfl
  | cons c text ih =>
      have here : ¬ word <+: c :: (text ++ rest) := fun first =>
        later ⟨[], c :: text, rfl, List.cons_ne_nil _ _, first⟩
      rw [List.cons_append, after_cons_of_later here]
      refine ih ?_
      rintro ⟨front, back, rfl, proper, first⟩
      exact later ⟨c :: front, back, rfl, proper, first⟩

theorem length_after_of_beginsIn (early : BeginsIn word text rest) :
    ∃ behind, after word (text ++ rest) = some behind ∧ rest.length < behind.length + word.length := by
  obtain ⟨front, back, rfl, proper, first⟩ := early
  have atLeast := List.length_pos_iff.mpr proper
  induction front with
  | nil =>
      refine ⟨_, after_of_start first, ?_⟩
      have fits := first.length_le
      simp only [List.nil_append, List.length_drop, List.length_append] at fits ⊢
      omega
  | cons c front ih =>
      by_cases here : word <+: c :: (front ++ back ++ rest)
      · refine ⟨_, after_of_start here, ?_⟩
        have fits := here.length_le
        simp only [List.cons_append, List.length_drop, List.length_append, List.length_cons] at fits ⊢
        omega
      · obtain ⟨behind, found, longer⟩ := ih
        refine ⟨behind, ?_, longer⟩
        rw [List.cons_append, List.cons_append, after_cons_of_later here]
        exact found

/-! ## Line by line -/

theorem linewise {P : List α → Prop} (newline : α) (last : ∀ line, newline ∉ line → P line)
    (next : ∀ line rest, newline ∉ line → P rest → P (line ++ newline :: rest)) (text : List α) :
    P text := by
  induction size : text.length using Nat.strong_induction_on generalizing text with
  | _ n ih =>
      by_cases inside : newline ∈ text
      · obtain ⟨line, rest, rfl, fresh⟩ := List.eq_append_cons_of_mem inside
        refine next line rest fresh (ih rest.length ?_ rest rfl)
        simp only [List.length_append, List.length_cons] at size
        omega
      · exact last text inside

theorem splitOn_line {line : List α} (whole : newline ∉ line) (rest : List α) :
    (line ++ newline :: rest).splitOn newline = line :: rest.splitOn newline := by
  rw [List.splitOn_append_cons_self, List.splitOn_eq_singleton whole, List.singleton_append]

/-- What is in front of the first newline, and what is behind it, are determined. -/
theorem line_inj {line other rest later : List α} (whole : newline ∉ line) (wholeToo : newline ∉ other)
    (same : line ++ newline :: rest = other ++ newline :: later) : line = other ∧ rest = later := by
  have lines := congrArg (List.splitOn newline) same
  rw [splitOn_line whole, splitOn_line wholeToo] at lines
  obtain ⟨rfl, _⟩ := List.cons.inj lines
  exact ⟨rfl, (List.cons.inj (List.append_cancel_left same)).2⟩

theorem newline_not_mem_of_mem_splitOn {line : List α} (listed : line ∈ text.splitOn newline) :
    newline ∉ line := by
  induction text using linewise newline with
  | last text whole =>
      rw [List.splitOn_eq_singleton whole, List.mem_singleton] at listed
      rwa [listed]
  | next first rest whole ih =>
      rw [splitOn_line whole, List.mem_cons] at listed
      rcases listed with rfl | listed
      · exact whole
      · exact ih listed

/-- A word without a newline is in a line if it is in the text. -/
theorem infix_iff_exists_line (oneLine : newline ∉ word) :
    word <:+: text ↔ ∃ line ∈ text.splitOn newline, word <:+: line := by
  induction text using linewise newline with
  | last text whole => simp [List.splitOn_eq_singleton whole]
  | next line rest whole ih =>
      rw [splitOn_line whole, List.exists_mem_cons_iff, ← ih]
      constructor
      · exact infix_append_cons oneLine
      · rintro (early | late)
        · exact early.trans (List.prefix_append line _).isInfix
        · exact late.trans ((List.suffix_cons newline rest).trans (List.suffix_append line _)).isInfix

/-- Reading on goes on in the last line. -/
theorem splitOn_append (newline : α) (text rest : List α) :
    (text ++ rest).splitOn newline = (text.splitOn newline).dropLast ++
      ((text.splitOn newline).getLastD [] ++ rest).splitOn newline := by
  induction text using linewise newline with
  | last text whole =>
      rw [List.splitOn_eq_singleton whole]
      rfl
  | next line text whole ih =>
      obtain ⟨first, others, split⟩ := List.exists_cons_of_ne_nil (List.splitOn_ne_nil newline text)
      rw [List.append_assoc, List.cons_append, splitOn_line whole, splitOn_line whole, ih, split]
      rfl

/-- The lines behind a line, as they stand in the text. -/
def joined (newline : α) (later : List (List α)) : List α := later.flatMap fun line => newline :: line

theorem joined_splitOn (newline : α) (text : List α) :
    joined newline (text.splitOn newline) = newline :: text := by
  induction text using linewise newline with
  | last text whole =>
      rw [List.splitOn_eq_singleton whole]
      exact List.append_nil _
  | next line rest whole ih =>
      rw [splitOn_line whole, joined, List.flatMap_cons]
      exact congrArg (newline :: line ++ ·) ih

omit [DecidableEq α] in
theorem prefix_of_prefix_line {word text rest : List α} (oneLine : newline ∉ word)
    (first : word <+: text ++ newline :: rest) : word <+: text := by
  refine List.prefix_of_prefix_length_le first (List.prefix_append _ _) (Nat.le_of_not_lt fun longer => ?_)
  have reaches : text ++ [newline] <+: word := by
    refine List.prefix_of_prefix_length_le ⟨rest, by simp⟩ first ?_
    simp only [List.length_append, List.length_singleton]
    omega
  exact oneLine (reaches.subset (by simp))

/-- A word that is not in the first line is looked for behind it. -/
theorem after_line_of_absent {line : List α} (oneLine : newline ∉ word) (absent : ¬ word <:+: line)
    (rest : List α) : after word (line ++ newline :: rest) = after word rest := by
  have notIn : ¬ BeginsIn word line (newline :: rest) := by
    rintro ⟨front, back, rfl, _, first⟩
    exact absent ((prefix_of_prefix_line oneLine first).isInfix.trans (List.suffix_append _ _).isInfix)
  have notHere : ¬ word <+: newline :: rest := by
    intro first
    rw [← List.nil_append (newline :: rest)] at first
    have empty : word <+: [] := prefix_of_prefix_line oneLine first
    exact absent (List.prefix_nil.mp empty ▸ List.nil_infix)
  rw [after_append_of_not_beginsIn notIn, after_cons_of_later notHere]

/-- The first occurrence is in the first line that has one. -/
theorem after_eq_lines (oneLine : newline ∉ word) (text : List α) :
    after word text =
      match (text.splitOn newline).dropWhile fun line => !decide (word <:+: line) with
      | line :: later => (after word line).map (· ++ joined newline later)
      | [] => none := by
  induction text using linewise newline with
  | last text whole =>
      rw [List.splitOn_eq_singleton whole]
      by_cases inside : word <:+: text
      · simp [inside, joined]
      · simp [inside, after_eq_none_iff]
  | next first rest whole ih =>
      rw [splitOn_line whole]
      by_cases inside : word <:+: first
      · obtain ⟨behind, found⟩ := Option.ne_none_iff_exists'.mp (after_ne_none_iff.mpr inside)
        simp [inside, found, after_append found, joined_splitOn]
      · simp only [List.dropWhile_cons, inside, decide_false, Bool.not_false, if_true]
        rw [after_line_of_absent oneLine inside, ih]

end GnomeBuildMeta.Words
