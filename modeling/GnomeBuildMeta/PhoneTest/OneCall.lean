import GnomeBuildMeta.PhoneTest.Chunks
import GnomeBuildMeta.Words.Utf8

/-!
# A single call

In a stream that is UTF-8 a call finds its marker however the stream is cut: a
line that cannot be decoded yet stays in the buffer, and all that is complete
can be decoded.
-/

namespace GnomeBuildMeta.PhoneTest

open Posix Words

variable {marker seen : Bytes} {text : Text} {chunks : List Bytes}

/-! ## Lines -/

theorem splitOn_encode (text : Text) :
    (encode text).splitOn newline = (text.splitOn '\n').map encode :=
  splitOn_utf8 (c := '\n') (by decide) text

theorem decodes_line {line : Bytes} (listed : line ∈ (encode text).splitOn newline) :
    (decodeUtf8 line).isSome = true := by
  rw [splitOn_encode] at listed
  obtain ⟨piece, _, rfl⟩ := List.mem_map.mp listed
  rw [encode, decodeUtf8_utf8]
  rfl

theorem mem_splitOn_append {line : Bytes} (complete : line ∈ (seen.splitOn newline).dropLast)
    (rest : Bytes) : line ∈ (seen ++ rest).splitOn newline := by
  rw [splitOn_append]
  exact List.mem_append_left _ complete

/-- The first of the lines goes on behind what has been seen of it. -/
theorem splitOn_append_of_not_mem {line : Bytes} (whole : newline ∉ line) (rest : Bytes) :
    ∃ first later, (line ++ rest).splitOn newline = first :: later ∧ line <+: first := by
  induction rest using linewise newline with
  | last rest wholeToo =>
      refine ⟨line ++ rest, [], List.splitOn_eq_singleton ?_, List.prefix_append line rest⟩
      exact fun inside => (List.mem_append.mp inside).elim whole wholeToo
  | next more rest wholeToo ih =>
      refine ⟨line ++ more, rest.splitOn newline, ?_, List.prefix_append line more⟩
      rw [← List.append_assoc, splitOn_line]
      exact fun inside => (List.mem_append.mp inside).elim whole wholeToo

theorem exists_line_of_mem {line : Bytes} (listed : line ∈ seen.splitOn newline) (rest : Bytes) :
    ∃ whole ∈ (seen ++ rest).splitOn newline, line <+: whole := by
  induction seen using linewise newline with
  | last seen whole =>
      rw [List.splitOn_eq_singleton whole, List.mem_singleton] at listed
      obtain ⟨first, later, split, start⟩ := splitOn_append_of_not_mem whole rest
      rw [split, listed]
      exact ⟨first, List.mem_cons_self, start⟩
  | next first seen whole ih =>
      rw [splitOn_line whole] at listed
      rw [List.append_assoc, List.cons_append, splitOn_line whole]
      rcases List.mem_cons.mp listed with rfl | later
      · exact ⟨line, List.mem_cons_self, List.prefix_rfl⟩
      · obtain ⟨full, inside, start⟩ := ih later
        exact ⟨full, List.mem_cons_of_mem _ inside, start⟩

/-! ## What a call returns -/

/-- What is returned is a line as far as it has been read, and has the marker. -/
theorem awaitFrom_returns {decode : Bytes → Option Text} {r : Returned}
    (run : awaitFrom decode marker ((seen.splitOn newline).getLastD []) chunks = some r) :
    decode r.line = some r.prompt ∧ marker <:+: r.line ∧
      ∃ line ∈ (seen ++ chunks.flatten).splitOn newline, r.line <+: line := by
  induction chunks generalizing seen with
  | nil => cases run
  | cons chunk chunks ih =>
      rw [List.flatten_cons, ← List.append_assoc]
      rw [awaitFrom] at run
      simp only [← lastLine_append] at run
      split at run
      · next line later found =>
        split at run
        · next prompt decoded =>
          cases run
          obtain ⟨front, split, _, marked⟩ := split_of_found found
          refine ⟨decoded, marked, exists_line_of_mem ?_ chunks.flatten⟩
          rw [splitOn_append, split]
          simp
        · exact ih run
      · exact ih run

/-! ## Decoding in time -/

theorem lineWith_of_complete (complete : Complete marker seen) :
    ∃ line ∈ (seen.splitOn newline).dropLast, lineWith marker seen = some line := by
  obtain ⟨line, inside, marked⟩ := complete
  have found : ((seen.splitOn newline).dropLast.find? fun line => decide (marker <:+: line)).isSome := by
    rw [List.find?_isSome]
    exact ⟨line, inside, by simpa using marked⟩
  obtain ⟨first, here⟩ := Option.isSome_iff_exists.mp found
  refine ⟨first, List.mem_of_find?_eq_some here, ?_⟩
  rw [lineWith, ← List.dropLast_append_getLast (List.splitOn_ne_nil newline seen), List.find?_append, here]
  rfl

/-- By induction on the chunks: what could not be decoded so far is an unfinished line. -/
theorem decodedInTime_of_utf8 (whole : seen ++ chunks.flatten = encode text)
    (pending : ¬ Complete marker seen)
    (waiting : ∀ line, lineWith marker seen = some line → decodeUtf8 line = none)
    (there : lineWith marker (encode text) ≠ none) : DecodedInTime decodeUtf8 marker seen chunks := by
  induction chunks generalizing seen with
  | nil =>
      rw [List.flatten_nil, List.append_nil] at whole
      obtain ⟨line, found⟩ := Option.ne_none_iff_exists'.mp there
      have decoded := decodes_line (List.mem_of_find?_eq_some found)
      rw [waiting line (whole ▸ found)] at decoded
      cases decoded
  | cons chunk chunks ih =>
      rw [List.flatten_cons, ← List.append_assoc] at whole
      rw [decodedInTime_cons_iff]
      by_cases now : ∃ line, lineWith marker (seen ++ chunk) = some line ∧ (decodeUtf8 line).isSome = true
      · exact Or.inl ⟨pending, now⟩
      · have later : ∀ line, lineWith marker (seen ++ chunk) = some line → decodeUtf8 line = none := by
          intro line found
          rw [← Option.not_isSome_iff_eq_none]
          exact fun decoded => now ⟨line, found, decoded⟩
        refine Or.inr (ih whole (fun complete => ?_) later)
        obtain ⟨line, inside, found⟩ := lineWith_of_complete complete
        have decoded := decodes_line (whole ▸ mem_splitOn_append inside chunks.flatten)
        rw [later line found] at decoded
        cases decoded

/-! ## The whole call -/

theorem not_beginsIn_nil (word rest : Bytes) : ¬ BeginsIn word [] rest := by
  rintro ⟨front, back, split, proper, _⟩
  exact proper (List.append_eq_nil_iff.mp split.symm).2

theorem lineWith_ne_none_iff (oneLine : newline ∉ marker) :
    lineWith marker seen ≠ none ↔ marker <:+: seen := by
  rw [infix_iff_exists_line oneLine, lineWith, ← Option.isSome_iff_ne_none, List.find?_isSome]
  simp only [decide_eq_true_eq]

theorem keeps_of_utf8 (whole : chunks.flatten = encode text) {marker : Text} (proper : marker ≠ []) :
    Keeps decodeUtf8 marker [] chunks where
  notLost _ := not_beginsIn_nil _ _
  decoded := by
    intro found
    have notEmpty : ¬ encode marker <:+: [] := fun inside => encode_ne_nil proper (List.infix_nil.mp inside)
    have oneLine : newline ∉ encode marker := fun twoLines => found (if_pos twoLines)
    have inside : encode marker <:+: chunks.flatten := by
      rw [search, if_neg oneLine] at found
      exact after_ne_none_iff.mp found
    refine decodedInTime_of_utf8 whole ?_ ?_ ?_
    · rintro ⟨line, impossible, _⟩
      cases impossible
    · intro line first
      exact absurd ((lineWith_ne_none_iff oneLine).mp (by rw [first]; exact Option.some_ne_none line)) notEmpty
    · exact (lineWith_ne_none_iff oneLine).mpr (whole ▸ inside)

/--
In a stream that is UTF-8 a call returns if and only if a line has the marker,
and what it returns is such a line as far as it has been read.
-/
theorem awaitLine_finds_iff (whole : chunks.flatten = encode text) {marker : Text} (proper : marker ≠ [])
    (oneLine : '\n' ∉ marker) (ascii : ∀ c ∈ marker, c.toNat < 128) :
    ((∃ r, awaitLine decodeUtf8 chunks marker = some r) ↔ ∃ line ∈ text.splitOn '\n', marker <:+: line) ∧
      ∀ r, awaitLine decodeUtf8 chunks marker = some r →
        marker <:+: r.prompt ∧ ∃ line ∈ text.splitOn '\n', r.prompt <+: line := by
  have oneLine' : newline ∉ encode marker := mt (mem_utf8_iff (c := '\n') (by decide)).mp oneLine
  constructor
  · have call := (awaitLine_eq_search_iff marker [] chunks).mpr (keeps_of_utf8 whole proper)
    rw [List.nil_append, whole, search, if_neg oneLine'] at call
    rw [← Option.ne_none_iff_exists', ← infix_iff_exists_line oneLine, ← infix_utf8_iff ascii,
      ← after_ne_none_iff, not_iff_not, ← Option.map_eq_none_iff (f := Returned.behind (encode marker)),
      call]
    exact Iff.rfl
  · intro r run
    have fromStart : awaitFrom decodeUtf8 (encode marker) ((List.splitOn newline []).getLastD []) chunks =
        some r := run
    obtain ⟨decoded, marked, line, listed, start⟩ := awaitFrom_returns fromStart
    rw [List.nil_append, whole, splitOn_encode] at listed
    obtain ⟨piece, inside, rfl⟩ := List.mem_map.mp listed
    rw [decodeUtf8_eq_some_iff.mp decoded] at marked start
    exact ⟨(infix_utf8_iff ascii).mp marked, piece, inside, prefix_of_prefix_utf8 start⟩

/-- The marker and the `é` behind it are both cut in two. -/
def cutLogin : List Bytes :=
  [encode "log".toList, encode "in: ".toList ++ [0xc3], [0xa9] ++ encode "\n".toList, encode "# ".toList]

theorem cutLogin_found : ∃ r, awaitLine decodeUtf8 cutLogin "login:".toList = some r := by
  have whole : cutLogin.flatten = encode "login: é\n# ".toList := by decide
  have finds := awaitLine_finds_iff whole (show "login:".toList ≠ [] by decide) (by decide)
    (List.forall_iff_forall_mem.mp (by decide))
  exact finds.1.mpr ⟨"login: é".toList, by decide, by decide⟩

end GnomeBuildMeta.PhoneTest
