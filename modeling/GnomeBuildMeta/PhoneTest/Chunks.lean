import GnomeBuildMeta.PhoneTest.RunTest
import Mathlib.Data.List.TakeWhile

/-!
# How the output is cut

A call of await_line gives back the stream at the end of a chunk.  What the chunk
has behind the marker is lost to the next call, so that the outcome depends on
where the chunks end.
-/

namespace GnomeBuildMeta.PhoneTest

open Posix Words

/-- A line with the marker has come to its end. -/
def Complete (marker seen : Bytes) : Prop := ∃ line ∈ (seen.splitOn newline).dropLast, marker <:+: line

/-- The first line with the marker. -/
def lineWith (marker seen : Bytes) : Option Bytes :=
  (seen.splitOn newline).find? fun line => decide (marker <:+: line)

/--
The first line with the marker can be decoded at the end of a chunk: at the
first one behind the end of the line, or at an earlier one.
-/
def DecodedInTime (decode : Bytes → Option Text) (marker seen : Bytes) (chunks : List Bytes) : Prop :=
  ∃ read chunk unread, chunks = read ++ chunk :: unread ∧ ¬ Complete marker (seen ++ read.flatten) ∧
    ∃ line, lineWith marker (seen ++ read.flatten ++ chunk) = some line ∧ (decode line).isSome = true

/--
What a call needs of the stream: its marker does not begin in what the call
before has lost, and the line of the marker is decoded in time.
-/
structure Keeps (decode : Bytes → Option Text) (marker : Text) (lost : Bytes) (chunks : List Bytes) :
    Prop where
  notLost : newline ∉ encode marker → ¬ BeginsIn (encode marker) lost chunks.flatten
  decoded : search marker chunks.flatten ≠ none → DecodedInTime decode (encode marker) [] chunks

/-- All the calls of a test find the stream as they need it. -/
def EveryCallKeeps (decode : Bytes → Option Text) : List Text → Bytes → List Bytes → Prop
  | [], _, _ => True
  | [marker], lost, chunks => Keeps decode marker lost chunks
  | marker :: response :: dialog, lost, chunks =>
      Keeps decode marker lost chunks ∧ ∀ r, awaitLine decode chunks marker = some r →
        (encodeAscii response).isSome = true →
          EveryCallKeeps decode dialog (r.lost (encode marker)) r.unread

variable {decode : Bytes → Option Text} {marker buf seen behind : Bytes} {chunks : List Bytes}

/-! ## One chunk -/

theorem length_getLastD_le (first : Bytes) (later : List Bytes) :
    ((first :: later).getLastD []).length ≤ first.length + (joined newline later).length := by
  induction later generalizing first with
  | nil => exact Nat.le_refl _
  | cons next later ih =>
      have tail := ih next
      rw [joined, List.flatMap_cons, List.length_append, List.length_cons]
      rw [joined] at tail
      change ((next :: later).getLastD []).length ≤ _
      omega

theorem last_suffix (bytes : Bytes) : (bytes.splitOn newline).getLastD [] <:+ bytes := by
  induction bytes using linewise newline with
  | last bytes whole =>
      rw [List.splitOn_eq_singleton whole]
      exact List.suffix_refl bytes
  | next line rest whole ih =>
      obtain ⟨first, later, split⟩ := List.exists_cons_of_ne_nil (List.splitOn_ne_nil newline rest)
      rw [splitOn_line whole]
      rw [split] at ih ⊢
      exact ih.trans ((List.suffix_cons newline rest).trans (List.suffix_append line _))

/-- A found line, in front of which no line has the marker. -/
theorem split_of_found {bytes line : Bytes} {later : List Bytes}
    (found : (bytes.splitOn newline).dropWhile (fun line => !decide (marker <:+: line)) = line :: later) :
    ∃ front, bytes.splitOn newline = front ++ line :: later ∧ (∀ earlier ∈ front, ¬ marker <:+: earlier) ∧
      marker <:+: line := by
  refine ⟨(bytes.splitOn newline).takeWhile fun line => !decide (marker <:+: line), ?_, ?_, ?_⟩
  · rw [← found, List.takeWhile_append_dropWhile]
  · intro earlier inside marked
    have unmarked := List.mem_takeWhile_imp inside
    simp [marked] at unmarked
  · have stops := List.head?_dropWhile_not (fun line => !decide (marker <:+: line))
      (bytes.splitOn newline)
    rw [found] at stops
    simpa using stops

/-- A found line and what is behind it, as the first occurrence in the buffer. -/
theorem after_of_found (oneLine : newline ∉ marker) {bytes line : Bytes} {later : List Bytes}
    (found : (bytes.splitOn newline).dropWhile (fun line => !decide (marker <:+: line)) = line :: later) :
    after marker bytes = some ((after marker line).getD [] ++ joined newline later) := by
  obtain ⟨front, _, _, inside⟩ := split_of_found found
  obtain ⟨rest, first⟩ := Option.ne_none_iff_exists'.mp (after_ne_none_iff.mpr inside)
  rw [after_eq_lines oneLine, found]
  simp only [first, Option.map_some, Option.getD_some]

theorem length_of_found (oneLine : newline ∉ marker) {bytes line : Bytes} {later : List Bytes}
    (found : (bytes.splitOn newline).dropWhile (fun line => !decide (marker <:+: line)) = line :: later) :
    ((after marker line).getD []).length + (joined newline later).length + marker.length ≤ bytes.length := by
  have fits := length_after (after_of_found oneLine found)
  rwa [List.length_append] at fits

/-! ## One chunk after the other -/

theorem lastLine_append (seen chunk : Bytes) :
    ((seen ++ chunk).splitOn newline).getLastD [] =
      (((seen.splitOn newline).getLastD [] ++ chunk).splitOn newline).getLastD [] := by
  rw [splitOn_append]
  rcases List.eq_nil_or_concat
      (((seen.splitOn newline).getLastD [] ++ chunk).splitOn newline) with none' | ⟨front, last, split⟩
  · exact absurd none' (List.splitOn_ne_nil _ _)
  · rw [split, List.concat_eq_append, ← List.append_assoc, List.getLastD_concat, List.getLastD_concat]

theorem Complete.append (complete : Complete marker seen) (more : Bytes) : Complete marker (seen ++ more) := by
  obtain ⟨line, inside, marked⟩ := complete
  refine ⟨line, ?_, marked⟩
  rw [splitOn_append, List.dropLast_append_of_ne_nil (List.splitOn_ne_nil _ _)]
  exact List.mem_append_left _ inside

/-- As long as no line with the marker is complete it is looked for from the last line on. -/
theorem dropWhile_lines_append (pending : ¬ Complete marker seen) (chunk : Bytes) :
    ((seen ++ chunk).splitOn newline).dropWhile (fun line => !decide (marker <:+: line)) =
      (((seen.splitOn newline).getLastD [] ++ chunk).splitOn newline).dropWhile
        fun line => !decide (marker <:+: line) := by
  rw [splitOn_append]
  refine List.dropWhile_append_of_pos fun line inside => ?_
  have unmarked : ¬ marker <:+: line := fun marked => pending ⟨line, inside, marked⟩
  simp [unmarked]

theorem not_complete_of_unmarked
    (unmarked : (seen.splitOn newline).dropWhile (fun line => !decide (marker <:+: line)) = []) :
    ¬ Complete marker seen := by
  rintro ⟨line, inside, marked⟩
  have absent := List.dropWhile_eq_nil_iff.mp unmarked line (List.mem_of_mem_dropLast inside)
  simp [marked] at absent

theorem complete_iff_of_found {line : Bytes} {later : List Bytes}
    (found : (seen.splitOn newline).dropWhile (fun line => !decide (marker <:+: line)) = line :: later) :
    Complete marker seen ↔ later ≠ [] := by
  obtain ⟨front, split, unmarked, marked⟩ := split_of_found found
  rw [Complete, split, List.dropLast_append_of_ne_nil (List.cons_ne_nil _ _)]
  constructor
  · rintro ⟨other, inside, marked'⟩ rfl
    exact unmarked other (by simpa using inside) marked'
  · intro more
    obtain ⟨next, rest, rfl⟩ := List.exists_cons_of_ne_nil more
    exact ⟨line, by simp, marked⟩

theorem length_last_lt_of_found {bytes line : Bytes} {later : List Bytes}
    (found : (bytes.splitOn newline).dropWhile (fun line => !decide (marker <:+: line)) = line :: later)
    (more : later ≠ []) :
    ((bytes.splitOn newline).getLastD []).length < (joined newline later).length := by
  obtain ⟨front, split, _, _⟩ := split_of_found found
  obtain ⟨next, rest, rfl⟩ := List.exists_cons_of_ne_nil more
  have last : (bytes.splitOn newline).getLastD [] = (next :: rest).getLastD [] := by
    rcases List.eq_nil_or_concat (next :: rest) with none' | ⟨init, last, concat⟩
    · cases none'
    · have whole : front ++ line :: (init ++ [last]) = (front ++ line :: init) ++ [last] := by simp
      rw [split, concat, List.concat_eq_append, whole, List.getLastD_concat, List.getLastD_concat]
  have fits := length_getLastD_le next rest
  rw [last, joined, List.flatMap_cons, List.length_append, List.length_cons]
  rw [joined] at fits
  omega

/-- What a call finds is behind what it has dropped. -/
theorem length_behind_le (oneLine : newline ∉ marker) {r : Returned}
    (run : awaitFrom decode marker buf chunks = some r) :
    (r.behind marker).length + marker.length ≤ buf.length + chunks.flatten.length := by
  induction chunks generalizing buf with
  | nil => cases run
  | cons chunk chunks ih =>
      have reads := (last_suffix (buf ++ chunk)).length_le
      rw [List.flatten_cons, List.length_append]
      rw [List.length_append] at reads
      rw [awaitFrom] at run
      split at run
      · next line later found =>
        split at run
        · cases run
          have fits := length_of_found oneLine found
          simp only [Returned.behind, Returned.lost, List.length_append] at fits ⊢
          omega
        · have rest := ih run
          omega
      · have rest := ih run
        omega

theorem lineWith_eq_head? (seen : Bytes) : lineWith marker seen =
    ((seen.splitOn newline).dropWhile fun line => !decide (marker <:+: line)).head? :=
  List.find?_eq_head?_dropWhile_not _ _

/-- What decides at the end of the first chunk is no longer of interest behind it. -/
theorem decodedInTime_cons_iff (chunk : Bytes) (chunks : List Bytes) :
    DecodedInTime decode marker seen (chunk :: chunks) ↔
      (¬ Complete marker seen ∧ ∃ line, lineWith marker (seen ++ chunk) = some line ∧
          (decode line).isSome = true) ∨
        DecodedInTime decode marker (seen ++ chunk) chunks := by
  constructor
  · rintro ⟨read, last, unread, split, pending, line, found, decodes⟩
    cases read with
    | nil =>
        cases split
        exact Or.inl ⟨by simpa using pending, line, by simpa using found, decodes⟩
    | cons first read =>
        cases split
        refine Or.inr ⟨read, last, unread, rfl, ?_, line, ?_, decodes⟩
        · simpa using pending
        · simpa using found
  · rintro (⟨pending, line, found, decodes⟩ | ⟨read, last, unread, rfl, pending, line, found, decodes⟩)
    · exact ⟨[], chunk, chunks, rfl, by simpa using pending, line, by simpa using found, decodes⟩
    · exact ⟨chunk :: read, last, unread, rfl, by simpa using pending, line, by simpa using found, decodes⟩

theorem not_decodedInTime_of_complete (complete : Complete marker seen) :
    ¬ DecodedInTime decode marker seen chunks := by
  rintro ⟨read, _, _, _, pending, _⟩
  exact pending (complete.append _)

/--
A call that has read some of the stream gets to the first occurrence of its
marker if and only if the line is decoded in time.
-/
theorem awaitFrom_behind_iff (oneLine : newline ∉ marker) (pending : ¬ Complete marker seen)
    (first : after marker (seen ++ chunks.flatten) = some behind) :
    (∃ r, awaitFrom decode marker ((seen.splitOn newline).getLastD []) chunks = some r ∧
      r.behind marker = behind) ↔ DecodedInTime decode marker seen chunks := by
  induction chunks generalizing seen with
  | nil =>
      constructor
      · rintro ⟨r, run, _⟩
        cases run
      · rintro ⟨read, chunk, unread, split, _⟩
        cases read <;> cases split
  | cons chunk chunks ih =>
      rw [List.flatten_cons, ← List.append_assoc] at first
      rw [decodedInTime_cons_iff, lineWith_eq_head?, and_iff_right pending, awaitFrom,
        ← dropWhile_lines_append pending, ← lastLine_append]
      cases marked : ((seen ++ chunk).splitOn newline).dropWhile
          fun line => !decide (marker <:+: line) with
      | nil =>
          have waits : ¬ ∃ line : Bytes, ([] : List Bytes).head? = some line ∧
              (decode line).isSome = true := by
            rintro ⟨_, impossible, _⟩
            cases impossible
          rw [or_iff_right waits]
          exact ih (not_complete_of_unmarked marked) first
      | cons line later =>
          have place := after_append (after_of_found oneLine marked) chunks.flatten
          cases first.symm.trans place
          cases decodes : decode line with
          | some prompt =>
              have decoded : (decode line).isSome = true := by rw [decodes]; rfl
              simp only [decodes]
              exact iff_of_true ⟨_, rfl, rfl⟩ (Or.inl ⟨line, rfl, decoded⟩)
          | none =>
              have fails : ¬ ∃ other : Bytes, (line :: later).head? = some other ∧
                  (decode other).isSome = true := by
                rintro ⟨_, same, decoded⟩
                cases same
                rw [decodes] at decoded
                cases decoded
              rw [or_iff_right fails]
              simp only [decodes]
              by_cases complete : Complete marker (seen ++ chunk)
              · -- The line is dropped, and what is found later is behind it.
                refine iff_of_false ?_ (not_decodedInTime_of_complete complete)
                rintro ⟨r, run, reaches⟩
                have fits := length_behind_le oneLine run
                have last := length_last_lt_of_found marked ((complete_iff_of_found marked).mp complete)
                rw [reaches, List.length_append, List.length_append] at fits
                omega
              · exact ih complete first

theorem infix_of_awaitFrom (oneLine : newline ∉ marker) {r : Returned}
    (run : awaitFrom decode marker buf chunks = some r) : marker <:+: buf ++ chunks.flatten := by
  induction chunks generalizing buf with
  | nil => cases run
  | cons chunk chunks ih =>
      rw [List.flatten_cons, ← List.append_assoc]
      have further : awaitFrom decode marker (((buf ++ chunk).splitOn newline).getLastD []) chunks =
          some r → marker <:+: buf ++ chunk ++ chunks.flatten := by
        intro run
        obtain ⟨front, whole⟩ := last_suffix (buf ++ chunk)
        have inLast := ih run
        rw [← whole, List.append_assoc]
        exact inLast.trans (List.suffix_append front _).isInfix
      rw [awaitFrom] at run
      split at run
      · next line later found =>
        split at run
        · have place := after_of_found oneLine found
          have inside : marker <:+: buf ++ chunk := after_ne_none_iff.mp (by simp [place])
          exact inside.trans (List.prefix_append _ _).isInfix
        · exact further run
      · exact further run

theorem awaitFrom_of_newline (twoLines : newline ∈ marker) (buf : Bytes) (chunks : List Bytes) :
    awaitFrom decode marker buf chunks = none := by
  induction chunks generalizing buf with
  | nil => rfl
  | cons chunk chunks ih =>
      have unmarked : ((buf ++ chunk).splitOn newline).dropWhile
          (fun line => !decide (marker <:+: line)) = [] := by
        refine List.dropWhile_eq_nil_iff.mpr fun line listed => ?_
        have absent : ¬ marker <:+: line := fun inside =>
          newline_not_mem_of_mem_splitOn listed (inside.subset twoLines)
        simp [absent]
      rw [awaitFrom, unmarked]
      exact ih _

/-- A call finds what it is to find, or rightly nothing. -/
theorem awaitLine_eq_search_iff (marker : Text) (lost : Bytes) (chunks : List Bytes) :
    (awaitLine decode chunks marker).map (Returned.behind (encode marker)) =
        search marker (lost ++ chunks.flatten) ↔ Keeps decode marker lost chunks := by
  by_cases oneLine : newline ∈ encode marker
  · have nothing : ∀ bytes, search marker bytes = none := fun _ => if_pos oneLine
    rw [awaitLine, awaitFrom_of_newline oneLine, nothing]
    exact iff_of_true rfl ⟨fun other => absurd oneLine other, fun found => absurd (nothing _) found⟩
  · have finds : ∀ bytes, search marker bytes = after (encode marker) bytes := fun _ => if_neg oneLine
    rw [finds]
    by_cases early : BeginsIn (encode marker) lost chunks.flatten
    · refine iff_of_false ?_ fun keeps => keeps.notLost oneLine early
      obtain ⟨behind, first, longer⟩ := length_after_of_beginsIn early
      rw [first, Option.map_eq_some_iff]
      rintro ⟨r, run, reaches⟩
      have fits := length_behind_le oneLine run
      rw [reaches, List.length_nil] at fits
      omega
    · rw [after_append_of_not_beginsIn early]
      cases first : after (encode marker) chunks.flatten with
      | none =>
          refine iff_of_true ?_ ⟨fun _ => early, fun found => absurd ((finds _).trans first) found⟩
          rw [Option.map_eq_none_iff]
          by_contra some'
          obtain ⟨r, run⟩ := Option.ne_none_iff_exists'.mp some'
          exact after_eq_none_iff.mp first (infix_of_awaitFrom oneLine run)
      | some behind =>
          have pending : ¬ Complete (encode marker) [] := by
            rintro ⟨line, inside, _⟩
            cases inside
          rw [Option.map_eq_some_iff]
          refine (awaitFrom_behind_iff oneLine pending first).trans ?_
          constructor
          · exact fun decoded => ⟨fun _ => early, fun _ => decoded⟩
          · intro keeps
            refine keeps.decoded ?_
            rw [finds, first]
            exact Option.some_ne_none _

/-! ## The whole dialog -/

theorem Outcome.behind_inj {behind behind' : Bytes} {typed : List Bytes} {o o' : Outcome} :
    o.behind behind typed = o'.behind behind' typed ↔ behind = behind' ∧ o = o' := by
  obtain ⟨found, all, verdict⟩ := o
  obtain ⟨found', all', verdict'⟩ := o'
  simp [Outcome.behind, and_assoc]

/--
A test finds its markers where they are, and ends as it is to end, if and only
if each of its calls finds the stream as it needs it.
-/
theorem runTest_eq_searchAll_iff (decode : Bytes → Option Text) (dialog : List Text) (ending : Ending)
    (lost : Bytes) (chunks : List Bytes) :
    runTest decode dialog ending chunks = searchAll dialog ending (lost ++ chunks.flatten) ↔
      EveryCallKeeps decode dialog lost chunks := by
  fun_induction EveryCallKeeps decode dialog lost chunks with
  | case1 => exact iff_of_true rfl trivial
  | case2 marker lost chunks =>
      rw [← awaitLine_eq_search_iff, runTest, searchAll, converse, converse]
      cases awaitLine decode chunks marker with
      | none => cases search marker (lost ++ chunks.flatten) <;> simp
      | some r => cases search marker (lost ++ chunks.flatten) <;> simp
  | case3 marker response dialog lost chunks ih =>
      rw [← awaitLine_eq_search_iff, runTest, searchAll, converse, converse]
      cases awaitLine decode chunks marker with
      | none =>
          cases search marker (lost ++ chunks.flatten) with
          | none => simp
          | some behind =>
              simp only [Option.map_none, Option.map_some]
              cases encodeAscii response <;> simp [Outcome.behind]
      | some r =>
          cases search marker (lost ++ chunks.flatten) with
          | none =>
              simp only [Option.map_none, Option.map_some]
              cases encodeAscii response <;> simp [Outcome.behind]
          | some behind =>
              simp only [Option.map_some]
              cases encodeAscii response with
              | none => simp
              | some line =>
                  -- Behind the same match the next calls decide.
                  simp only [Outcome.behind_inj, Option.some_inj, Option.isSome_some, forall_const,
                    forall_eq']
                  refine and_congr_right fun same => ?_
                  rw [← same]
                  exact ih r

/--
Two ways to read the same output come to the same end, that of a search without
a buffer, if and only if all the calls of both find the stream as they need it.
-/
theorem runTest_same_iff (decode : Bytes → Option Text) (dialog : List Text) (ending : Ending)
    {bytes : Bytes} {chunks chunks' : List Bytes} (splits : Splits bytes chunks)
    (splits' : Splits bytes chunks') :
    (runTest decode dialog ending chunks = runTest decode dialog ending chunks' ∧
        runTest decode dialog ending chunks' = searchAll dialog ending bytes) ↔
      EveryCallKeeps decode dialog [] chunks ∧ EveryCallKeeps decode dialog [] chunks' := by
  have one := runTest_eq_searchAll_iff decode dialog ending [] chunks
  have other := runTest_eq_searchAll_iff decode dialog ending [] chunks'
  rw [List.nil_append, splits.whole] at one
  rw [List.nil_append, splits'.whole] at other
  rw [← one, ← other]
  constructor
  · exact fun both => ⟨both.1.trans both.2, both.2⟩
  · exact fun both => ⟨both.1.trans both.2.symm, both.2⟩

/-- The decoder, for ASCII. -/
def decodeAscii (line : Bytes) : Option Text :=
  if line.all fun byte => decide (byte < 0x80) then some (line.map fun byte => Char.ofNat byte.toNat)
  else none

/-- The prompt, the echo of what is typed, and the shell. -/
def boot : Bytes := encode "login: root\n# ".toList

def login : List Text := ["login:".toList, "root".toList, "#".toList]

theorem boot_splits : Splits boot [encode "login: ".toList, encode "root\n# ".toList] :=
  ⟨by decide, by decide, by decide⟩

theorem boot_splits_bytes : Splits boot (boot.map fun byte => [byte]) :=
  ⟨by decide, by decide, by decide⟩

theorem boot_splits_at_once : Splits boot [boot] := ⟨by decide, by decide, by decide⟩

theorem late_prompt_kept :
    EveryCallKeeps decodeAscii login [] [encode "login: ".toList, encode "root\n# ".toList] ∧
      EveryCallKeeps decodeAscii login [] (boot.map fun byte => [byte]) :=
  (runTest_same_iff decodeAscii login .silent boot_splits boot_splits_bytes).mp
    ⟨by decide, by decide⟩

/-- Read at once the shell's prompt is lost, read byte by byte it is found. -/
theorem read_at_once_differs :
    Splits boot [boot] ∧ Splits boot (boot.map fun byte => [byte]) ∧
      (runTest decodeAscii login .silent [boot]).verdict = .timeout ∧
      (runTest decodeAscii login .silent (boot.map fun byte => [byte])).verdict = .successful :=
  ⟨boot_splits_at_once, boot_splits_bytes, by decide, by decide⟩

/-! ## Byte by byte -/

def bytewise (bytes : Bytes) : List Bytes := bytes.map fun byte => [byte]

theorem flatten_bytewise (bytes : Bytes) : (bytewise bytes).flatten = bytes := by
  induction bytes with
  | nil => rfl
  | cons byte bytes ih => exact congrArg (byte :: ·) ih

/-- Every piece of a line can be decoded. -/
def Readable (decode : Bytes → Option Text) (bytes : Bytes) : Prop :=
  ∀ piece, piece <:+: bytes → newline ∉ piece → decode piece ≠ none

theorem Readable.of_infix {bytes part : Bytes} (readable : Readable decode bytes) (inside : part <:+: bytes) :
    Readable decode part := fun piece within => readable piece (within.trans inside)

/-- A word that was not there before the last byte ends with it. -/
theorem after_concat {byte : UInt8} (absent : ¬ marker <:+: buf) (there : marker <:+: buf ++ [byte]) :
    after marker (buf ++ [byte]) = some [] := by
  obtain ⟨rest, found⟩ := Option.ne_none_iff_exists'.mp (after_ne_none_iff.mpr there)
  obtain ⟨before, split⟩ := exists_of_after found
  rcases List.eq_nil_or_concat rest with rfl | ⟨front, last, rfl⟩
  · exact found
  · rw [List.concat_eq_append, ← List.append_assoc] at split
    obtain ⟨whole, _⟩ := List.append_inj' split rfl
    exact absurd ⟨before, front, whole.symm⟩ absent

theorem awaitFrom_bytewise (oneLine : newline ∉ marker) (proper : marker ≠ []) (whole : newline ∉ buf)
    (absent : ¬ marker <:+: buf) (bytes : Bytes) (readable : Readable decode (buf ++ bytes)) :
    (awaitFrom decode marker buf (bytewise bytes)).map (fun r => (r.behind marker, r.unread)) =
      (after marker (buf ++ bytes)).map fun rest => (rest, bytewise rest) := by
  induction bytes generalizing buf with
  | nil =>
      rw [List.append_nil, after_eq_none_iff.mpr absent]
      rfl
  | cons byte bytes ih =>
      change (awaitFrom decode marker buf ([byte] :: bytewise bytes)).map _ = _
      by_cases ends : byte = newline
      · subst ends
        have notEmpty : ¬ marker <:+: [] := fun inside => proper (List.infix_nil.mp inside)
        have lines : (buf ++ [newline]).splitOn newline = [buf, []] := by
          rw [splitOn_line whole, List.splitOn_nil]
        have none' : [buf, []].dropWhile (fun line => !decide (marker <:+: line)) = [] := by
          simp [absent, notEmpty]
        rw [awaitFrom, lines, none', after_line_of_absent oneLine absent]
        have later : [] ++ bytes <:+: buf ++ newline :: bytes := ⟨buf ++ [newline], [], by simp⟩
        exact ih List.not_mem_nil notEmpty (readable.of_infix later)
      · have wholeNow : newline ∉ buf ++ [byte] := by
          rw [List.mem_append, List.mem_singleton]
          rintro (early | now)
          · exact whole early
          · exact ends now.symm
        have text : buf ++ byte :: bytes = buf ++ [byte] ++ bytes := by simp
        rw [text] at readable ⊢
        rw [awaitFrom, List.splitOn_eq_singleton wholeNow]
        by_cases there : marker <:+: buf ++ [byte]
        · have stops : [buf ++ [byte]].dropWhile (fun line => !decide (marker <:+: line)) =
              [buf ++ [byte]] := by simp [there]
          have last := after_concat absent there
          obtain ⟨prompt, decoded⟩ := Option.ne_none_iff_exists'.mp
            (readable (buf ++ [byte]) (List.prefix_append _ _).isInfix wholeNow)
          rw [stops, after_append last]
          simp only [decoded, Option.map_some, Returned.behind, Returned.lost, last, Option.getD_some,
            flatten_bytewise, joined, List.flatMap_nil, List.append_nil, List.nil_append]
        · have passes : [buf ++ [byte]].dropWhile (fun line => !decide (marker <:+: line)) = [] := by
            simp [there]
          rw [passes]
          exact ih wholeNow there readable

theorem eq_none_of_rel {α β : Type} {R : α → β → Prop} {y : Option β} (rel : Option.Rel R none y) :
    y = none := by
  cases rel
  rfl

theorem exists_of_rel {α β : Type} {R : α → β → Prop} {x : α} {y : Option β}
    (rel : Option.Rel R (some x) y) : ∃ z, y = some z ∧ R x z := by
  cases rel with
  | some related => exact ⟨_, rfl, related⟩

/-- Two ways to find markers that agree on every call make the same of a dialog. -/
theorem converse_eq {σ τ : Type} {await : Text → σ → Option (Bytes × σ)}
    {await' : Text → τ → Option (Bytes × τ)} {R : σ → τ → Prop} {dialog : List Text} (missing : Verdict)
    (calls : ∀ marker ∈ dialog, ∀ s t, R s t →
      Option.Rel (fun x y => x.1 = y.1 ∧ R x.2 y.2) (await marker s) (await' marker t))
    {s : σ} {t : τ} (related : R s t) :
    converse await missing dialog s = converse await' missing dialog t := by
  fun_induction converse await missing dialog s generalizing t with
  | case1 => rfl
  | case2 marker s nothing =>
      have call := calls marker List.mem_cons_self s t related
      rw [nothing] at call
      rw [converse, eq_none_of_rel call]
  | case3 marker s behind next found =>
      have call := calls marker List.mem_cons_self s t related
      rw [found] at call
      obtain ⟨⟨_, next'⟩, other, rfl, _⟩ := exists_of_rel call
      rw [converse, other]
  | case4 marker response dialog s nothing =>
      have call := calls marker List.mem_cons_self s t related
      rw [nothing] at call
      rw [converse, eq_none_of_rel call]
  | case5 marker response dialog s behind next found typed =>
      have call := calls marker List.mem_cons_self s t related
      rw [found] at call
      obtain ⟨⟨_, next'⟩, other, rfl, _⟩ := exists_of_rel call
      rw [converse, other]
      simp only [typed]
  | case6 marker response dialog s behind next found line typed ih =>
      have call := calls marker List.mem_cons_self s t related
      rw [found] at call
      obtain ⟨⟨_, next'⟩, other, rfl, further⟩ := exists_of_rel call
      have rest := ih (fun marker inside => calls marker (by simp [inside])) further
      rw [converse, other]
      simp only [typed, rest]

theorem suffix_of_search {marker : Text} {bytes rest : Bytes} (found : search marker bytes = some rest) :
    rest <:+ bytes := by
  rw [search] at found
  split at found
  · cases found
  · obtain ⟨before, rfl⟩ := exists_of_after found
    exact List.suffix_append _ rest

theorem encode_ne_nil {marker : Text} (proper : marker ≠ []) : encode marker ≠ [] := by
  obtain ⟨c, rest, split⟩ := List.exists_cons_of_ne_nil proper
  rw [split, encode, List.flatMap_cons]
  exact List.append_ne_nil_of_left_ne_nil String.utf8EncodeChar_ne_nil _

/-- A test that reads byte by byte finds every marker, in an output that can be decoded. -/
theorem runTest_bytewise (dialog : List Text) (proper : ∀ marker ∈ dialog, marker ≠ []) (ending : Ending)
    (bytes : Bytes) (readable : Readable decode bytes) :
    runTest decode dialog ending (bytewise bytes) = searchAll dialog ending bytes := by
  refine converse_eq (R := fun chunks bytes => chunks = bytewise bytes ∧ Readable decode bytes) _ ?_
    ⟨rfl, readable⟩
  rintro marker inside chunks bytes ⟨rfl, readable⟩
  have encoded := encode_ne_nil (proper marker inside)
  have call : (awaitLine decode (bytewise bytes) marker).map
      (fun r => (r.behind (encode marker), r.unread)) =
        (search marker bytes).map fun rest => (rest, bytewise rest) := by
    by_cases oneLine : newline ∈ encode marker
    · rw [awaitLine, awaitFrom_of_newline oneLine, search, if_pos oneLine]
      rfl
    · rw [awaitLine, search, if_neg oneLine]
      exact awaitFrom_bytewise oneLine encoded List.not_mem_nil
        (fun inside => encoded (List.infix_nil.mp inside)) bytes readable
  rw [call]
  cases found : search marker bytes with
  | none => exact .none
  | some rest =>
      exact .some ⟨rfl, rfl, readable.of_infix (suffix_of_search found).isInfix⟩

/-- Among all the ways to read an output byte by byte is one that keeps what the calls need. -/
theorem runTest_eq_bytewise_iff (dialog : List Text) (proper : ∀ marker ∈ dialog, marker ≠ [])
    (ending : Ending) (chunks : List Bytes) (readable : Readable decode chunks.flatten) :
    runTest decode dialog ending chunks = runTest decode dialog ending (bytewise chunks.flatten) ↔
      EveryCallKeeps decode dialog [] chunks := by
  rw [runTest_bytewise dialog proper ending _ readable]
  exact runTest_eq_searchAll_iff decode dialog ending [] chunks

end GnomeBuildMeta.PhoneTest
