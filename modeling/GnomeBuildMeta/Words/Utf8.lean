import GnomeBuildMeta.Words.Occurrence
import GnomeBuildMeta.Words.Search

/-!
# Texts in UTF-8

An ASCII character is one byte, and no other character has that byte.  So a text
is cut at an ASCII character where its bytes are, and an ASCII word is found in
the bytes where it is found in the text.
-/

namespace GnomeBuildMeta.Words

/-- The bytes of a text. -/
abbrev utf8 (text : List Char) : List UInt8 := text.flatMap String.utf8EncodeChar

/-- The text of some bytes. -/
def decodeUtf8 (bytes : List UInt8) : Option (List Char) :=
  bytes.toByteArray.utf8Decode?.map fun array => array.toList

theorem decodeUtf8_utf8 (text : List Char) : decodeUtf8 (utf8 text) = some text := by
  change (text.utf8Encode.utf8Decode?.map fun array => array.toList) = some text
  rw [List.utf8Decode?_utf8Encode]
  rfl

theorem decodeUtf8_eq_some_iff {bytes : List UInt8} {text : List Char} :
    decodeUtf8 bytes = some text ↔ bytes = utf8 text := by
  constructor
  · intro decoded
    obtain ⟨array, found, _⟩ := Option.map_eq_some_iff.mp decoded
    obtain ⟨other, whole⟩ := ByteArray.isSome_utf8Decode?_iff.mp (Option.isSome_of_eq_some found)
    have same : bytes = utf8 other := List.toByteArray_inj.mp whole
    rw [same, decodeUtf8_utf8] at decoded
    rw [same, Option.some.inj decoded]
  · rintro rfl
    exact decodeUtf8_utf8 text

theorem utf8_of_ascii {c : Char} (ascii : c.toNat < 128) :
    String.utf8EncodeChar c = [UInt8.ofNat c.toNat] :=
  if_pos (Nat.le_of_lt_succ ascii)

/-- A character that is no ASCII character has no ASCII byte. -/
theorem le_of_mem_utf8 {c : Char} (wide : 128 ≤ c.toNat) {byte : UInt8}
    (member : byte ∈ String.utf8EncodeChar c) : 128 ≤ byte.toNat := by
  have notAscii : ¬ c.val.toNat ≤ 0x7f := Nat.not_le_of_lt wide
  simp only [String.utf8EncodeChar, if_neg notAscii] at member
  split at member
  · simp only [List.mem_cons, List.not_mem_nil, or_false] at member
    rcases member with rfl | rfl <;> rw [UInt8.toNat_ofNat'] <;> omega
  · split at member
    · simp only [List.mem_cons, List.not_mem_nil, or_false] at member
      rcases member with rfl | rfl | rfl <;> rw [UInt8.toNat_ofNat'] <;> omega
    · simp only [List.mem_cons, List.not_mem_nil, or_false] at member
      rcases member with rfl | rfl | rfl | rfl <;> rw [UInt8.toNat_ofNat'] <;> omega

/-- The byte of an ASCII character is in a character's bytes only if it is that character. -/
theorem eq_of_mem_utf8 {c d : Char} (ascii : c.toNat < 128)
    (member : UInt8.ofNat c.toNat ∈ String.utf8EncodeChar d) : d = c := by
  by_cases asciiToo : d.toNat < 128
  · rw [utf8_of_ascii asciiToo, List.mem_singleton] at member
    have values := congrArg UInt8.toNat member
    rw [UInt8.toNat_ofNat', UInt8.toNat_ofNat'] at values
    exact Char.toNat_inj.mp (by omega)
  · have wide := le_of_mem_utf8 (Nat.le_of_not_lt asciiToo) member
    rw [UInt8.toNat_ofNat'] at wide
    omega

theorem mem_utf8_iff {c : Char} (ascii : c.toNat < 128) {text : List Char} :
    UInt8.ofNat c.toNat ∈ utf8 text ↔ c ∈ text := by
  rw [List.mem_flatMap]
  constructor
  · rintro ⟨d, inside, member⟩
    rwa [eq_of_mem_utf8 ascii member] at inside
  · intro inside
    exact ⟨c, inside, by rw [utf8_of_ascii ascii]; exact List.mem_cons_self⟩

theorem splitOn_utf8 {c : Char} (ascii : c.toNat < 128) (text : List Char) :
    (utf8 text).splitOn (UInt8.ofNat c.toNat) = (text.splitOn c).map utf8 := by
  induction text using linewise c with
  | last text whole =>
      rw [List.splitOn_eq_singleton whole, List.splitOn_eq_singleton (mt (mem_utf8_iff ascii).mp whole)]
      rfl
  | next line rest whole ih =>
      have bytes : utf8 (line ++ c :: rest) = utf8 line ++ UInt8.ofNat c.toNat :: utf8 rest := by
        rw [utf8, List.flatMap_append, List.flatMap_cons, utf8_of_ascii ascii]
        rfl
      rw [bytes, splitOn_line (mt (mem_utf8_iff ascii).mp whole), splitOn_line whole, ih, List.map_cons]

/-- A text has a word in front if its bytes have. -/
theorem prefix_of_prefix_utf8 {word text : List Char} (first : utf8 word <+: utf8 text) : word <+: text := by
  obtain ⟨rest, whole⟩ := first
  refine List.isPrefix_of_utf8Encode_append_eq_utf8Encode rest.toByteArray ?_
  change (utf8 word).toByteArray ++ rest.toByteArray = (utf8 text).toByteArray
  rw [← List.toByteArray_append, whole]

theorem infix_utf8_iff {word text : List Char} (ascii : ∀ c ∈ word, c.toNat < 128) :
    utf8 word <:+: utf8 text ↔ word <:+: text := by
  constructor
  · intro inside
    induction text with
    | nil =>
        have empty := List.infix_nil.mp inside
        cases word with
        | nil => exact List.nil_infix
        | cons c word =>
            rw [utf8, List.flatMap_cons] at empty
            exact absurd (List.append_eq_nil_iff.mp empty).1 String.utf8EncodeChar_ne_nil
    | cons d text ih =>
        by_cases first : utf8 word <+: utf8 (d :: text)
        · exact (prefix_of_prefix_utf8 first).isInfix
        · cases word with
          | nil => exact List.nil_infix
          | cons c word =>
              have asciiHere := ascii c List.mem_cons_self
              have start : utf8 (c :: word) = UInt8.ofNat c.toNat :: utf8 word := by
                rw [utf8, List.flatMap_cons, utf8_of_ascii asciiHere]
                rfl
              have split : utf8 (d :: text) = String.utf8EncodeChar d ++ utf8 text := List.flatMap_cons
              refine (ih ?_).trans (List.suffix_cons d text).isInfix
              rw [start, split] at inside first
              rw [start]
              by_cases member : UInt8.ofNat c.toNat ∈ String.utf8EncodeChar d
              · -- The character is the word's first one, alone in its byte.
                rw [eq_of_mem_utf8 asciiHere member, utf8_of_ascii asciiHere] at inside first
                exact (List.infix_cons_iff.mp inside).resolve_left first
              · exact infix_of_infix_append member inside
  · rintro ⟨before, after, rfl⟩
    exact ⟨utf8 before, utf8 after, by simp only [utf8, List.flatMap_append]⟩

end GnomeBuildMeta.Words
