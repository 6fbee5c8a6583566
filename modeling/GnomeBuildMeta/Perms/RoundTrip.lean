import GnomeBuildMeta.Perms.Tmpfiles
import GnomeBuildMeta.Words.Cut
import GnomeBuildMeta.Words.Utf8
import Mathlib.Algebra.Group.Nat.Defs

/-!
# The lines are read back

Undoing the escapes gives the bytes of the path again, unless a byte of it could
not be decoded: the lone surrogate that stands for it is no code point for
`systemd-tmpfiles`.
-/

namespace GnomeBuildMeta.Perms

open GnomeBuildMeta.Posix

/-! ## Digits -/

theorem digitValue_digit {d : Nat} (small : d < 16) : digitValue 16 (digit d) = some d := by
  have all : ∀ d < 16, digitValue 16 (digit d) = some d := by decide
  exact all d small

theorem digitValue_octal {d : Nat} (small : d < 8) : digitValue 8 (digit d) = some d := by
  have all : ∀ d < 8, digitValue 8 (digit d) = some d := by decide
  exact all d small

/-- The first digits of a number are taken up before the others. -/
theorem unescapeFrom_digits {base : Nat}
    (readable : ∀ d, d < base → digitValue base (digit d) = some d) (positive : 0 < base)
    (width more value acc : Nat) (asByte : Bool) (rest : List Char) :
    unescapeFrom (.digits base (width + (more + 1)) acc asByte) (digits base width value ++ rest) =
      unescapeFrom (.digits base (more + 1) (base ^ width * acc + value % base ^ width) asByte)
        rest := by
  induction width generalizing more value rest with
  | zero => simp [digits, Nat.mod_one]
  | succ width ih =>
      have split : base ^ (width + 1) * acc + value % base ^ (width + 1) =
          base * (base ^ width * acc + value / base % base ^ width) + value % base := by
        rw [Nat.pow_succ, Nat.mul_comm (base ^ width) base, Nat.mod_mul, Nat.mul_add,
          Nat.mul_assoc]
        omega
      have last := readable (value % base) (Nat.mod_lt value positive)
      have shift : width + 1 + (more + 1) = width + (more + 1 + 1) := by omega
      rw [digits, List.append_assoc, shift, ih (more + 1), List.singleton_append, unescapeFrom, last]
      simp only [split]
      rw [if_neg (by omega), Nat.add_sub_cancel]

/-- A number of fixed width is read as a whole. -/
theorem unescapeFrom_number {base : Nat}
    (readable : ∀ d, d < base → digitValue base (digit d) = some d) (positive : 0 < base)
    {width value : Nat} (fits : value < base ^ (width + 1)) (asByte : Bool) (rest : List Char) :
    unescapeFrom (.digits base (width + 1) 0 asByte) (digits base (width + 1) value ++ rest) =
      (escapedBytes value asByte).bind fun bytes =>
        (unescapeFrom .plain rest).map (bytes ++ ·) := by
  have last := readable (value % base) (Nat.mod_lt value positive)
  have whole : base * (value / base % base ^ width) + value % base = value := by
    rw [Nat.mod_eq_of_lt, Nat.div_add_mod]
    rw [Nat.div_lt_iff_lt_mul positive, ← Nat.pow_succ]
    exact fits
  rw [digits, List.append_assoc, unescapeFrom_digits readable positive width 0,
    List.singleton_append, unescapeFrom, last]
  simp only [Nat.mul_zero, Nat.zero_add, whole, Nat.le_refl, ↓reduceIte]
  cases escapedBytes value asByte <;> rfl

/-! ## Characters -/

/-- As a byte, an ASCII character is read as it is encoded. -/
theorem escapedBytes_ascii {m : PyChar} (noNul : m.ord ≠ 0) (ascii : m.ord < 128) :
    m.isScalar = true ∧ escapedBytes m.ord true = some m.encode := by
  cases m with
  | scalar c =>
      refine ⟨rfl, ?_⟩
      rw [PyChar.encode, Words.utf8_of_ascii ascii, escapedBytes, if_neg noNul, if_pos rfl]
      exact if_pos (Nat.lt_trans ascii (by decide))
  | surrogate byte =>
      have small := byte.toNat_lt
      rw [PyChar.ord] at ascii
      omega

/-- As a code point, every character but a surrogate is read as it is encoded. -/
theorem escapedBytes_codePoint {m : PyChar} (noNul : m.ord ≠ 0) :
    escapedBytes m.ord false = if m.isScalar then some m.encode else none := by
  rw [escapedBytes, if_neg noNul, if_neg Bool.false_ne_true]
  cases m with
  | scalar c =>
      have valid : (PyChar.scalar c).ord.isValidChar := c.valid
      have same : Char.ofNatAux (PyChar.scalar c).ord valid = c := Char.toNat_inj.mp rfl
      rw [dif_pos valid, same]
      rfl
  | surrogate byte =>
      have small := byte.toNat_lt
      have invalid : ¬ (PyChar.surrogate byte).ord.isValidChar := by
        rw [PyChar.ord]
        rintro (low | ⟨high, _⟩) <;> omega
      rw [dif_neg invalid]
      rfl

theorem ord_lt (m : PyChar) : m.ord < 16 ^ 8 := by
  cases m with
  | scalar c =>
      have valid : c.toNat.isValidChar := c.valid
      change c.toNat < 16 ^ 8
      rcases valid with low | ⟨_, high⟩ <;> omega
  | surrogate byte =>
      have small := byte.toNat_lt
      rw [PyChar.ord]
      omega

/-- Hexadecimal digits after a backslash and their marker are read as one number. -/
theorem unescapeFrom_hex {marker : Char} {width : Nat} {asByte : Bool}
    (known : ∀ tail, unescapeFrom .plain ('\\' :: marker :: tail) =
      unescapeFrom (.digits 16 (width + 1) 0 asByte) tail)
    {value : Nat} (fits : value < 16 ^ (width + 1)) (rest : List Char) :
    unescapeFrom .plain ('\\' :: marker :: digits 16 (width + 1) value ++ rest) =
      (escapedBytes value asByte).bind fun bytes =>
        (unescapeFrom .plain rest).map (bytes ++ ·) := by
  rw [List.cons_append, List.cons_append, known,
    unescapeFrom_number (fun d => digitValue_digit) (by decide) fits]

/-- An escaped character is read as its bytes, a surrogate is refused. -/
theorem unescapeFrom_escapeChar {m : PyChar} (noNul : m.ord ≠ 0) (rest : List Char) :
    unescapeFrom .plain (escapeChar m ++ rest) =
      if m.isScalar then (unescapeFrom .plain rest).map (m.encode ++ ·) else none := by
  have byte : ∀ {value : Nat}, value < 16 ^ 2 →
      unescapeFrom .plain ('\\' :: 'x' :: digits 16 2 value ++ rest) =
        (escapedBytes value true).bind fun bytes =>
          (unescapeFrom .plain rest).map (bytes ++ ·) :=
    fun fits => unescapeFrom_hex (fun _ => rfl) fits rest
  have short : ∀ {value : Nat}, value < 16 ^ 4 →
      unescapeFrom .plain ('\\' :: 'u' :: digits 16 4 value ++ rest) =
        (escapedBytes value false).bind fun bytes =>
          (unescapeFrom .plain rest).map (bytes ++ ·) :=
    fun fits => unescapeFrom_hex (fun _ => rfl) fits rest
  have long : ∀ {value : Nat}, value < 16 ^ 8 →
      unescapeFrom .plain ('\\' :: 'U' :: digits 16 8 value ++ rest) =
        (escapedBytes value false).bind fun bytes =>
          (unescapeFrom .plain rest).map (bytes ++ ·) :=
    fun fits => unescapeFrom_hex (fun _ => rfl) fits rest
  rw [escapeChar]
  by_cases ascii : m.ord < 1 <<< 7
  · obtain ⟨scalar, bytes⟩ := escapedBytes_ascii noNul ascii
    rw [if_pos ascii, byte (by omega), bytes, if_pos scalar]
    rfl
  · rw [if_neg ascii]
    have codePoint := escapedBytes_codePoint noNul
    by_cases narrow : m.ord < 1 <<< 15
    · rw [if_pos narrow, short (by omega), codePoint]
      split <;> rfl
    · rw [if_neg narrow, long (ord_lt m), codePoint]
      split <;> rfl

/-! ## Fields -/

/-- Undoing the escapes gives the bytes of the text if all of it could be decoded. -/
theorem cunescape_escapeValue {text : PyString} (noNul : ∀ m ∈ text, m.ord ≠ 0) :
    cunescape (escapeValue text) =
      if text.all PyChar.isScalar then some (fsencode text) else none := by
  rw [cunescape]
  induction text with
  | nil => rfl
  | cons m rest ih =>
      have later := ih fun other inside => noNul other (List.mem_cons_of_mem m inside)
      have escaped : unescapeFrom .plain (escapeChar m ++ escapeValue rest) =
          if (m :: rest).all PyChar.isScalar then some (fsencode (m :: rest)) else none := by
        rw [unescapeFrom_escapeChar (noNul m List.mem_cons_self), later, List.all_cons,
          fsencode_cons]
        cases m.isScalar <;> cases rest.all PyChar.isScalar <;> rfl
      cases m with
      | surrogate byte => exact escaped
      | scalar c =>
          by_cases plain : isPlain c = true
          · have field : escapeValue (.scalar c :: rest) = c :: escapeValue rest := by
              simp [escapeValue, plain]
            have noEscape : c ≠ '\\' := by
              rintro rfl
              cases plain
            rw [field, unescapeFrom, if_neg noEscape, later, List.all_cons, fsencode_cons]
            cases rest.all PyChar.isScalar <;> rfl
          · have field : escapeValue (.scalar c :: rest) =
                escapeChar (.scalar c) ++ escapeValue rest := by
              simp [escapeValue, plain]
            rw [field, escaped]

theorem isPlain_digit {d : Nat} (small : d < 16) : isPlain (digit d) = true := by
  have all : ∀ d < 16, isPlain (digit d) = true := by decide
  exact all d small

theorem isPlain_of_mem_digits {base width value : Nat} (positive : 0 < base) (small : base ≤ 16)
    {c : Char} (member : c ∈ digits base width value) : isPlain c = true := by
  induction width generalizing value with
  | zero => cases member
  | succ width ih =>
      rcases List.mem_append.mp member with first | last
      · exact ih first
      · rw [List.mem_singleton.mp last]
        exact isPlain_digit (Nat.lt_of_lt_of_le (Nat.mod_lt value positive) small)

theorem of_mem_escapeChar {m : PyChar} {c : Char} (member : c ∈ escapeChar m) :
    isPlain c = true ∨ c = '\\' := by
  have split : ∀ {marker : Char} {width value : Nat}, isPlain marker = true →
      c ∈ '\\' :: marker :: digits 16 width value → isPlain c = true ∨ c = '\\' := by
    intro marker width value plain inside
    rcases List.mem_cons.mp inside with backslash | inside
    · exact Or.inr backslash
    · rcases List.mem_cons.mp inside with rfl | inside
      · exact Or.inl plain
      · exact Or.inl (isPlain_of_mem_digits (by decide) (by decide) inside)
  rw [escapeChar] at member
  split at member
  · exact split rfl member
  · split at member
    · exact split rfl member
    · exact split rfl member

/-- An escaped field is made of plain characters and backslashes. -/
theorem of_mem_escapeValue {text : PyString} {c : Char} (member : c ∈ escapeValue text) :
    isPlain c = true ∨ c = '\\' := by
  obtain ⟨m, _, inside⟩ := List.mem_flatMap.mp member
  cases m with
  | surrogate byte => exact of_mem_escapeChar inside
  | scalar d =>
      by_cases plain : isPlain d = true
      · simp only [plain, ↓reduceIte, List.mem_singleton] at inside
        exact Or.inl (inside ▸ plain)
      · simp only [plain, ↓reduceIte, Bool.false_eq_true] at inside
        exact of_mem_escapeChar inside

theorem parseMode_digits (width value : Nat) :
    parseMode (digits 8 width value) = some (value % 8 ^ width) := by
  rw [parseMode]
  induction width generalizing value with
  | zero => simp [digits, Nat.mod_one]
  | succ width ih =>
      have last := digitValue_octal (Nat.mod_lt value (show 0 < 8 by decide))
      rw [digits, List.foldl_append, ih]
      simp only [List.foldl_cons, List.foldl_nil, last, bind, Option.bind, pure]
      rw [Nat.pow_succ, Nat.mul_comm (8 ^ width) 8, Nat.mod_mul]
      congr 1
      omega

/-! ## Lines -/

/-- The bytes of a path of the sysroot. -/
def pathBytes (p : Path FileName) : Bytes :=
  slash :: List.intercalate [slash] (p.reverse.map FileName.bytes)

/-- Every byte of the path could be decoded. -/
def Decodable (p : Path FileName) : Prop :=
  ∀ n ∈ p, (fsdecode n.bytes).all PyChar.isScalar = true

instance (p : Path FileName) : Decidable (Decodable p) :=
  inferInstanceAs (Decidable (∀ n ∈ p, (fsdecode n.bytes).all PyChar.isScalar = true))

theorem fsencode_append (first second : PyString) :
    fsencode (first ++ second) = fsencode first ++ fsencode second :=
  List.flatMap_append

theorem fsencode_intercalate (names : List FileName) :
    fsencode (List.intercalate [.scalar '/'] (names.map fun n => fsdecode n.bytes)) =
      List.intercalate [slash] (names.map FileName.bytes) := by
  induction names with
  | nil => rfl
  | cons n names ih =>
      cases names with
      | nil => simp [fsencode_fsdecode]
      | cons next names =>
          simp only [List.map_cons, List.intercalate_cons_cons] at ih ⊢
          rw [fsencode_append, fsencode_append, ih, fsencode_fsdecode]
          rfl

theorem fsencode_tmpfilesPath (p : Path FileName) : fsencode (tmpfilesPath p) = pathBytes p := by
  rw [tmpfilesPath, fsencode_cons, fsencode_intercalate]
  rfl

/-- No name has a null character. -/
theorem ord_ne_zero (p : Path FileName) : ∀ m ∈ tmpfilesPath p, m.ord ≠ 0 := by
  intro m member zero
  rcases List.mem_cons.mp member with rfl | inside
  · cases zero
  · rcases Words.of_mem_intercalate inside with rfl | ⟨text, listed, here⟩
    · cases zero
    · obtain ⟨n, _, rfl⟩ := List.mem_map.mp listed
      have byte : (0 : UInt8) ∈ m.encode := by
        cases m with
        | scalar c =>
            rw [PyChar.encode, Words.utf8_of_ascii (by rw [show c.toNat = 0 from zero]; decide),
              show c.toNat = 0 from zero]
            exact List.mem_singleton_self _
        | surrogate byte =>
            rw [PyChar.ord] at zero
            omega
      have inName : (0 : UInt8) ∈ fsencode (fsdecode n.bytes) :=
        List.mem_flatMap.mpr ⟨m, here, byte⟩
      rw [fsencode_fsdecode] at inName
      exact n.noNul inName

theorem decodable_iff (p : Path FileName) :
    (tmpfilesPath p).all PyChar.isScalar = true ↔ Decodable p := by
  constructor
  · intro all n member
    refine List.all_eq_true.mpr fun m inside => List.all_eq_true.mp all m ?_
    exact List.mem_cons_of_mem _ (Words.mem_intercalate
      (List.mem_map.mpr ⟨n, List.mem_reverse.mpr member, rfl⟩) inside)
  · intro decodable
    refine List.all_eq_true.mpr fun m member => ?_
    rcases List.mem_cons.mp member with rfl | inside
    · rfl
    · rcases Words.of_mem_intercalate inside with rfl | ⟨text, listed, here⟩
      · rfl
      · obtain ⟨n, named, rfl⟩ := List.mem_map.mp listed
        exact List.all_eq_true.mp (decodable n (List.mem_reverse.mp named)) m here

/-- The line of a path is read back unless a byte of the path could not be decoded. -/
theorem readLine_zLine (p : Path FileName) {mode : Nat} (bits : mode < 0o10000) :
    readLine (zLine p mode) = if Decodable p then some (pathBytes p, mode) else none := by
  have whole : zLine p mode =
      List.intercalate [' '] [['z'], escapeValue (tmpfilesPath p), digits 8 4 mode] := by
    simp [zLine, List.intercalate_cons_cons]
  have noSpace : ∀ field ∈ [['z'], escapeValue (tmpfilesPath p), digits 8 4 mode],
      ' ' ∉ field := by
    intro field member space
    simp only [List.mem_cons, List.not_mem_nil, or_false] at member
    rcases member with rfl | rfl | rfl
    · cases List.mem_singleton.mp space
    · rcases of_mem_escapeValue space with plain | backslash
      · cases plain
      · cases backslash
    · cases isPlain_of_mem_digits (by decide) (by decide) space
  rw [readLine, whole, List.splitOn_intercalate ' ' noSpace (List.cons_ne_nil _ _)]
  simp only [cunescape_escapeValue (ord_ne_zero p), parseMode_digits, fsencode_tmpfilesPath,
    decodable_iff, Nat.mod_eq_of_lt (show mode < 8 ^ 4 from bits)]
  split <;> rfl

end GnomeBuildMeta.Perms
