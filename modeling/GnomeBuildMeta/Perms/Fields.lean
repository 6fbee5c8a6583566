import GnomeBuildMeta.Control.Except
import GnomeBuildMeta.Perms.RoundTrip
import Mathlib.Data.List.TakeWhile

/-!
# The fields of the lines

Besides the modes the script saves extended attributes, on `k` and `t` lines.
An escaped text is one field wherever it stands, and no two texts have the same
field, but a surrogate is not read back as the byte that it stands for.
-/

namespace GnomeBuildMeta.Perms

open GnomeBuildMeta.Control
open GnomeBuildMeta.Posix

/-! ## The attributes -/

/-- An extended attribute; for the capabilities the value is what `getcap` prints. -/
inductive Attribute where
  | capability (value : List Char)
  | other (name : PyString) (value : Bytes)

/-- `bytes.decode("ascii")` -/
def decodeAscii (bytes : Bytes) : Option (List Char) :=
  if bytes.all (· < 128) then some (bytes.map fun byte => Char.ofNat byte.toNat) else none

def zLineOf (path : PyString) (mode : Nat) : List Char :=
  'z' :: ' ' :: escapeValue path ++ ' ' :: digits 8 4 mode

def kLine (path : PyString) (value : List Char) : List Char :=
  'k' :: ' ' :: escapeValue path ++ " - - - - ".toList ++ value

def tLine (path xattr : PyString) (value : List Char) : List Char :=
  't' :: ' ' :: escapeValue path ++ " - - - - ".toList ++ escapeValue xattr ++ '=' :: value

/-- The line for one attribute; a value that is not ASCII stops the script. -/
def attributeLine (path : PyString) : Attribute → Option (List Char)
  | .capability value => some (kLine path value)
  | .other name value => (decodeAscii value).map (tLine path name)

/-- All the lines for one path, if these are the attributes of the file. -/
def configs (fs : FileSystem FileName) (attributes : List Attribute) (p : Path FileName) :
    Option (List (List Char)) :=
  match fs.get p with
  | some (.file _ _) | some (.dir _) =>
      (attributes.mapM (attributeLine (tmpfilesPath p))).map fun lines => retrieveOne fs p ++ lines
  | _ => some []

theorem zLine_eq (p : Path FileName) (mode : Nat) : zLine p mode = zLineOf (tmpfilesPath p) mode := rfl

/-! ## Splitting a line -/

/-- What separates the fields for `systemd-tmpfiles`. -/
def isBlank (c : Char) : Bool := c = ' ' || c = '\t' || c = '\n' || c = '\r'

/-- The first fields of a line, and the argument behind them. -/
def splitFields : Nat → List Char → List (List Char) × List Char
  | 0, line => ([], line.dropWhile isBlank)
  | count + 1, line =>
      let line := line.dropWhile isBlank
      if line = [] then ([], [])
      else
        let later := splitFields count (line.dropWhile fun c => !isBlank c)
        (line.takeWhile (fun c => !isBlank c) :: later.1, later.2)

def NoBlank (field : List Char) : Prop := ∀ c ∈ field, isBlank c = false

theorem splitFields_blank (count : Nat) (line : List Char) :
    splitFields count (' ' :: line) = splitFields count line := by
  have skipped : (' ' :: line).dropWhile isBlank = line.dropWhile isBlank := rfl
  cases count with
  | zero => rw [splitFields, splitFields, skipped]
  | succ count =>
      rw [splitFields, splitFields]
      simp only [skipped]

/-- A field without blanks is split off as it is. -/
theorem splitFields_field {field : List Char} (proper : field ≠ []) (noBlank : NoBlank field)
    (count : Nat) (line : List Char) : splitFields (count + 1) (field ++ ' ' :: line) =
      (field :: (splitFields count line).1, (splitFields count line).2) := by
  obtain ⟨c, field, rfl⟩ := List.exists_cons_of_ne_nil proper
  have start : (c :: field ++ ' ' :: line).dropWhile isBlank = c :: field ++ ' ' :: line := by
    rw [List.cons_append, List.dropWhile_cons, noBlank c List.mem_cons_self]
    rfl
  have inside : ∀ x ∈ c :: field, (!isBlank x) = true := fun x member => by rw [noBlank x member]; rfl
  have first : (c :: field ++ ' ' :: line).takeWhile (fun c => !isBlank c) = c :: field := by
    rw [List.takeWhile_append_of_pos inside, List.takeWhile_cons_of_neg (by decide), List.append_nil]
  have behind : (c :: field ++ ' ' :: line).dropWhile (fun c => !isBlank c) = ' ' :: line := by
    rw [List.dropWhile_append_of_pos inside, List.dropWhile_cons_of_neg (by decide)]
  rw [splitFields]
  simp only [start, first, behind, splitFields_blank]
  exact if_neg (List.cons_ne_nil _ _)

/-- The field at the end of a line. -/
theorem splitFields_last {field : List Char} (proper : field ≠ []) (noBlank : NoBlank field)
    (count : Nat) : splitFields (count + 1) field = ([field], []) := by
  obtain ⟨c, field, rfl⟩ := List.exists_cons_of_ne_nil proper
  have start : (c :: field).dropWhile isBlank = c :: field := by
    rw [List.dropWhile_cons, noBlank c List.mem_cons_self]
    rfl
  have inside : ∀ x ∈ c :: field, (!isBlank x) = true := fun x member => by rw [noBlank x member]; rfl
  have first : (c :: field).takeWhile (fun c => !isBlank c) = c :: field :=
    List.takeWhile_eq_self_iff.mpr inside
  have behind : (c :: field).dropWhile (fun c => !isBlank c) = [] := List.dropWhile_eq_nil_iff.mpr inside
  have nothing : splitFields count [] = ([], []) := by cases count <;> rfl
  rw [splitFields]
  simp only [start, first, behind, nothing]
  exact if_neg (List.cons_ne_nil _ _)

theorem noBlank_of_plain {c : Char} (plain : isPlain c = true ∨ c = '\\') : isBlank c = false := by
  rcases plain with plain | rfl
  · rw [Bool.eq_false_iff]
    intro blank
    simp only [isBlank, Bool.or_eq_true, decide_eq_true_eq, or_assoc] at blank
    rcases blank with rfl | rfl | rfl | rfl <;> cases plain
  · rfl

theorem escapeValue_noBlank (text : PyString) : NoBlank (escapeValue text) :=
  fun _ member => noBlank_of_plain (of_mem_escapeValue member)

theorem digits_noBlank (mode : Nat) : NoBlank (digits 8 4 mode) := fun _ member =>
  noBlank_of_plain (Or.inl (isPlain_of_mem_digits (by decide) (by decide) member))

/-! ## No two texts have the same field -/

theorem length_digits (base width value : Nat) : (digits base width value).length = width := by
  induction width generalizing value with
  | zero => rfl
  | succ width ih => rw [digits, List.length_append, ih, List.length_singleton]

theorem digit_injective {d e : Nat} (dSmall : d < 16) (eSmall : e < 16) (same : digit d = digit e) :
    d = e := by
  have values := congrArg (digitValue 16) same
  rw [digitValue_digit dSmall, digitValue_digit eSmall] at values
  exact Option.some.inj values

theorem digits_injective {width value other : Nat} (fits : value < 16 ^ width)
    (fits' : other < 16 ^ width) (same : digits 16 width value = digits 16 width other) :
    value = other := by
  induction width generalizing value other with
  | zero => omega
  | succ width ih =>
      obtain ⟨front, last⟩ := List.append_inj' same rfl
      have lastSame := digit_injective (Nat.mod_lt _ (by decide)) (Nat.mod_lt _ (by decide))
        (List.singleton_inj.mp last)
      have frontSame := ih (by omega) (by omega) front
      omega

theorem ord_injective {m n : PyChar} (same : m.ord = n.ord) : m = n := by
  have noScalar : ∀ (c : Char) (byte : UInt8), (PyChar.scalar c).ord ≠ (PyChar.surrogate byte).ord := by
    intro c byte same
    have valid : c.toNat.isValidChar := c.valid
    rw [PyChar.ord, PyChar.ord] at same
    have small := byte.toNat_lt
    rcases valid with low | ⟨high, _⟩ <;> omega
  cases m with
  | scalar c =>
      cases n with
      | scalar d => exact congrArg _ (Char.toNat_inj.mp same)
      | surrogate byte => exact absurd same (noScalar c byte)
  | surrogate byte =>
      cases n with
      | scalar d => exact absurd same.symm (noScalar d byte)
      | surrogate other =>
          rw [PyChar.ord, PyChar.ord] at same
          exact congrArg _ (UInt8.toNat_inj.mp (by omega))

/-- The marker and the digits of an escape. -/
def escapeBody (m : PyChar) : Char × Nat :=
  if m.ord < 1 <<< 7 then ('x', 2) else if m.ord < 1 <<< 15 then ('u', 4) else ('U', 8)

theorem escapeChar_eq (m : PyChar) :
    escapeChar m = '\\' :: (escapeBody m).1 :: digits 16 (escapeBody m).2 m.ord := by
  rw [escapeChar, escapeBody]
  split
  · rfl
  · split <;> rfl

theorem ord_fits (m : PyChar) : m.ord < 16 ^ (escapeBody m).2 := by
  rw [escapeBody]
  split
  · simp only
    omega
  · split
    · simp only
      omega
    · exact ord_lt m

theorem width_of_marker {m n : PyChar} (same : (escapeBody m).1 = (escapeBody n).1) :
    (escapeBody m).2 = (escapeBody n).2 := by
  have marked : ∀ m : PyChar, escapeBody m = ('x', 2) ∨ escapeBody m = ('u', 4) ∨
      escapeBody m = ('U', 8) := by
    intro m
    rw [escapeBody]
    split
    · exact Or.inl rfl
    · split
      · exact Or.inr (Or.inl rfl)
      · exact Or.inr (Or.inr rfl)
  rcases marked m with first | first | first <;> rcases marked n with second | second | second <;>
    rw [first, second] at same ⊢ <;> cases same

/-- An escape says where it ends, also when a digit follows. -/
theorem escapeChar_append {m n : PyChar} {rest rest' : List Char}
    (same : escapeChar m ++ rest = escapeChar n ++ rest') : m = n ∧ rest = rest' := by
  rw [escapeChar_eq, escapeChar_eq] at same
  obtain ⟨marker, body⟩ := List.cons.inj (List.cons.inj same).2
  have width := width_of_marker marker
  have lengths : (digits 16 (escapeBody m).2 m.ord).length = (digits 16 (escapeBody n).2 n.ord).length := by
    rw [length_digits, length_digits, width]
  obtain ⟨number, behind⟩ := List.append_inj body lengths
  rw [width] at number
  exact ⟨ord_injective (digits_injective (width ▸ ord_fits m) (ord_fits n) number), behind⟩

/-- The field of one character, and that it is one or the other kind. -/
theorem escapeValue_cons (m : PyChar) (text : PyString) :
    (∃ c, m = .scalar c ∧ c ≠ '\\' ∧ escapeValue (m :: text) = c :: escapeValue text) ∨
      ((∀ c, m = .scalar c → isPlain c = false) ∧
        escapeValue (m :: text) = escapeChar m ++ escapeValue text) := by
  cases m with
  | surrogate byte =>
      refine Or.inr ⟨fun c impossible => ?_, rfl⟩
      cases impossible
  | scalar c =>
      by_cases plain : isPlain c = true
      · refine Or.inl ⟨c, rfl, ?_, by simp [escapeValue, plain]⟩
        rintro rfl
        cases plain
      · refine Or.inr ⟨?_, by simp [escapeValue, plain]⟩
        rintro _ ⟨⟩
        exact Bool.not_eq_true _ ▸ plain

theorem escapeChar_head (m : PyChar) (rest : List Char) : ∃ tail, escapeChar m ++ rest = '\\' :: tail := by
  rw [escapeChar_eq]
  exact ⟨_, rfl⟩

theorem escapeValue_eq_nil_iff {text : PyString} : escapeValue text = [] ↔ text = [] := by
  cases text with
  | nil => exact iff_of_true rfl rfl
  | cons m text =>
      refine iff_of_false (fun nothing => ?_) (List.cons_ne_nil _ _)
      rcases escapeValue_cons m text with ⟨c, _, _, field⟩ | ⟨_, field⟩
      · rw [field] at nothing
        cases nothing
      · obtain ⟨tail, head⟩ := escapeChar_head m (escapeValue text)
        rw [field, head] at nothing
        cases nothing

/-- By induction on both texts: the field says which character comes next. -/
theorem escapeValue_injective {text other : PyString} (same : escapeValue text = escapeValue other) :
    text = other := by
  induction text generalizing other with
  | nil => exact (escapeValue_eq_nil_iff.mp same.symm).symm
  | cons m text ih =>
      cases other with
      | nil => exact escapeValue_eq_nil_iff.mp same
      | cons n other =>
          rcases escapeValue_cons m text with ⟨c, rfl, notEscape, field⟩ | ⟨_, field⟩ <;>
            rcases escapeValue_cons n other with ⟨d, rfl, notEscape', field'⟩ | ⟨_, field'⟩ <;>
            rw [field, field'] at same
          · obtain ⟨rfl, later⟩ := List.cons.inj same
            rw [ih later]
          · obtain ⟨tail, head⟩ := escapeChar_head n (escapeValue other)
            rw [head] at same
            exact absurd (List.cons.inj same).1 notEscape
          · obtain ⟨tail, head⟩ := escapeChar_head m (escapeValue text)
            rw [head] at same
            exact absurd (List.cons.inj same).1.symm notEscape'
          · obtain ⟨rfl, later⟩ := escapeChar_append same
            rw [ih later]

/-! ## What a field is good for -/

/-- The text is one field of every line that it stands in. -/
structure OneField (text : PyString) : Prop where
  zLine : ∀ mode, splitFields 6 (zLineOf text mode) =
    ([['z'], escapeValue text, digits 8 4 mode], [])
  kLine : ∀ value, splitFields 6 (kLine text value) =
    ([['k'], escapeValue text, ['-'], ['-'], ['-'], ['-']], value.dropWhile isBlank)
  tLine : ∀ xattr value, xattr ≠ [] → splitFields 6 (tLine text xattr value) =
    ([['t'], escapeValue text, ['-'], ['-'], ['-'], ['-']], escapeValue xattr ++ '=' :: value)

theorem oneField {text : PyString} (proper : text ≠ []) : OneField text := by
  have field : escapeValue text ≠ [] := mt escapeValue_eq_nil_iff.mp proper
  have dash : NoBlank ['-'] := List.forall_mem_singleton.mpr rfl
  have dashes : ∀ behind, splitFields 4 ("- - - - ".toList ++ behind) =
      ([['-'], ['-'], ['-'], ['-']], behind.dropWhile isBlank) := by
    intro behind
    have cut : ∀ count line, splitFields (count + 1) ('-' :: ' ' :: line) =
        (['-'] :: (splitFields count line).1, (splitFields count line).2) :=
      splitFields_field (List.cons_ne_nil _ _) dash
    change splitFields 4 ('-' :: ' ' :: '-' :: ' ' :: '-' :: ' ' :: '-' :: ' ' :: behind) = _
    rw [cut, cut, cut, cut]
    rfl
  have start : ∀ action : Char, isBlank action = false → ∀ behind,
      splitFields 6 (action :: ' ' :: (escapeValue text ++ ' ' :: behind)) =
        ([action] :: escapeValue text :: (splitFields 4 behind).1, (splitFields 4 behind).2) := by
    intro action notBlank behind
    have noBlank : NoBlank [action] := fun c member => List.mem_singleton.mp member ▸ notBlank
    have cut := splitFields_field (List.cons_ne_nil action []) noBlank 5
      (escapeValue text ++ ' ' :: behind)
    rw [splitFields_field field (escapeValue_noBlank text)] at cut
    exact cut
  constructor
  · intro mode
    have number : digits 8 4 mode ≠ [] := by
      intro nothing
      have length := length_digits 8 4 mode
      rw [nothing] at length
      cases length
    have cut := start 'z' rfl (digits 8 4 mode)
    rw [splitFields_last number (digits_noBlank mode)] at cut
    exact cut
  · intro value
    have cut := start 'k' rfl ("- - - - ".toList ++ value)
    rw [dashes] at cut
    rw [Perms.kLine]
    simpa using cut
  · intro xattr value named
    have cut := start 't' rfl ("- - - - ".toList ++ (escapeValue xattr ++ '=' :: value))
    have argument : (escapeValue xattr ++ '=' :: value).dropWhile isBlank =
        escapeValue xattr ++ '=' :: value := by
      obtain ⟨c, rest, first⟩ := List.exists_cons_of_ne_nil (mt escapeValue_eq_nil_iff.mp named)
      have notBlank : isBlank c = false :=
        escapeValue_noBlank xattr c (first ▸ List.mem_cons_self)
      rw [first, List.cons_append, List.dropWhile_cons, notBlank]
      rfl
    rw [dashes, argument] at cut
    rw [Perms.tLine]
    simpa using cut

/-- The line of a mode, by its fields. -/
theorem splitFields_zLine (p : Path FileName) (mode : Nat) : splitFields 6 (zLine p mode) =
    ([['z'], escapeValue (tmpfilesPath p), digits 8 4 mode], []) := by
  rw [zLine_eq]
  exact (oneField (List.cons_ne_nil _ _)).zLine mode

/-- What is written for an attribute names the path in its second field. -/
theorem splitFields_attributeLine {path : PyString} (proper : path ≠ []) {saved : Attribute}
    (named : ∀ name value, saved = .other name value → name ≠ []) {line : List Char}
    (written : attributeLine path saved = some line) :
    ∃ action, (splitFields 6 line).1 = [[action], escapeValue path, ['-'], ['-'], ['-'], ['-']] := by
  cases saved with
  | capability value =>
      cases written
      exact ⟨'k', by rw [(oneField proper).kLine]⟩
  | other name value =>
      obtain ⟨text, _, rfl⟩ := Option.map_eq_some_iff.mp written
      exact ⟨'t', by rw [(oneField proper).tLine name text (named name value rfl)]⟩

section Lines

variable {fs : FileSystem FileName} {p q : Path FileName} {attributes others : List Attribute}
  {lines lines' : List (List Char)} {line : List Char}

theorem mem_retrieveOne (listed : line ∈ retrieveOne fs p) : ∃ mode, line = zLine p mode := by
  rw [retrieveOne] at listed
  split at listed
  · dsimp only at listed
    split at listed
    · exact ⟨_, List.mem_singleton.mp listed⟩
    · cases listed
  · dsimp only at listed
    split at listed
    · exact ⟨_, List.mem_singleton.mp listed⟩
    · cases listed
  · cases listed

/-- Every line for a path has the path as its second field. -/
theorem second_field (named : ∀ name value, .other name value ∈ attributes → name ≠ [])
    (written : configs fs attributes p = some lines) (listed : line ∈ lines) :
    (splitFields 6 line).1[1]? = some (escapeValue (tmpfilesPath p)) := by
  have ofFile : (attributes.mapM (attributeLine (tmpfilesPath p))).map (fun lines => retrieveOne fs p ++ lines) =
      some lines → (splitFields 6 line).1[1]? = some (escapeValue (tmpfilesPath p)) := by
    intro written
    obtain ⟨later, all, rfl⟩ := Option.map_eq_some_iff.mp written
    rcases List.mem_append.mp listed with ofMode | ofAttribute
    · obtain ⟨mode, rfl⟩ := mem_retrieveOne ofMode
      rw [splitFields_zLine]
      rfl
    · obtain ⟨saved, inside, here⟩ := exists_of_mapM all line ofAttribute
      obtain ⟨action, fields⟩ := splitFields_attributeLine (List.cons_ne_nil _ _)
        (fun name value same => named name value (same ▸ inside)) here
      rw [fields]
      rfl
  rw [configs] at written
  split at written
  · exact ofFile written
  · exact ofFile written
  · cases written
    cases listed

/-- Two paths that have a line in common are written alike. -/
theorem path_of_line (named : ∀ name value, .other name value ∈ attributes ++ others → name ≠ [])
    (written : configs fs attributes p = some lines) (written' : configs fs others q = some lines')
    (here : line ∈ lines) (there : line ∈ lines') : tmpfilesPath p = tmpfilesPath q := by
  have first := second_field (fun name value inside => named name value (List.mem_append_left _ inside)) written here
  have second := second_field (fun name value inside => named name value (List.mem_append_right _ inside)) written' there
  rw [first] at second
  exact escapeValue_injective (Option.some.inj second)

end Lines

/-- What the escaping is for. -/
structure Faithful (text : PyString) : Prop where
  alphabet : ∀ c ∈ escapeValue text, isPlain c = true ∨ c = '\\'
  oneField : text ≠ [] → OneField text
  decodes : cunescape (escapeValue text) = some (fsencode text)
  distinct : ∀ other, escapeValue other = escapeValue text → other = text

/-- Only a surrogate is not read back. -/
theorem faithful_iff {text : PyString} (noNul : ∀ m ∈ text, m.ord ≠ 0) :
    Faithful text ↔ ∀ m ∈ text, m.isScalar = true := by
  have read := cunescape_escapeValue noNul
  rw [← List.all_eq_true]
  constructor
  · intro faithful
    by_contra surrogate
    rw [if_neg surrogate, faithful.decodes] at read
    cases read
  · intro scalars
    rw [if_pos scalars] at read
    exact ⟨fun c member => of_mem_escapeValue member, oneField, read,
      fun other same => escapeValue_injective same⟩

/-- A name in two alphabets, with a digit behind an escape. -/
theorem accented_faithful : Faithful [.scalar '/', .scalar 'é', .scalar '1', .scalar '𝄞'] :=
  (faithful_iff (by decide)).mpr (by decide)

/-- A byte that is no UTF-8 is written as a code point that is none. -/
theorem undecodable_not_faithful : fsencode (fsdecode [0x2f, 0x80]) = [0x2f, 0x80] ∧
    cunescape (escapeValue (fsdecode [0x2f, 0x80])) = none ∧ ¬ Faithful (fsdecode [0x2f, 0x80]) := by
  have refused : cunescape (escapeValue (fsdecode [0x2f, 0x80])) = none := by decide
  refine ⟨fsencode_fsdecode _, refused, fun faithful => ?_⟩
  have decodes := faithful.decodes
  rw [refused] at decodes
  cases decodes

end GnomeBuildMeta.Perms
