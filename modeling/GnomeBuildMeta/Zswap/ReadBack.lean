import GnomeBuildMeta.Control.Except
import GnomeBuildMeta.Words.Utf8
import GnomeBuildMeta.Zswap.SetupUnit

/-!
# The units are read back

The generator writes the path as it is.  A path that is one plain word comes
back, with its name and size; whitespace, a leading hyphen and a negative size
do not.
-/

namespace GnomeBuildMeta.Zswap

open Words

/-! ## The instance -/

theorem hexValue_digitChar {value : Nat} (small : value < 16) :
    unescapeBytes.hexValue (Nat.digitChar value) = some value := by
  have all : ∀ value < 16, unescapeBytes.hexValue (Nat.digitChar value) = some value := by decide
  exact all value small

theorem unescapeBytes_hexByte (byte : UInt8) (rest : Text) :
    unescapeBytes ('\\' :: 'x' :: hexByte byte ++ rest) =
      (unescapeBytes rest).map (byte :: ·) := by
  have high : byte.toNat / 16 < 16 := Nat.div_lt_of_lt_mul byte.toNat_lt
  have low : byte.toNat % 16 < 16 := Nat.mod_lt _ (by decide)
  rw [hexByte, List.cons_append, List.cons_append, List.cons_append, List.cons_append,
    List.nil_append, unescapeBytes, hexValue_digitChar high, hexValue_digitChar low]
  cases unescapeBytes rest with
  | none => rfl
  | some bytes =>
      have whole : UInt8.ofNat (16 * (byte.toNat / 16) + byte.toNat % 16) = byte := by
        rw [Nat.div_add_mod, UInt8.ofNat_toNat]
      exact congrArg (fun first => some (first :: bytes)) whole

theorem unescapeBytes_hexBytes (bytes : List UInt8) (rest : Text) :
    unescapeBytes ((bytes.flatMap fun byte => '\\' :: 'x' :: hexByte byte) ++ rest) =
      (unescapeBytes rest).map (bytes ++ ·) := by
  induction bytes with
  | nil => simp
  | cons byte bytes ih =>
      rw [List.flatMap_cons, List.append_assoc, unescapeBytes_hexByte, ih, Option.map_map]
      rfl

theorem unescapeBytes_escapedChar (c : Char) (rest : Text) :
    unescapeBytes (escapedChar c ++ rest) =
      (unescapeBytes rest).map (String.utf8EncodeChar c ++ ·) := by
  rw [escapedChar]
  split
  case isTrue plain =>
    have notBackslash : c ≠ '\\' := by
      rintro rfl
      exact absurd plain (by decide)
    have notDash : c ≠ '-' := by
      rintro rfl
      exact absurd plain (by decide)
    rw [List.singleton_append, unescapeBytes]
    · cases unescapeBytes rest <;> rfl
    · rintro _ _ _ same
      exact absurd same notBackslash
    · exact notBackslash
    · exact notDash
  case isFalse => exact unescapeBytes_hexBytes _ rest

theorem unescapeBytes_escaped (name : Text) :
    unescapeBytes (escaped name) = some (name.flatMap String.utf8EncodeChar) := by
  rw [escaped]
  induction name with
  | nil => rfl
  | cons c name ih =>
      rw [List.flatMap_cons, unescapeBytes_escapedChar, ih]
      rfl

/-- The instance is the name of the table. -/
theorem unescaped_escaped (name : Text) : unescaped (escaped name) = some name := by
  rw [unescaped, unescapeBytes_escaped]
  exact Option.map_eq_bind.symm.trans (Words.decodeUtf8_utf8 name)

/-! ## The size -/

theorem sizeText_of_nonneg {size : Int64} (nonneg : 0 ≤ size.toInt) :
    toString size.toInt = Nat.repr size.toInt.toNat := by
  obtain ⟨n, same⟩ := Int.eq_ofNat_of_zero_le nonneg
  rw [same]
  rfl

theorem sizeText_of_neg {size : Int64} (negative : size.toInt < 0) :
    Hyphened (toString size.toInt).toList := by
  obtain ⟨n, same⟩ := Int.eq_negSucc_of_lt_zero negative
  have text : (toString (Int.negSucc n)).toList = '-' :: (Nat.repr (n + 1)).toList :=
    String.toList_append
  obtain ⟨c, rest, digits⟩ : ∃ c rest, (Nat.repr (n + 1)).toList = c :: rest :=
    List.exists_cons_of_ne_nil (by rw [Nat.toList_repr]; exact Nat.toDigits_ne_nil)
  exact ⟨c, rest, by rw [same, text, digits]⟩

theorem mem_sizeText {size : Int64} {c : Char} (member : c ∈ (toString size.toInt).toList) :
    c.isDigit = true ∨ c = '-' := by
  have digit : ∀ {n : Nat}, c ∈ (Nat.repr n).toList → c.isDigit = true := by
    intro n inside
    rw [Nat.toList_repr] at inside
    exact Nat.isDigit_of_mem_toDigits (by decide) (by decide) inside
  rcases lt_or_ge size.toInt 0 with negative | nonneg
  · obtain ⟨n, same⟩ := Int.eq_negSucc_of_lt_zero negative
    rw [same, show (toString (Int.negSucc n)).toList = '-' :: (Nat.repr (n + 1)).toList from
      String.toList_append] at member
    rcases List.mem_cons.mp member with dash | inside
    · exact Or.inr dash
    · exact Or.inl (digit inside)
  · rw [sizeText_of_nonneg nonneg] at member
    exact Or.inl (digit member)

theorem sizeText_ne_nil (size : Int64) : (toString size.toInt).toList ≠ [] := by
  rcases lt_or_ge size.toInt 0 with negative | nonneg
  · obtain ⟨c, rest, same⟩ := sizeText_of_neg negative
    rw [same]
    exact List.cons_ne_nil _ _
  · rw [sizeText_of_nonneg nonneg, Nat.toList_repr]
    exact Nat.toDigits_ne_nil

/-- Nothing in a size is white, special or the end of a command. -/
theorem sizeText_plain {size : Int64} {c : Char} (member : c ∈ (toString size.toInt).toList) :
    isWhite c = false ∧ c ∉ special ∧ c ≠ '$' ∧ c ≠ ';' := by
  rcases mem_sizeText member with digit | rfl
  · have specials : ∀ c ∈ '$' :: ';' :: ' ' :: '\t' :: '\n' :: '\r' :: special, c.isDigit = false :=
      List.forall_iff_forall_mem.mp (by decide)
    have apart : c ∉ '$' :: ';' :: ' ' :: '\t' :: '\n' :: '\r' :: special :=
      fun inside => absurd digit (by rw [specials c inside]; decide)
    simp only [List.mem_cons, not_or] at apart
    obtain ⟨dollar, separator, blank, tab, newline, return', others⟩ := apart
    exact ⟨by simp [isWhite, blank, tab, newline, return'], others, dollar, separator⟩
  · decide

/-! ## The words of the command lines -/

theorem zswapSetup_plain : ∀ c ∈ zswapSetup, isWhite c = false ∧ c ∉ special ∧ c ≠ '$' ∧ c ≠ ';' :=
  List.forall_iff_forall_mem.mp (by decide +kernel)

theorem words_zswapSetup : words isWhite zswapSetup = [zswapSetup] :=
  words_of_no_break (by decide) fun c member => (zswapSetup_plain c member).1

theorem words_start (path : Text) (size : Int64) :
    words isWhite (createValue path size) = zswapSetup :: "create".toList :: (words isWhite path ++
      ["%I".toList, (toString size.toInt).toList]) := by
  have create : " create ".toList = ' ' :: ("create".toList ++ [' ']) := by decide
  have instance' : " %I ".toList = ' ' :: ("%I".toList ++ [' ']) := by decide
  rw [createValue, create, instance']
  simp only [List.append_assoc, List.cons_append, List.nil_append]
  rw [words_append_break rfl, words_append_break rfl, words_append_break rfl,
    words_append_break rfl, words_zswapSetup,
    show words isWhite "create".toList = ["create".toList] by decide,
    show words isWhite "%I".toList = ["%I".toList] by decide,
    words_of_no_break (sizeText_ne_nil size) fun c member => (sizeText_plain member).1]
  rfl

theorem words_stop (path : Text) :
    words isWhite (stopValue path) =
      zswapSetup :: "stop".toList :: (words isWhite path ++ ["%I".toList]) := by
  have stop : " stop ".toList = ' ' :: ("stop".toList ++ [' ']) := by decide
  have instance' : " %I".toList = ' ' :: "%I".toList := by decide
  rw [stopValue, stop, instance']
  simp only [List.append_assoc, List.cons_append, List.nil_append]
  rw [words_append_break rfl, words_append_break rfl, words_append_break rfl, words_zswapSetup,
    show words isWhite "stop".toList = ["stop".toList] by decide,
    show words isWhite "%I".toList = ["%I".toList] by decide]
  rfl

/-! ## The lines -/

theorem trimBack_suffix (pieces : List Text) : trimBack pieces <:+ pieces := by
  induction pieces with
  | nil => exact List.suffix_rfl
  | cons piece pieces ih =>
      rw [trimBack]
      split
      · exact ih.trans (List.suffix_cons _ _)
      · exact List.suffix_rfl

theorem mem_of_mem_parent {path directory : Text} (found : parent path = some directory) {c : Char}
    (member : c ∈ directory) : c ∈ path ∨ c = '/' := by
  rw [parent] at found
  split at found
  case h_1 => cases found
  case h_2 last rest trimmed =>
    cases found
    split at member
    · split at member
      · exact Or.inr (List.mem_singleton.mp member)
      · cases member
    · rcases of_mem_intercalate member with separator | ⟨piece, listed, inside⟩
      · exact Or.inr separator
      · have kept : piece ∈ rest :=
          (trimBack_suffix rest).subset (List.mem_reverse.mp listed)
        have split : piece ∈ (path.splitOn '/').reverse :=
          (trimBack_suffix _).subset (trimmed ▸ List.mem_cons_of_mem _ kept)
        exact Or.inl (mem_of_mem_splitOnP (List.mem_reverse.mp split) inside)

section Sections

variable {name path : Text} {size : Int64}

theorem Simple.not_mem (simple : Simple name path) {c : Char} (isSpecial : c ∈ special) : c ∉ path :=
  fun inside => simple.plain c inside isSpecial

theorem special_of_mem_createValue (simple : Simple name path) {c : Char}
    (member : c ∈ createValue path size) (isSpecial : c ∈ special) : c = '%' := by
  simp only [createValue, List.mem_append] at member
  rcases member with (((inProgram | inCreate) | inPath) | inInstance) | inSize
  · exact absurd isSpecial (zswapSetup_plain c inProgram).2.1
  · have none' : ∀ c ∈ " create ".toList, c ∉ special := List.forall_iff_forall_mem.mp (by decide)
    exact absurd isSpecial (none' c inCreate)
  · exact absurd isSpecial (simple.plain c inPath)
  · have percent : ∀ c ∈ " %I ".toList, c ∈ special → c = '%' :=
      List.forall_iff_forall_mem.mp (by decide)
    exact percent c inInstance isSpecial
  · exact absurd isSpecial (sizeText_plain inSize).2.1

theorem special_of_mem_stopValue (simple : Simple name path) {c : Char}
    (member : c ∈ stopValue path) (isSpecial : c ∈ special) : c = '%' := by
  simp only [stopValue, List.mem_append] at member
  rcases member with ((inProgram | inStop) | inPath) | inInstance
  · exact absurd isSpecial (zswapSetup_plain c inProgram).2.1
  · have none' : ∀ c ∈ " stop ".toList, c ∉ special := List.forall_iff_forall_mem.mp (by decide)
    exact absurd isSpecial (none' c inStop)
  · exact absurd isSpecial (simple.plain c inPath)
  · have percent : ∀ c ∈ " %I".toList, c ∈ special → c = '%' :=
      List.forall_iff_forall_mem.mp (by decide)
    exact percent c inInstance isSpecial

/-- A value in which specifiers are all that is special is a value of one line. -/
theorem oneLine_of_special {value : Text} (percent : ∀ c ∈ value, c ∈ special → c = '%') :
    OneLine value := by
  constructor
  · intro c inside ends
    rw [percent c inside (List.mem_append_right _ ends)] at ends
    exact absurd ends (by decide)
  · intro last
    exact absurd (percent _ (List.mem_of_getLast? last) (by decide)) (by decide)

/-- The settings of the service, by the values that depend on the path. -/
def serviceSections (path : Text) (size : Int64) : List Section :=
  [⟨"Unit".toList,
      [("DefaultDependencies".toList, "no".toList), ("Before".toList, "shutdown.target".toList),
        ("Conflicts".toList, "shutdown.target".toList),
        ("After".toList, "systemd-udev-trigger.service".toList)] ++
      (parent path).toList.map fun directory => ("RequiresMountsFor".toList, directory)⟩,
    ⟨"Service".toList,
      [("Type".toList, "oneshot".toList), ("RemainAfterExit".toList, "yes".toList),
        ("ExecStart".toList, "udevadm settle".toList), ("ExecStart".toList, createValue path size),
        ("ExecStop".toList, stopValue path)]⟩]

theorem lines_serviceUnit (name path : Text) (size : Int64) :
    (serviceUnit name path size).lines = (serviceSections path size).flatMap Section.lines := by
  unfold serviceUnit unitSection serviceSections
  cases parent path <;> rfl

theorem values_start (path : Text) (size : Int64) :
    valuesOf "Service".toList "ExecStart".toList (serviceSections path size) =
      ["udevadm settle".toList, createValue path size] := rfl

theorem values_stop (path : Text) (size : Int64) :
    valuesOf "Service".toList "ExecStop".toList (serviceSections path size) = [stopValue path] := rfl

/-- The settings of the service that do not depend on the path. -/
theorem fixed_settings : ∀ entry ∈ [("DefaultDependencies".toList, "no".toList),
    ("Before".toList, "shutdown.target".toList), ("Conflicts".toList, "shutdown.target".toList),
    ("After".toList, "systemd-udev-trigger.service".toList), ("Type".toList, "oneshot".toList),
    ("RemainAfterExit".toList, "yes".toList), ("ExecStart".toList, "udevadm settle".toList)],
    (entry.1 ≠ [] ∧ Letters entry.1) ∧ OneLine entry.2 := by
  decide

theorem oneLine_of_parent (simple : Simple name path) {directory : Text}
    (found : parent path = some directory) : OneLine directory := by
  refine oneLine_of_special fun c inside isSpecial => ?_
  rcases mem_of_mem_parent found inside with inPath | rfl
  · exact absurd isSpecial (simple.plain c inPath)
  · exact absurd isSpecial (by decide)

theorem serviceSections_proper (simple : Simple name path) :
    ∀ s ∈ serviceSections path size, s.Proper := by
  have mounts : "RequiresMountsFor".toList ≠ [] ∧ Letters "RequiresMountsFor".toList := by decide
  have start : "ExecStart".toList ≠ [] ∧ Letters "ExecStart".toList := by decide
  have stop : "ExecStop".toList ≠ [] ∧ Letters "ExecStop".toList := by decide
  have unit : ∀ entry ∈ (serviceSections path size).flatMap Section.settings,
      (entry.1 ≠ [] ∧ Letters entry.1) ∧ OneLine entry.2 := by
    intro entry listed
    simp only [serviceSections, List.flatMap_cons, List.flatMap_nil, List.mem_append, List.append_nil,
      List.mem_map] at listed
    rcases listed with (inUnit | ⟨directory, found, rfl⟩) | inService
    · exact fixed_settings entry (List.mem_of_mem_take (i := 4) inUnit)
    · exact ⟨mounts, oneLine_of_parent simple (Option.mem_toList.mp found)⟩
    · simp only [List.mem_cons, List.not_mem_nil, or_false] at inService
      rcases inService with rfl | rfl | rfl | rfl | rfl
      · exact fixed_settings _ (by simp)
      · exact fixed_settings _ (by simp)
      · exact fixed_settings _ (by simp)
      · exact ⟨start, oneLine_of_special fun _ => special_of_mem_createValue simple⟩
      · exact ⟨stop, oneLine_of_special fun _ => special_of_mem_stopValue simple⟩
  have headings : ∀ s ∈ serviceSections path size, Letters s.heading := by
    have letters : ∀ heading ∈ ["Unit".toList, "Service".toList], Letters heading := by decide
    exact fun s listed => letters s.heading (List.mem_map_of_mem (f := Section.heading) listed)
  exact fun s listed => ⟨headings s listed,
    fun entry inside => (unit entry (List.mem_flatMap.mpr ⟨s, listed, inside⟩)).1,
    fun entry inside => (unit entry (List.mem_flatMap.mpr ⟨s, listed, inside⟩)).2⟩

/-- A long line keeps the whole service from being read. -/
theorem assigned_long {r : Reader} (documented : Documented r) (simple : Simple name path)
    {line : Text} (listed : line ∈ (serviceUnit name path size).lines) (long : ¬ Short line)
    (setting : Text) :
    r.assigned "Service".toList setting (fileText (serviceUnit name path size).lines) = [] := by
  rw [lines_serviceUnit] at listed ⊢
  exact documented.tooLong (serviceSections_proper simple) ⟨line, listed, long⟩

theorem assigned_start {r : Reader} (documented : Documented r) (simple : Simple name path)
    (short : ∀ line ∈ (serviceUnit name path size).lines, Short line) :
    r.assigned "Service".toList "ExecStart".toList (fileText (serviceUnit name path size).lines) =
      ["udevadm settle".toList, createValue path size] := by
  rw [lines_serviceUnit] at short ⊢
  refine (documented.assigned (by decide) (serviceSections_proper simple) short ?_).trans
    (values_start path size)
  intro value member
  rw [values_start] at member
  rcases List.mem_pair.mp member with rfl | rfl
  · exact ⟨by decide, by decide⟩
  · refine ⟨rfl, ?_⟩
    have last := (sizeText_plain (List.getLast_mem (sizeText_ne_nil size))).1
    rw [createValue, List.getLast?_append_of_ne_nil _ (sizeText_ne_nil size),
      List.getLast?_eq_some_getLast (sizeText_ne_nil size), Option.any_some, last]
    rfl

theorem assigned_stop {r : Reader} (documented : Documented r) (simple : Simple name path)
    (short : ∀ line ∈ (serviceUnit name path size).lines, Short line) :
    r.assigned "Service".toList "ExecStop".toList (fileText (serviceUnit name path size).lines) =
      [stopValue path] := by
  rw [lines_serviceUnit] at short ⊢
  refine (documented.assigned (by decide) (serviceSections_proper simple) short ?_).trans
    (values_stop path size)
  intro value member
  rw [values_stop, List.mem_singleton] at member
  rw [member]
  refine ⟨rfl, ?_⟩
  rw [stopValue, List.getLast?_append_of_ne_nil _ (show " %I".toList ≠ [] by decide)]
  decide

end Sections

/-! ## Expansion -/

/-- What becomes of a word. -/
def expand (name word : Text) : Text := if word = "%I".toList then name else word

/-- A word that is the instance, or that nothing expands. -/
def Readable (word : Text) : Prop := word = "%I".toList ∨ '%' ∉ word ∧ Literal word

theorem expanded_eq {r : Reader} (documented : Documented r) {name : Text} (proper : name ≠ [])
    (noNul : '\u0000' ∉ name) (literal : Literal name) {command : List Text}
    (readable : ∀ word ∈ command, Readable word) :
    r.expanded ("zswap-setup@".toList ++ escaped name ++ ".service".toList) command =
      some (command.map (expand name)) := by
  have specified : command.mapM (r.specifiers
      ("zswap-setup@".toList ++ escaped name ++ ".service".toList)) =
        some (command.map (expand name)) := by
    refine Control.mapM_eq_map fun word inside => ?_
    rcases readable word inside with rfl | ⟨noPercent, _⟩
    · rw [documented.instance' (unescaped_escaped name) proper noNul]
      rfl
    · have other : word ≠ "%I".toList := by
        rintro rfl
        exact noPercent (by decide)
      rw [documented.specifiers noPercent, expand, if_neg other]
  have unchanged : r.environment (command.map (expand name)) = command.map (expand name) := by
    refine documented.environment fun word inside => ?_
    obtain ⟨source, inCommand, rfl⟩ := List.mem_map.mp inside
    rw [expand]
    split
    · exact literal
    · rename_i other
      exact ((readable source inCommand).resolve_left other).2
  rw [Reader.expanded, specified]
  exact congrArg some unchanged

theorem expand_of_no_percent {name word : Text} (noPercent : '%' ∉ word) : expand name word = word := by
  rw [expand, if_neg]
  rintro rfl
  exact noPercent (by decide)

theorem Literal.of_not_mem {word : Text} (noDollar : '$' ∉ word) : Literal word where
  first head := noDollar (List.mem_of_mem_head? (Option.mem_def.mpr head))
  dollar inside := noDollar (inside.subset (by simp))
  brace inside := noDollar (inside.subset (by simp))

section Commands

variable {name path : Text} {size : Int64} {r : Reader}

/-- The words of the create command. -/
def createArgs (name path : Text) (size : Int64) : List Text :=
  words isWhite path ++ [name, (toString size.toInt).toList]

theorem Simple.noPercent (simple : Simple name path) {word : Text}
    (listed : word ∈ words isWhite path) : '%' ∉ word :=
  fun inside => simple.not_mem (by decide) (mem_of_mem_words listed inside)

theorem readable_zswapSetup : Readable zswapSetup :=
  Or.inr ⟨fun inside => (zswapSetup_plain _ inside).2.1 (by decide),
    Literal.of_not_mem fun inside => (zswapSetup_plain _ inside).2.2.1 rfl⟩

theorem readable_start (simple : Simple name path) {word : Text}
    (listed : word ∈ words isWhite (createValue path size)) : Readable word := by
  rw [words_start] at listed
  simp only [List.mem_cons, List.mem_append, List.not_mem_nil, or_false] at listed
  rcases listed with rfl | rfl | inPath | rfl | rfl
  · exact readable_zswapSetup
  · exact Or.inr ⟨by decide, Literal.of_not_mem (by decide)⟩
  · exact Or.inr ⟨simple.noPercent inPath, simple.path_literal word inPath⟩
  · exact Or.inl rfl
  · exact Or.inr ⟨fun inside => (sizeText_plain inside).2.1 (by decide),
      Literal.of_not_mem fun inside => (sizeText_plain inside).2.2.1 rfl⟩

theorem readable_stop (simple : Simple name path) {word : Text}
    (listed : word ∈ words isWhite (stopValue path)) : Readable word := by
  rw [words_stop] at listed
  simp only [List.mem_cons, List.mem_append, List.not_mem_nil, or_false] at listed
  rcases listed with rfl | rfl | inPath | rfl
  · exact readable_zswapSetup
  · exact Or.inr ⟨by decide, Literal.of_not_mem (by decide)⟩
  · exact Or.inr ⟨simple.noPercent inPath, simple.path_literal word inPath⟩
  · exact Or.inl rfl

theorem expand_zswapSetup (name : Text) : expand name zswapSetup = zswapSetup :=
  expand_of_no_percent fun inside => (zswapSetup_plain _ inside).2.1 (by decide)

theorem map_expand_path (simple : Simple name path) :
    (words isWhite path).map (expand name) = words isWhite path :=
  (List.map_congr_left fun _ listed => expand_of_no_percent (simple.noPercent listed)).trans
    (List.map_id _)

theorem map_expand_start (simple : Simple name path) :
    (words isWhite (createValue path size)).map (expand name) =
      zswapSetup :: "create".toList :: createArgs name path size := by
  have sizeText : expand name (toString size.toInt).toList = (toString size.toInt).toList :=
    expand_of_no_percent fun inside => (sizeText_plain inside).2.1 (by decide)
  have create : expand name "create".toList = "create".toList := expand_of_no_percent (by decide)
  rw [words_start, List.map_cons, List.map_cons, List.map_append, map_expand_path simple,
    expand_zswapSetup, create, List.map_cons, List.map_cons, sizeText]
  rfl

theorem map_expand_stop (simple : Simple name path) :
    (words isWhite (stopValue path)).map (expand name) =
      zswapSetup :: "stop".toList :: (words isWhite path ++ [name]) := by
  have stop : expand name "stop".toList = "stop".toList := expand_of_no_percent (by decide)
  rw [words_stop, List.map_cons, List.map_cons, List.map_append, map_expand_path simple,
    expand_zswapSetup, stop]
  rfl

theorem commandLine_settle :
    CommandLine "udevadm settle".toList "udevadm".toList ["settle".toList] where
  plain := List.forall_iff_forall_mem.mp (by decide)
  words := by decide
  known := List.mem_cons_self

theorem commandLine_create (simple : Simple name path) :
    CommandLine (createValue path size) zswapSetup
      ("create".toList :: (words isWhite path ++ ["%I".toList, (toString size.toInt).toList])) where
  plain _ member := special_of_mem_createValue simple member
  words := words_start path size
  known := by simp

theorem commandLine_stop (simple : Simple name path) :
    CommandLine (stopValue path) zswapSetup
      ("stop".toList :: (words isWhite path ++ ["%I".toList])) where
  plain _ member := special_of_mem_stopValue simple member
  words := words_stop path
  known := by simp

theorem expanded_settle (documented : Documented r) (simple : Simple name path) :
    r.expanded (serviceUnit name path size).name ["udevadm".toList, "settle".toList] =
      some ["udevadm".toList, "settle".toList] := by
  have plain : ∀ word ∈ ["udevadm".toList, "settle".toList], '%' ∉ word ∧ '$' ∉ word := by decide
  refine (expanded_eq documented simple.named simple.noNul simple.name_literal fun word inside =>
    Or.inr ⟨(plain word inside).1, Literal.of_not_mem (plain word inside).2⟩).trans ?_
  rw [List.map_cons, List.map_cons, expand_of_no_percent (by decide),
    expand_of_no_percent (by decide), List.map_nil]

/-- The commands of a setting, by what its values are. -/
theorem read_of_values {u : UnitFile} {setting : Text} {values : List Text}
    {commands : List (List (List Text))} (assigned :
      r.assigned "Service".toList setting (fileText u.lines) = values)
    (each : values.mapM r.commands = some commands) :
    r.read u setting = commands.flatten.mapM (r.expanded u.name) := by
  rw [Reader.read, assigned, each]
  rfl

/-- The service is started with one command if no word of the path is a lone semicolon. -/
theorem read_start (documented : Documented r) (simple : Simple name path)
    (short : ∀ line ∈ (serviceUnit name path size).lines, Short line)
    (alone : [';'] ∉ words isWhite path) :
    r.read (serviceUnit name path size) "ExecStart".toList =
      some [["udevadm".toList, "settle".toList],
        zswapSetup :: "create".toList :: createArgs name path size] := by
  have notSize : [';'] ≠ (toString size.toInt).toList := fun same =>
    (sizeText_plain (same ▸ List.mem_cons_self : ';' ∈ (toString size.toInt).toList)).2.2.2 rfl
  have alone' : [';'] ∉ "create".toList :: (words isWhite path ++
      ["%I".toList, (toString size.toInt).toList]) := by
    simp only [List.mem_cons, List.mem_append, List.not_mem_nil, or_false, not_or]
    exact ⟨by decide, alone, by decide, notSize⟩
  have create : r.expanded (serviceUnit name path size).name (words isWhite (createValue path size)) =
      some (zswapSetup :: "create".toList :: createArgs name path size) :=
    (expanded_eq documented simple.named simple.noNul simple.name_literal fun word inside =>
      readable_start simple inside).trans (congrArg some (map_expand_start simple))
  rw [words_start] at create
  have each : ["udevadm settle".toList, createValue path size].mapM r.commands =
      some [[["udevadm".toList, "settle".toList]], [zswapSetup :: "create".toList :: (words isWhite path ++
        ["%I".toList, (toString size.toInt).toList])]] := by
    simp only [List.mapM_cons, List.mapM_nil, documented.commands commandLine_settle (by decide),
      documented.commands (commandLine_create simple) alone']
    rfl
  rw [read_of_values (assigned_start documented simple short) each]
  simp only [List.flatten_cons, List.flatten_nil, List.singleton_append, List.mapM_cons, List.mapM_nil,
    expanded_settle documented simple, create]
  rfl

/-- And it is stopped with one. -/
theorem read_stop (documented : Documented r) (simple : Simple name path)
    (short : ∀ line ∈ (serviceUnit name path size).lines, Short line)
    (alone : [';'] ∉ words isWhite path) :
    r.read (serviceUnit name path size) "ExecStop".toList =
      some [zswapSetup :: "stop".toList :: (words isWhite path ++ [name])] := by
  have alone' : [';'] ∉ "stop".toList :: (words isWhite path ++ ["%I".toList]) := by
    simp only [List.mem_cons, List.mem_append, List.not_mem_nil, or_false, not_or]
    exact ⟨by decide, alone, by decide⟩
  have stop : r.expanded (serviceUnit name path size).name (words isWhite (stopValue path)) =
      some (zswapSetup :: "stop".toList :: (words isWhite path ++ [name])) :=
    (expanded_eq documented simple.named simple.noNul simple.name_literal fun word inside =>
      readable_stop simple inside).trans (congrArg some (map_expand_stop simple))
  rw [words_stop] at stop
  have each : [stopValue path].mapM r.commands =
      some [[zswapSetup :: "stop".toList :: (words isWhite path ++ ["%I".toList])]] := by
    simp only [List.mapM_cons, List.mapM_nil, documented.commands (commandLine_stop simple) alone']
    rfl
  rw [read_of_values (assigned_stop documented simple short) each]
  simp only [List.flatten_cons, List.flatten_nil, List.append_nil, List.mapM_cons, List.mapM_nil, stop]
  rfl

/-- The words of the create command, up to a lone semicolon. -/
def firstWords (path : Text) (size : Int64) : List Text :=
  zswapSetup :: ("create".toList :: (words isWhite path ++
    ["%I".toList, (toString size.toInt).toList])).takeWhile fun word => word ≠ [';']

/-- Whatever else the line holds, the command that is read after the first one is made of these. -/
theorem create_of_read_start (documented : Documented r) (simple : Simple name path)
    (short : ∀ line ∈ (serviceUnit name path size).lines, Short line) {settle create : List Text}
    (read : r.read (serviceUnit name path size) "ExecStart".toList = some [settle, create]) :
    create = (firstWords path size).map (expand name) := by
  have settles := documented.commands commandLine_settle (by decide)
  cases found : r.commands (createValue path size) with
  | none =>
      have none' : ["udevadm settle".toList, createValue path size].mapM r.commands = none := by
        simp only [List.mapM_cons, List.mapM_nil, settles, found]
        rfl
      rw [Reader.read, assigned_start documented simple short, none'] at read
      cases read
  | some commands =>
      have first := documented.separated (commandLine_create simple) found
      obtain ⟨rest, rfl⟩ : ∃ rest, commands = firstWords path size :: rest := by
        cases commands with
        | nil => cases first
        | cons command rest => exact ⟨rest, by rw [Option.some.inj first]; rfl⟩
      have each : ["udevadm settle".toList, createValue path size].mapM r.commands =
          some [[["udevadm".toList, "settle".toList]], firstWords path size :: rest] := by
        simp only [List.mapM_cons, List.mapM_nil, settles, found]
        rfl
      have readable : ∀ word ∈ firstWords path size, Readable word := by
        intro word inside
        have listed : word ∈ words isWhite (createValue path size) := by
          rw [words_start]
          rcases List.mem_cons.mp inside with rfl | later
          · exact List.mem_cons_self
          · exact List.mem_cons_of_mem _ ((List.takeWhile_prefix _).subset later)
        exact readable_start simple listed
      have expanded : r.expanded (serviceUnit name path size).name (firstWords path size) =
          some ((firstWords path size).map (expand name)) :=
        expanded_eq documented simple.named simple.noNul simple.name_literal readable
      rw [read_of_values (assigned_start documented simple short) each] at read
      simp only [List.flatten_cons, List.flatten_nil, List.append_nil, List.singleton_append,
        List.mapM_cons, expanded_settle documented simple, expanded] at read
      cases others : rest.mapM (r.expanded (serviceUnit name path size).name) with
      | none =>
          rw [others] at read
          cases read
      | some rest' =>
          rw [others] at read
          cases read
          rfl

end Commands

end GnomeBuildMeta.Zswap
