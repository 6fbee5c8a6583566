import GnomeBuildMeta.Control.Except
import GnomeBuildMeta.Zswap.ReadBack
import Mathlib.Data.List.TakeWhile

/-!
# The entries that survive

Among the entries without quotes, escapes and expansions exactly the plain ones
are created and stopped as the configuration says.
-/

namespace GnomeBuildMeta.Zswap

open Words

variable {name path : Text} {size : Int64} {r : Reader}

/-! ## One word -/

/-- The path comes back as the first of its words only if it is one. -/
theorem words_of_positional {text last : Text}
    (positional : words isWhite path ++ [name, last] = [path, name, text] ∨ ∃ before after,
      words isWhite path ++ [name, last] = before ++ "--".toList :: after ∧
        before ++ after = [path, name, text]) : words isWhite path = [path] := by
  rcases positional with same | ⟨before, after, whole, values⟩
  · have one : (words isWhite path).length = 1 := by
      simpa using congrArg List.length same
    exact (List.append_inj same (by simpa using one)).1
  · have two : (words isWhite path).length = 2 := by
      have lengths := congrArg List.length whole
      have three := congrArg List.length values
      simp only [List.length_append, List.length_cons, List.length_nil] at lengths three
      omega
    obtain ⟨first, second, both⟩ := List.length_eq_two.mp two
    refine words_of_self_mem ?_
    rw [both] at whole ⊢
    cases before with
    | nil =>
        obtain ⟨_, rest⟩ := List.cons.inj whole
        have head : second :: [name, last] = path :: [name, text] := by
          rw [← values]
          exact rest
        rw [(List.cons.inj head).1]
        simp
    | cons b before =>
        have fromWords : first = b := (List.cons.inj whole).1
        have fromValues : b = path := (List.cons.inj values).1
        rw [fromWords, fromValues]
        exact List.mem_cons_self

/-! ## Which entries survive -/

/-- A path of which a lone semicolon is a word is cut there. -/
theorem firstWords_of_separator (simple : Simple name path) (cut : [';'] ∈ words isWhite path) :
    (firstWords path size).map (expand name) = zswapSetup :: "create".toList ::
      (words isWhite path).takeWhile fun word => word ≠ [';'] := by
  have shorter : ((words isWhite path).takeWhile fun word => word ≠ [';']).length ≠
      (words isWhite path).length := by
    intro same
    have whole := (List.takeWhile_prefix fun word => decide (word ≠ [';'])).eq_of_length same
    have kept := List.mem_takeWhile_imp (whole.symm ▸ cut)
    exact absurd kept (by simp)
  have create : expand name "create".toList = "create".toList := expand_of_no_percent (by decide)
  rw [firstWords, List.takeWhile_cons_of_pos (by decide), List.takeWhile_append, if_neg shorter,
    List.map_cons, List.map_cons, expand_zswapSetup, create]
  refine congrArg (zswapSetup :: "create".toList :: ·) (List.map_congr_left fun word inside => ?_) |>.trans
    (congrArg (zswapSetup :: "create".toList :: ·) (List.map_id _))
  exact expand_of_no_percent (simple.noPercent ((List.takeWhile_prefix _).subset inside))

/-- Then the path does not come back: it is none of the words before the semicolon. -/
theorem not_positional_of_separator {label : Text} {n : Nat} (documented : Documented r)
    (cut : [';'] ∈ words isWhite path) (parsed : r.parse (zswapSetup :: "create".toList ::
      (words isWhite path).takeWhile fun word => word ≠ [';']) = some (.create path label n)) : False := by
  have listed : path ∈ (words isWhite path).takeWhile fun word => word ≠ [';'] := by
    obtain ⟨text, same | ⟨before, after, whole, values⟩⟩ := documented.positional parsed
    · rw [same]
      exact List.mem_cons_self
    · have inValues : path ∈ before ++ after := by
        rw [values]
        exact List.mem_cons_self
      rw [whole]
      rcases List.mem_append.mp inValues with inBefore | inAfter
      · exact List.mem_append_left _ inBefore
      · exact List.mem_append_right _ (List.mem_cons_of_mem _ inAfter)
  have single := words_of_self_mem ((List.takeWhile_prefix _).subset listed)
  have same : [';'] = path := List.mem_singleton.mp (single ▸ cut)
  have kept := List.mem_takeWhile_imp listed
  rw [← same] at kept
  exact absurd kept (by simp)

theorem plain_of_readsBack (documented : Documented r) (simple : Simple name path)
    (back : ReadsBack r name path size) : Plain name path size := by
  obtain ⟨create, n, read, parsed, written⟩ := back.start
  have short : ∀ line ∈ (serviceUnit name path size).lines, Short line := by
    intro line listed
    by_contra long
    rw [Reader.read, assigned_long documented simple listed long] at read
    cases read
  by_cases cut : [';'] ∈ words isWhite path
  · rw [create_of_read_start documented simple short read, firstWords_of_separator simple cut] at parsed
    exact (not_positional_of_separator documented cut parsed).elim
  rw [read_start documented simple short cut] at read
  cases read
  obtain ⟨text, positional⟩ := documented.positional parsed
  have single : words isWhite path = [path] := words_of_positional positional
  obtain ⟨proper, noWhite⟩ := of_mem_words (single ▸ List.mem_cons_self)
  have noOption : ¬ (Hyphened path ∨ Hyphened name ∨ Hyphened (toString size.toInt).toList) := by
    intro option
    have failed := documented.option option
    rw [createArgs, single] at parsed
    exact absurd (failed.symm.trans parsed) (by simp)
  simp only [not_or] at noOption
  refine ⟨short, proper, noWhite, ?_, noOption.1, noOption.2.1, by omega⟩
  rintro rfl
  rw [single] at cut
  exact cut List.mem_cons_self

theorem readsBack_of_plain (documented : Documented r) (simple : Simple name path)
    (plain : Plain name path size) : ReadsBack r name path size := by
  have single : words isWhite path = [path] := words_of_no_break plain.proper plain.noWhite
  have alone : [';'] ∉ words isWhite path := by
    rw [single]
    exact fun same => plain.notSeparator (List.mem_singleton.mp same).symm
  constructor
  · refine ⟨zswapSetup :: "create".toList :: createArgs name path size, size.toInt.toNat,
      read_start documented simple plain.short alone, ?_, Int.toNat_of_nonneg plain.nonneg⟩
    have bound : size.toInt.toNat < 2 ^ 64 := by
      have small := size.toInt_lt
      omega
    rw [createArgs, single, sizeText_of_nonneg plain.nonneg]
    exact documented.create plain.proper plain.path_value plain.name_value bound
  · refine ⟨zswapSetup :: "stop".toList :: (words isWhite path ++ [name]),
      read_stop documented simple plain.short alone, ?_⟩
    rw [single]
    exact documented.stop plain.proper plain.path_value plain.name_value

/-- What an entry that the generator accepts comes back as. -/
theorem accepted_reads_back_iff (documented : Documented r) {cfg : Cfg} {units : List UnitFile}
    (accepted : writeUnits name cfg = .ok units) : ∃ path size,
    cfg.path = some (.string path) ∧ cfg.size = some (.integer size) ∧
      serviceUnit name path size ∈ units ∧
        (Simple name path → (ReadsBack r name path size ↔ Plain name path size)) := by
  obtain ⟨path, readPath, rest⟩ := Control.bind_ok_iff.mp accepted
  obtain ⟨size, readSize, written⟩ := Control.bind_ok_iff.mp rest
  have isString : cfg.path = some (.string path) := by
    unfold getPath at readPath
    split at readPath
    · cases readPath
      assumption
    · cases readPath
  have isInteger : cfg.size = some (.integer size) := by
    unfold getSize at readSize
    split at readSize
    · cases readSize
      assumption
    · cases readSize
  cases written
  exact ⟨path, size, isString, isInteger, List.mem_cons_self, fun simple =>
    ⟨plain_of_readsBack documented simple, readsBack_of_plain documented simple⟩⟩

/-! ## A reader -/

instance (word : Text) : Decidable (Hyphened word) :=
  decidable_of_iff (word.head? = some '-' ∧ 2 ≤ word.length) <| by
    constructor
    · rintro ⟨first, long⟩
      match word with
      | [] => cases first
      | [_] => exact absurd long (by simp)
      | c :: c' :: rest =>
          rw [Option.some.inj first]
          exact ⟨c', rest, rfl⟩
    · rintro ⟨c, rest, rfl⟩
      simp

/-- What stands between `@` and the suffix of a setup unit. -/
def instanceOf (unit : Text) : Text := (unit.drop 12).take (unit.length - 20)

def parseSize (text : Text) : Option Nat :=
  let size := Nat.ofDigitChars 10 text 0
  if text ≠ [] ∧ text.all Char.isDigit = true ∧ size < 2 ^ 64 then some size else none

/-- Three values to create, two to stop, and no option. -/
def basicParse : List Text → Option SetupCommand
  | [program, command, swapfile, label, size] =>
      if program = zswapSetup ∧ command = "create".toList ∧ swapfile ≠ [] ∧
          ¬ (Hyphened swapfile ∨ Hyphened label ∨ Hyphened size) then
        (parseSize size).map (.create swapfile label)
      else none
  | [program, command, swapfile, label] =>
      if program = zswapSetup ∧ command = "stop".toList ∧ swapfile ≠ [] ∧
          ¬ (Hyphened swapfile ∨ Hyphened label) then some (.stop swapfile label)
      else none
  | _ => none

/-- The values of a setting in some lines, of which the first ones stand below the heading or not. -/
def basicValues (heading setting : Text) : Bool → List Text → List Text
  | _, [] => []
  | below, line :: lines =>
      if line.head? = some '[' then
        basicValues heading setting (line = '[' :: heading ++ [']']) lines
      else if below = true ∧ line.takeWhile (· ≠ '=') = setting then
        (line.dropWhile (· ≠ '=')).tail :: basicValues heading setting below lines
      else basicValues heading setting below lines

/-- A reader that knows no quotes, no variables and no specifier but `%I`. -/
def basicReader : Reader where
  assigned heading setting text :=
    if ∀ line ∈ text.splitOn '\n', Short line then
      basicValues heading setting false (text.splitOn '\n')
    else []
  commands value := some ((words isWhite value).splitOn [';'])
  specifiers unit word := if word = "%I".toList then unescaped (instanceOf unit) else some word
  environment words := words
  parse := basicParse

theorem basicReader_specifiers (unit word : Text) : basicReader.specifiers unit word =
    if word = "%I".toList then unescaped (instanceOf unit) else some word := rfl

theorem splitOn_fileText {lines : List Text} (oneLine : ∀ line ∈ lines, '\n' ∉ line) :
    (fileText lines).splitOn '\n' = lines ++ [[]] := by
  induction lines with
  | nil => rfl
  | cons line lines ih =>
      have later := ih fun other member => oneLine other (List.mem_cons_of_mem _ member)
      have whole : fileText (line :: lines) = line ++ '\n' :: fileText lines := by simp [fileText]
      rw [whole, List.splitOn_append_cons_self_of_not_mem (oneLine line List.mem_cons_self), later]
      rfl

theorem newline_not_mem {sections : List Section} (proper : ∀ s ∈ sections, s.Proper) :
    ∀ line ∈ sections.flatMap Section.lines, '\n' ∉ line := by
  have letter : ∀ {text : Text}, Letters text → '\n' ∉ text :=
    fun letters inside => absurd (letters _ inside) (by decide)
  intro line listed
  obtain ⟨s, member, inSection⟩ := List.mem_flatMap.mp listed
  rcases List.mem_cons.mp inSection with rfl | inSettings
  · have heading := letter (proper s member).heading
    simp [heading]
  · obtain ⟨entry, inside, rfl⟩ := List.mem_map.mp inSettings
    have key := letter ((proper s member).keys entry inside).2
    have value : '\n' ∉ entry.2 := fun ends => ((proper s member).values entry inside).1 _ ends (by decide)
    simp [key, value]

/-- The line of a setting is taken apart at its first `=`. -/
theorem cut_setting {key : Text} (value : Text) (proper : key ≠ [] ∧ Letters key) :
    (key ++ '=' :: value).head? ≠ some '[' ∧
      (key ++ '=' :: value).takeWhile (· ≠ '=') = key ∧
      ((key ++ '=' :: value).dropWhile (· ≠ '=')).tail = value := by
  have letter : ∀ c ∈ key, decide (c ≠ '=') = true := by
    intro c inside
    refine decide_eq_true ?_
    rintro rfl
    exact absurd (proper.2 _ inside) (by decide)
  refine ⟨?_, ?_, ?_⟩
  · obtain ⟨c, rest, rfl⟩ := List.exists_cons_of_ne_nil proper.1
    intro bracket
    have same : c = '[' := Option.some.inj bracket
    exact absurd (proper.2 c List.mem_cons_self) (by rw [same]; decide)
  · rw [List.takeWhile_append_of_pos letter, List.takeWhile_cons_of_neg (by simp), List.append_nil]
  · rw [List.dropWhile_append_of_pos letter, List.dropWhile_cons_of_neg (by simp), List.tail_cons]

theorem basicValues_settings {heading setting : Text} {settings : List (Text × Text)}
    (proper : ∀ entry ∈ settings, entry.1 ≠ [] ∧ Letters entry.1) (below : Bool)
    (lines : List Text) :
    basicValues heading setting below
        ((settings.map fun entry => entry.1 ++ '=' :: entry.2) ++ lines) =
      (if below then (settings.filter fun entry => entry.1 = setting).map Prod.snd else []) ++
        basicValues heading setting below lines := by
  induction settings with
  | nil => cases below <;> rfl
  | cons entry settings ih =>
      obtain ⟨noHeading, key, value⟩ := cut_setting entry.2 (proper entry List.mem_cons_self)
      have later := ih fun other inside => proper other (List.mem_cons_of_mem _ inside)
      rw [List.map_cons, List.cons_append, basicValues, if_neg noHeading, key, value, later]
      cases below with
      | false => rfl
      | true =>
          by_cases same : entry.1 = setting
          · simp [same]
          · simp [same]

theorem basicValues_sections {heading setting : Text} (named : setting ≠ []) {sections : List Section}
    (proper : ∀ s ∈ sections, s.Proper) (below : Bool) :
    basicValues heading setting below (sections.flatMap Section.lines ++ [[]]) =
      valuesOf heading setting sections := by
  induction sections generalizing below with
  | nil => simp [basicValues, valuesOf, Ne.symm named]
  | cons s sections ih =>
      have later := ih fun other inside => proper other (List.mem_cons_of_mem _ inside)
      have heading' : ('[' :: s.heading ++ [']']).head? = some '[' := rfl
      rw [List.flatMap_cons, Section.lines, List.append_assoc, List.cons_append, basicValues,
        if_pos heading', basicValues_settings (proper s List.mem_cons_self).keys, later]
      by_cases same : s.heading = heading
      · simp [valuesOf, same]
      · simp [valuesOf, same]

/-- The first part is what comes before the first separator. -/
theorem head?_splitOn (x : Text) (list : List Text) :
    (list.splitOn x).head? = some (list.takeWhile fun y => y ≠ x) := by
  have other : ∀ {before : List Text}, x ∉ before → ∀ y ∈ before, decide (y ≠ x) = true :=
    fun absent y inside => decide_eq_true fun same => absent (same ▸ inside)
  by_cases inside : x ∈ list
  · obtain ⟨before, after, rfl, absent⟩ := List.eq_append_cons_of_mem inside
    rw [List.splitOn_append_cons_self_of_not_mem absent, List.takeWhile_append_of_pos (other absent),
      List.takeWhile_cons_of_neg (by simp), List.append_nil]
    rfl
  · rw [List.splitOn_eq_singleton inside, List.takeWhile_eq_self_iff.mpr (other inside)]
    rfl

theorem instanceOf_append (inst : Text) :
    instanceOf ("zswap-setup@".toList ++ inst ++ ".service".toList) = inst := by
  have first : "zswap-setup@".toList.length = 12 := by decide
  have last : ".service".toList.length = 8 := by decide
  have length : ("zswap-setup@".toList ++ inst ++ ".service".toList).length - 20 = inst.length := by
    rw [List.length_append, List.length_append, first, last]
    omega
  rw [instanceOf, length, List.append_assoc, ← first, List.drop_left, List.take_left]

theorem basicParse_create {swapfile label : Text} {size : Nat} (proper : swapfile ≠ [])
    (pathValue : ¬ Hyphened swapfile) (labelValue : ¬ Hyphened label) (bound : size < 2 ^ 64) :
    basicParse [zswapSetup, "create".toList, swapfile, label, (Nat.repr size).toList] =
      some (.create swapfile label size) := by
  have digit : ∀ c ∈ Nat.toDigits 10 size, c.isDigit = true := fun c member =>
    Nat.isDigit_of_mem_toDigits (by decide) (by decide) member
  have sizeValue : ¬ Hyphened (Nat.repr size).toList := by
    rintro ⟨c, rest, same⟩
    rw [Nat.toList_repr] at same
    exact absurd (digit '-' (same ▸ List.mem_cons_self)) (by decide)
  have parsed : parseSize (Nat.repr size).toList = some size := by
    rw [parseSize, Nat.toList_repr, Nat.ofDigitChars_ten_toDigits]
    exact if_pos ⟨Nat.toDigits_ne_nil, List.all_eq_true.mpr digit, bound⟩
  rw [basicParse, if_pos ⟨rfl, rfl, proper, not_or.mpr ⟨pathValue, not_or.mpr ⟨labelValue, sizeValue⟩⟩⟩,
    parsed]
  rfl

/-- Only three arguments make a create command. -/
theorem basicParse_positional {args : List Text} {swapfile label : Text} {size : Nat}
    (parsed : basicParse (zswapSetup :: "create".toList :: args) = some (.create swapfile label size)) :
    ∃ text, args = [swapfile, label, text] := by
  match args with
  | [] => cases parsed
  | [_] => cases parsed
  | [_, _] =>
      rw [basicParse, Option.ite_none_right_eq_some] at parsed
      cases parsed.2
  | [p, l, text] =>
      rw [basicParse, Option.ite_none_right_eq_some] at parsed
      obtain ⟨n, _, same⟩ := Option.map_eq_some_iff.mp parsed.2
      cases same
      exact ⟨text, rfl⟩
  | _ :: _ :: _ :: _ :: _ => cases parsed

theorem basicReader_documented : Documented basicReader where
  assigned := by
    intro heading setting sections read proper short _
    have named : ∀ entry ∈ readSettings, entry.2 ≠ [] := by decide
    have lines := splitOn_fileText (newline_not_mem proper)
    have short' : ∀ line ∈ (fileText (sections.flatMap Section.lines)).splitOn '\n', Short line := by
      rw [lines]
      intro line listed
      rcases List.mem_append.mp listed with inSections | last
      · exact short line inSections
      · rw [List.mem_singleton.mp last]
        decide
    change (if _ then _ else _) = _
    rw [if_pos short', lines, basicValues_sections (named _ read) proper]
  tooLong := by
    rintro heading setting sections proper ⟨line, listed, long⟩
    refine if_neg fun short => long (short line ?_)
    rw [splitOn_fileText (newline_not_mem proper)]
    exact List.mem_append_left _ listed
  commands := by
    intro value program args line alone
    have noProgram : ∀ program ∈ ["udevadm".toList, zswapSetup], [';'] ≠ program := by decide +kernel
    have absent : [';'] ∉ words isWhite value := by
      rw [line.words]
      exact List.not_mem_cons_of_ne_of_not_mem (noProgram _ line.known) alone
    change some _ = _
    rw [List.splitOn_eq_singleton absent, line.words]
  separated := by
    intro value program args commands line read
    have noProgram : ∀ program ∈ ["udevadm".toList, zswapSetup], program ≠ [';'] := by decide +kernel
    cases read
    rw [head?_splitOn, line.words, List.takeWhile_cons_of_pos (by simpa using noProgram _ line.known)]
  specifiers := by
    intro unit word noPercent
    have other : word ≠ "%I".toList := by
      rintro rfl
      exact noPercent (by decide)
    rw [basicReader_specifiers, if_neg other]
  instance' := by
    intro inst name same _ _
    rw [basicReader_specifiers, if_pos rfl, instanceOf_append, same]
  environment _ := rfl
  create proper pathValue labelValue bound := basicParse_create proper pathValue labelValue bound
  stop := by
    intro swapfile label proper pathValue labelValue
    exact if_pos ⟨rfl, rfl, proper, not_or.mpr ⟨pathValue, labelValue⟩⟩
  positional parsed := (basicParse_positional parsed).imp fun _ same => Or.inl same
  option := by
    intro swapfile label text option
    exact if_neg fun all => all.2.2.2 option

/-! ## A path with a blank -/

theorem simple_of_check {name path : Text} (named : name ≠ []) (plain : ∀ c ∈ path, c ∉ special ∧ c ≠ '$')
    (plainName : ∀ c ∈ name, c ≠ '\u0000' ∧ c ≠ '$') : Simple name path where
  named := named
  plain c member := (plain c member).1
  path_literal _ listed :=
    Literal.of_not_mem fun inside => (plain '$' (mem_of_mem_words listed inside)).2 rfl
  name_literal := Literal.of_not_mem fun inside => (plainName '$' inside).2 rfl
  noNul inside := (plainName '\u0000' inside).1 rfl

/-- The default swap file is created as it should be. -/
theorem default_swap_reads_back : ∃ path size, path = "/swap/default-swap".toList ∧ size = 4096 ∧
    ReadsBack basicReader "default-swap".toList path size := by
  have accepted : writeUnits "default-swap".toList
      ⟨some (.string "/swap/default-swap".toList), some (.integer 4096)⟩ =
        .ok [serviceUnit "default-swap".toList "/swap/default-swap".toList 4096,
          swapUnit "default-swap".toList] := rfl
  obtain ⟨path, size, isString, isInteger, _, back⟩ :=
    accepted_reads_back_iff basicReader_documented accepted
  cases isString
  cases isInteger
  have simple : Simple "default-swap".toList "/swap/default-swap".toList :=
    simple_of_check (by decide) (List.forall_iff_forall_mem.mp (by decide))
      (List.forall_iff_forall_mem.mp (by decide))
  have plain : Plain "default-swap".toList "/swap/default-swap".toList 4096 :=
    ⟨by decide +kernel, by decide, List.forall_iff_forall_mem.mp (by decide), by decide, by decide,
      by decide, by decide⟩
  exact ⟨_, _, rfl, rfl, (back simple).mpr plain⟩

/-- A blank makes two words of the path, and `zswap-setup` refuses the third argument. -/
theorem blank_not_read_back : Documented basicReader ∧
    writeUnits "default-swap".toList
      ⟨some (.string "/swap/my file".toList), some (.integer 4096)⟩ =
        .ok [serviceUnit "default-swap".toList "/swap/my file".toList 4096,
          swapUnit "default-swap".toList] ∧
    ¬ ReadsBack basicReader "default-swap".toList "/swap/my file".toList 4096 := by
  refine ⟨basicReader_documented, rfl, fun back => ?_⟩
  have simple : Simple "default-swap".toList "/swap/my file".toList :=
    simple_of_check (by decide) (List.forall_iff_forall_mem.mp (by decide))
      (List.forall_iff_forall_mem.mp (by decide))
  have plain := plain_of_readsBack basicReader_documented simple back
  exact absurd (plain.noWhite ' ' (by decide)) (by decide)

end GnomeBuildMeta.Zswap
