import GnomeBuildMeta.Control.Except
import GnomeBuildMeta.Words.Utf8
import GnomeBuildMeta.Zswap.Generator

/-!
# The name of the swap unit

systemd takes a swap unit only under the name that it derives from the path of
the device.  `escaped` agrees with it on every character but four.
-/

namespace GnomeBuildMeta.Zswap

open Control

/-! ## The names that systemd derives -/

def charOf (byte : UInt8) : Char := Char.ofNat byte.toNat

/-- The characters that stand for themselves. -/
def isKept (c : Char) : Bool := c.isAlphanum || c = ':' || c = '_' || c = '.'

def hexEscaped (byte : UInt8) : Text := '\\' :: 'x' :: hexByte byte

def pathByte (byte : UInt8) : Text :=
  if charOf byte = '/' then ['-'] else if isKept (charOf byte) then [charOf byte] else hexEscaped byte

def bytesOf (text : Text) : List UInt8 := text.flatMap String.utf8EncodeChar

/-- The name of the unit of a path; a dot in front is not kept. -/
def unitOfPath (path suffix : Text) : Text :=
  match bytesOf (path.dropWhile (· = '/')) with
  | [] => '-' :: suffix
  | byte :: rest =>
      (if charOf byte = '.' then hexEscaped byte else pathByte byte) ++ rest.flatMap pathByte ++ suffix

/-! ## The link to the unit -/

/-- A symbolic link in the directory of the generator. -/
structure Link where
  name : Text
  target : Text
  deriving DecidableEq

def wantsLink (name : Text) : Link where
  name := "swap.target.wants/".toList ++ (swapUnit name).name
  target := "../".toList ++ (swapUnit name).name

/-- The links that the loop over the configuration makes. -/
def linkAll : Table → List Link
  | [] => []
  | (name, cfg) :: rest =>
      match writeUnits name cfg with
      | .error _ => []
      | .ok _ => wantsLink name :: linkAll rest

/-- The loop comes to the table, and takes it. -/
structure Accepted (table : Table) (name : Text) : Prop where
  proper : name ≠ []
  reached : ∃ before cfg after, table = before ++ (name, cfg) :: after ∧
    ∀ entry ∈ before ++ [(name, cfg)], ∃ units, writeUnits entry.1 entry.2 = .ok units

theorem mem_of_accepted {table : Table} {name : Text} (accepted : Accepted table name) :
    swapUnit name ∈ (writeAll table).1 ∧ wantsLink name ∈ linkAll table := by
  obtain ⟨before, cfg, after, rfl, taken⟩ := accepted.reached
  clear accepted
  induction before with
  | nil =>
      obtain ⟨units, written⟩ := taken (name, cfg) List.mem_cons_self
      obtain ⟨path, _, later⟩ := bind_ok_iff.mp written
      obtain ⟨size, _, same⟩ := bind_ok_iff.mp later
      cases same
      simp [writeAll, linkAll, written]
  | cons entry before ih =>
      obtain ⟨units, written⟩ := taken entry List.mem_cons_self
      obtain ⟨unit, link⟩ := ih fun other inside => taken other (List.mem_cons_of_mem _ inside)
      simp [writeAll, linkAll, written, unit, link]

/-! ## What systemd asks for -/

/-- The path of the device. -/
def labelPath (name : Text) : Text := "/dev/disk/by-label/".toList ++ name

/--
The unit, its link and its dependencies go by the names of the path that stands
behind `What=`.  That path is the one that systemd reads there if the name is
plain (`PlainLabel`).
-/
structure Loads (name : Text) (swap : UnitFile) (link : Link) : Prop where
  what : "What=".toList ++ labelPath name ∈ swap.lines
  named : swap.name = unitOfPath (labelPath name) ".swap".toList
  linked : link = ⟨"swap.target.wants/".toList ++ unitOfPath (labelPath name) ".swap".toList,
    "../".toList ++ unitOfPath (labelPath name) ".swap".toList⟩
  after : "After=zswap-setup@".toList ++ escaped name ++ ".service ".toList ++
    unitOfPath (labelPath name) ".device".toList ∈ swap.lines
  bindsTo : "BindsTo=".toList ++ unitOfPath (labelPath name) ".device".toList ∈ swap.lines

/-- The characters on which the two escapes differ. -/
def differing : List Char := ['/', ':', '_', '.']

/-! ## Characters -/

theorem charOf_ofNat {c : Char} (ascii : c.toNat < 128) : charOf (UInt8.ofNat c.toNat) = c := by
  rw [charOf, UInt8.toNat_ofNat', Nat.mod_eq_of_lt (by omega)]
  exact Char.ofNat_toNat c

theorem toNat_lt_of_isKept {c : Char} (kept : isKept c = true) : c.toNat < 128 := by
  unfold isKept Char.isAlphanum Char.isAlpha Char.isUpper Char.isLower Char.isDigit at kept
  simp only [Bool.or_eq_true, Bool.and_eq_true, decide_eq_true_eq, UInt32.le_iff_toNat_le,
    ge_iff_le] at kept
  have upper : 'Z'.val.toNat = 90 := rfl
  have lower : 'z'.val.toNat = 122 := rfl
  have digit : '9'.val.toNat = 57 := rfl
  have same : c.toNat = c.val.toNat := rfl
  rcases kept with ((alphanum | rfl) | rfl) | rfl
  · omega
  · decide
  · decide
  · decide

theorem pathByte_of_wide {byte : UInt8} (wide : 128 ≤ byte.toNat) :
    pathByte byte = hexEscaped byte := by
  have small : byte.toNat < 256 := byte.toNat_lt
  have same : (charOf byte).toNat = byte.toNat := by
    rw [charOf, Char.ofNat, dif_pos (Or.inl (by omega))]
    rfl
  rw [pathByte, if_neg, if_neg]
  · intro kept
    have ascii := toNat_lt_of_isKept kept
    omega
  · intro slash
    rw [slash] at same
    have ascii : '/'.toNat = 47 := rfl
    omega

/-- What systemd makes of the bytes of a character. -/
theorem flatMap_pathByte (c : Char) :
    (String.utf8EncodeChar c).flatMap pathByte =
      if c = '/' then ['-'] else if isKept c then [c]
      else (String.utf8EncodeChar c).flatMap hexEscaped := by
  by_cases ascii : c.toNat < 128
  · simp [Words.utf8_of_ascii ascii, pathByte, charOf_ofNat ascii]
  · have wide : 128 ≤ c.toNat := Nat.le_of_not_lt ascii
    rw [if_neg, if_neg]
    · exact List.flatMap_congr fun byte member => pathByte_of_wide (Words.le_of_mem_utf8 wide member)
    · exact fun kept => ascii (toNat_lt_of_isKept kept)
    · rintro rfl
      exact ascii (by decide)

theorem flatMap_pathByte_eq_escapedChar {c : Char} (plain : c ∉ differing) :
    (String.utf8EncodeChar c).flatMap pathByte = escapedChar c := by
  simp only [differing, List.mem_cons, List.not_mem_nil, or_false, not_or] at plain
  obtain ⟨slash, colon, underscore, dot⟩ := plain
  rw [flatMap_pathByte, if_neg slash, escapedChar]
  simp only [isKept, colon, underscore, dot, decide_false, Bool.or_false]
  rfl

/-- On a character of the four one of the texts starts with a backslash, and the other does not. -/
theorem starts_of_mem_differing {c : Char} (special : c ∈ differing) :
    ∃ x rest, (String.utf8EncodeChar c).flatMap pathByte = [x] ∧ x ≠ '\\' ∧
      escapedChar c = '\\' :: rest := by
  simp only [differing, List.mem_cons, List.not_mem_nil, or_false] at special
  rcases special with rfl | rfl | rfl | rfl
  · exact ⟨'-', _, rfl, by decide, rfl⟩
  · exact ⟨':', _, rfl, by decide, rfl⟩
  · exact ⟨'_', _, rfl, by decide, rfl⟩
  · exact ⟨'.', _, rfl, by decide, rfl⟩

/-! ## Names -/

theorem bytesOf_append (first second : Text) : bytesOf (first ++ second) = bytesOf first ++ bytesOf second :=
  List.flatMap_append

theorem bytesOf_cons (c : Char) (text : Text) : bytesOf (c :: text) = String.utf8EncodeChar c ++ bytesOf text :=
  List.flatMap_cons

theorem unitOfPath_labelPath (name suffix : Text) :
    unitOfPath (labelPath name) suffix =
      "dev-disk-by\\x2dlabel-".toList ++ (bytesOf name).flatMap pathByte ++ suffix := by
  have relative : bytesOf ((labelPath name).dropWhile (· = '/')) =
      100 :: (bytesOf "ev/disk/by-label/".toList ++ bytesOf name) :=
    bytesOf_append "dev/disk/by-label/".toList name
  have start : pathByte 100 ++ (bytesOf "ev/disk/by-label/".toList).flatMap pathByte =
      "dev-disk-by\\x2dlabel-".toList := by decide +kernel
  rw [unitOfPath, relative]
  simp only [show charOf 100 ≠ '.' by decide, if_false]
  rw [List.flatMap_append, ← List.append_assoc, start]

theorem escaped_eq_iff (name : Text) :
    escaped name = (bytesOf name).flatMap pathByte ↔ ∀ c ∈ name, c ∉ differing := by
  induction name with
  | nil => simp [escaped, bytesOf]
  | cons c name ih =>
      rw [escaped, List.flatMap_cons, bytesOf_cons, List.flatMap_append, List.forall_mem_cons, ← ih]
      by_cases special : c ∈ differing
      · obtain ⟨x, rest, systemd, other, generator⟩ := starts_of_mem_differing special
        rw [systemd, generator]
        constructor
        · intro same
          exact absurd (List.cons.inj same).1.symm other
        · exact fun ⟨plain, _⟩ => absurd special plain
      · rw [flatMap_pathByte_eq_escapedChar special, List.append_cancel_left_eq]
        exact (and_iff_right special).symm

theorem loads_iff (name : Text) :
    Loads name (swapUnit name) (wantsLink name) ↔ ∀ c ∈ name, c ∉ differing := by
  rw [← escaped_eq_iff]
  constructor
  · intro loads
    have named := loads.named
    rw [unitOfPath_labelPath] at named
    exact List.append_cancel_left (List.append_cancel_right named)
  · intro same
    have unitName : ∀ suffix, unitOfPath (labelPath name) suffix =
        "dev-disk-by\\x2dlabel-".toList ++ escaped name ++ suffix := by
      intro suffix
      rw [unitOfPath_labelPath, same]
    have after : "After=zswap-setup@".toList ++ escaped name ++ ".service ".toList ++
        unitOfPath (labelPath name) ".device".toList =
          "After=zswap-setup@".toList ++ escaped name ++ ".service dev-disk-by\\x2dlabel-".toList ++
            escaped name ++ ".device".toList := by
      rw [unitName, List.append_assoc _ ".service ".toList, ← List.append_assoc ".service ".toList,
        ← List.append_assoc ".service ".toList, ← List.append_assoc, ← List.append_assoc]
      rfl
    have bindsTo : "BindsTo=".toList ++ unitOfPath (labelPath name) ".device".toList =
        "BindsTo=dev-disk-by\\x2dlabel-".toList ++ escaped name ++ ".device".toList := by
      rw [unitName, ← List.append_assoc, ← List.append_assoc]
      rfl
    have linked : wantsLink name = ⟨"swap.target.wants/".toList ++ (swapUnit name).name,
        "../".toList ++ (swapUnit name).name⟩ := rfl
    have lines : ∀ line, line ∈ (swapUnit name).lines ↔ ∃ i, (swapUnit name).lines[i]? = some line :=
      fun line => List.mem_iff_getElem?
    constructor
    · exact (lines _).mpr ⟨5, rfl⟩
    · exact (unitName _).symm
    · rw [linked, unitName]
      rfl
    · rw [after]
      exact (lines _).mpr ⟨2, rfl⟩
    · rw [bindsTo]
      exact (lines _).mpr ⟨3, rfl⟩

theorem units_of_generator {m : Machine} {files : List UnitFile} {error : Option Error} {table : Table}
    (generated : generator m = .units files error) (config : readConfig m = .ok table) :
    files = (writeAll table).1 ∧ error = (writeAll table).2 := by
  rw [generator] at generated
  split at generated
  · cases generated
  · split at generated
    · cases generated
    · split at generated
      · cases generated
      · split at generated
        · cases generated
        · rw [config] at generated
          cases generated
          exact ⟨rfl, rfl⟩

/-- Exactly the tables without the four characters in their names get a swap unit that loads. -/
theorem swap_unit_loads_iff {m : Machine} {files : List UnitFile} {error : Option Error} {table : Table}
    (generated : generator m = .units files error) (config : readConfig m = .ok table) {name : Text}
    (accepted : Accepted table name) :
    (swapUnit name ∈ files ∧ wantsLink name ∈ linkAll table ∧
        Loads name (swapUnit name) (wantsLink name)) ↔ ∀ c ∈ name, c ∉ differing := by
  obtain ⟨unit, link⟩ := mem_of_accepted accepted
  rw [(units_of_generator generated config).1, loads_iff]
  constructor
  · exact fun ⟨_, _, plain⟩ => plain
  · exact fun plain => ⟨unit, link, plain⟩

/-! ## A label with a dash, and one with an underscore -/

/-- A machine whose configuration has one table. -/
def configured (name : Text) : Machine where
  cmdline := []
  zswapParameters := true
  enabled := .ok "Y\n".toList
  config := .ok (some [(name, ⟨some (.string "/swap/file".toList), some (.integer 4096)⟩)])
  memory := .ok 4096

theorem configured_accepted {name : Text} (proper : name ≠ []) :
    generator (configured name) = .units [serviceUnit name "/swap/file".toList 4096, swapUnit name] none ∧
      Accepted [(name, ⟨some (.string "/swap/file".toList), some (.integer 4096)⟩)] name := by
  refine ⟨rfl, proper, [], _, [], rfl, fun entry member => ?_⟩
  cases List.mem_singleton.mp member
  exact ⟨_, rfl⟩

theorem dashed_label_loads :
    swapUnit "my-swap".toList ∈ (writeAll [("my-swap".toList,
        ⟨some (.string "/swap/file".toList), some (.integer 4096)⟩)]).1 ∧
      Loads "my-swap".toList (swapUnit "my-swap".toList) (wantsLink "my-swap".toList) := by
  have proper : "my-swap".toList ≠ [] := by decide
  obtain ⟨generated, accepted⟩ := configured_accepted proper
  have plain : ∀ c ∈ "my-swap".toList, c ∉ differing := List.forall_iff_forall_mem.mp (by decide)
  obtain ⟨unit, _, loads⟩ := (swap_unit_loads_iff generated rfl accepted).mpr plain
  exact ⟨unit, loads⟩

/-- The underscore is escaped in the name of the file, and systemd does not escape it. -/
theorem underscore_label_refused :
    generator (configured "my_swap".toList) = .units [serviceUnit "my_swap".toList "/swap/file".toList 4096,
        swapUnit "my_swap".toList] none ∧
      (swapUnit "my_swap".toList).name = "dev-disk-by\\x2dlabel-my\\x5fswap.swap".toList ∧
      unitOfPath (labelPath "my_swap".toList) ".swap".toList =
        "dev-disk-by\\x2dlabel-my_swap.swap".toList ∧
      ¬ Loads "my_swap".toList (swapUnit "my_swap".toList) (wantsLink "my_swap".toList) := by
  refine ⟨rfl, by decide +kernel, by decide +kernel, fun loads => ?_⟩
  exact (loads_iff _).mp loads '_' (by decide) (by decide)

end GnomeBuildMeta.Zswap
