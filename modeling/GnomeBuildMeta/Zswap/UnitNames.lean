import GnomeBuildMeta.Zswap.ReadBack
import GnomeBuildMeta.Zswap.SwapUnitName
import Mathlib.Data.List.Nodup

/-!
# The files of two entries

An escaped name is read back byte by byte, so that no two names are escaped
alike, and the generator writes different files for different entries.
-/

namespace GnomeBuildMeta.Zswap

open Control Words

/-! ## Escaped names -/

def hexDigits : Text := "0123456789abcdef".toList

/-- A letter or a digit, or a backslash, an `x` and the two digits of a byte. -/
inductive IsPiece : Text → Prop where
  | plain {c : Char} : c.isAlphanum = true → IsPiece [c]
  | byte {high low : Char} : high ∈ hexDigits → low ∈ hexDigits → IsPiece ['\\', 'x', high, low]

structure Escapes (name : Text) : Prop where
  alphabet : ∃ pieces : List Text, escaped name = pieces.flatten ∧ ∀ piece ∈ pieces, IsPiece piece
  undone : unescapeBytes (escaped name) = some (utf8 name)

theorem digitChar_mem {value : Nat} (small : value < 16) : Nat.digitChar value ∈ hexDigits := by
  have all : ∀ value < 16, Nat.digitChar value ∈ hexDigits := by decide
  exact all value small

theorem isPiece_hexEscaped (byte : UInt8) : IsPiece (hexEscaped byte) :=
  .byte (digitChar_mem (Nat.div_lt_of_lt_mul byte.toNat_lt)) (digitChar_mem (Nat.mod_lt _ (by decide)))

theorem escapedChar_pieces (c : Char) :
    ∃ pieces : List Text, escapedChar c = pieces.flatten ∧ ∀ piece ∈ pieces, IsPiece piece := by
  rw [escapedChar]
  split
  case isTrue alphanum =>
    exact ⟨[[c]], rfl, List.forall_mem_singleton.mpr (.plain alphanum)⟩
  case isFalse =>
    refine ⟨(String.utf8EncodeChar c).map hexEscaped, List.flatMap_def, fun piece member => ?_⟩
    obtain ⟨byte, _, rfl⟩ := List.mem_map.mp member
    exact isPiece_hexEscaped byte

theorem escapes (name : Text) : Escapes name where
  alphabet := by
    induction name with
    | nil => exact ⟨[], rfl, List.forall_mem_nil _⟩
    | cons c name ih =>
        obtain ⟨first, here, firstPieces⟩ := escapedChar_pieces c
        obtain ⟨later, others, laterPieces⟩ := ih
        refine ⟨first ++ later, ?_, List.forall_mem_append.mpr ⟨firstPieces, laterPieces⟩⟩
        rw [escaped, List.flatMap_cons, here, List.flatten_append, ← others]
        rfl
  undone := unescapeBytes_escaped name

theorem escaped_injective : Function.Injective escaped := by
  intro name other same
  have texts := congrArg unescaped same
  rw [unescaped_escaped, unescaped_escaped] at texts
  exact Option.some.inj texts

/-! ## How systemd reads the path of a swap unit -/

theorem isPiece_oneLine {piece : Text} (isPiece : IsPiece piece) : NoLineEnd piece := by
  have digits : NoLineEnd hexDigits := by decide
  cases isPiece with
  | plain alphanum =>
      have others : ∀ c ∈ lineEnds, c.isAlphanum = false := List.forall_iff_forall_mem.mp (by decide)
      intro c inside ends
      rw [List.mem_singleton.mp inside] at ends
      exact absurd alphanum (by rw [others _ ends]; decide)
  | byte high low =>
      intro c inside
      simp only [List.mem_cons, List.not_mem_nil, or_false] at inside
      rcases inside with rfl | rfl | rfl | rfl
      · decide
      · decide
      · exact digits _ high
      · exact digits _ low

/-- An escaped name between texts of one line is one line. -/
theorem oneLine_escaped {before after : Text} (name : Text) (first : NoLineEnd before)
    (last : OneLine after) (proper : after ≠ []) : OneLine (before ++ escaped name ++ after) := by
  constructor
  · obtain ⟨pieces, whole, isPiece⟩ := (escapes name).alphabet
    intro c inside
    rcases List.mem_append.mp inside with inFront | inAfter
    · rcases List.mem_append.mp inFront with inBefore | inName
      · exact first c inBefore
      · obtain ⟨piece, listed, inPiece⟩ := List.mem_flatten.mp (whole ▸ inName)
        exact isPiece_oneLine (isPiece piece listed) c inPiece
    · exact last.1 c inAfter
  · rw [List.getLast?_append_of_ne_nil _ proper]
    exact last.2

def swapSections (name : Text) : List Section :=
  [⟨"Unit".toList,
      [("Wants".toList, "zswap-setup@".toList ++ escaped name ++ ".service".toList),
        ("After".toList, "zswap-setup@".toList ++ escaped name ++
          ".service dev-disk-by\\x2dlabel-".toList ++ escaped name ++ ".device".toList),
        ("BindsTo".toList, "dev-disk-by\\x2dlabel-".toList ++ escaped name ++ ".device".toList)]⟩,
    ⟨"Swap".toList, [("What".toList, labelPath name), ("Options".toList, "discard".toList)]⟩]

theorem lines_swapUnit (name : Text) :
    (swapUnit name).lines = (swapSections name).flatMap Section.lines := rfl

theorem values_what (name : Text) :
    valuesOf "Swap".toList "What".toList (swapSections name) = [labelPath name] := rfl

/-- Nothing of the name is read as something else behind `What=`. -/
structure PlainLabel (name : Text) : Prop where
  oneLine : OneLine name
  noPercent : '%' ∉ name
  trimmed : name.getLast?.any (fun c => !isWhite c) = true
  short : ∀ line ∈ (swapUnit name).lines, Short line

theorem PlainLabel.proper {name : Text} (plain : PlainLabel name) : name ≠ [] := by
  rintro rfl
  exact absurd plain.trimmed (by simp)

theorem swapSections_proper {name : Text} (plain : PlainLabel name) :
    ∀ s ∈ swapSections name, s.Proper := by
  have service : OneLine ".service".toList := by decide
  have device : OneLine ".device".toList := by decide
  have discard : OneLine "discard".toList := by decide
  have between : OneLine ".service dev-disk-by\\x2dlabel-".toList := by decide
  have setup : NoLineEnd "zswap-setup@".toList := by decide
  have disk : NoLineEnd "dev-disk-by\\x2dlabel-".toList := by decide
  have path : NoLineEnd "/dev/disk/by-label/".toList := by decide
  have what : OneLine (labelPath name) := by
    unfold labelPath
    constructor
    · exact fun c inside => (List.mem_append.mp inside).elim (path c) (plain.oneLine.1 c)
    · rw [List.getLast?_append_of_ne_nil _ plain.proper]
      exact plain.oneLine.2
  have letters : ∀ text ∈ ["Unit".toList, "Swap".toList, "Wants".toList, "After".toList, "BindsTo".toList,
      "What".toList, "Options".toList], text ≠ [] ∧ Letters text := by decide
  have unit : ∀ entry ∈ (swapSections name).flatMap Section.settings, entry.1 ∈ ["Unit".toList,
      "Swap".toList, "Wants".toList, "After".toList, "BindsTo".toList, "What".toList, "Options".toList] ∧
        OneLine entry.2 := by
    intro entry listed
    simp only [swapSections, List.flatMap_cons, List.flatMap_nil, List.append_nil, List.cons_append,
      List.nil_append, List.mem_cons, List.not_mem_nil, or_false] at listed
    rcases listed with rfl | rfl | rfl | rfl | rfl
    · exact ⟨by simp, oneLine_escaped name setup service (by decide)⟩
    · have first := oneLine_escaped name setup between (by decide)
      exact ⟨by simp, oneLine_escaped name first.1 device (by decide)⟩
    · exact ⟨by simp, oneLine_escaped name disk device (by decide)⟩
    · exact ⟨by simp, what⟩
    · exact ⟨by simp, discard⟩
  have headings : ∀ s ∈ swapSections name, s.heading ∈ ["Unit".toList, "Swap".toList] :=
    fun s listed => List.mem_map_of_mem (f := Section.heading) listed
  intro s listed
  refine ⟨?_, fun entry inside => ?_, fun entry inside => ?_⟩
  · exact (letters _ (List.mem_of_mem_take (i := 2) (headings s listed))).2
  · exact letters _ (unit entry (List.mem_flatMap.mpr ⟨s, listed, inside⟩)).1
  · exact (unit entry (List.mem_flatMap.mpr ⟨s, listed, inside⟩)).2

/-- The path of the device is read as it was written. -/
theorem what_read {r : Reader} (documented : Documented r) {name : Text} (plain : PlainLabel name) :
    r.assigned "Swap".toList "What".toList (fileText (swapUnit name).lines) = [labelPath name] ∧
      r.specifiers (swapUnit name).name (labelPath name) = some (labelPath name) := by
  constructor
  · have short := plain.short
    rw [lines_swapUnit] at short ⊢
    refine (documented.assigned (by decide) (swapSections_proper plain) short ?_).trans
      (values_what name)
    intro value member
    rw [values_what, List.mem_singleton] at member
    rw [member]
    refine ⟨rfl, ?_⟩
    unfold labelPath
    rw [List.getLast?_append_of_ne_nil _ plain.proper]
    exact plain.trimmed
  · refine documented.specifiers fun inside => ?_
    unfold labelPath at inside
    have start : '%' ∉ "/dev/disk/by-label/".toList := by decide
    exact (List.mem_append.mp inside).elim start plain.noPercent

/-! ## Names of files -/

def serviceName (name : Text) : Text := "zswap-setup@".toList ++ escaped name ++ ".service".toList

def swapName (name : Text) : Text := "dev-disk-by\\x2dlabel-".toList ++ escaped name ++ ".swap".toList

/-- The files of an entry. -/
def fileNames (name : Text) : List Text := [serviceName name, swapName name]

theorem framed_injective (first last : Text) :
    Function.Injective fun name => first ++ escaped name ++ last := fun _ _ same =>
  escaped_injective (List.append_cancel_left (List.append_cancel_right same))

theorem serviceName_ne_swapName (name other : Text) : serviceName name ≠ swapName other := by
  intro same
  cases (List.cons.inj same).1

theorem fileNames_disjoint {name other : Text} (differ : name ≠ other) :
    List.Disjoint (fileNames name) (fileNames other) := by
  intro file here there
  rcases List.mem_pair.mp here with rfl | rfl <;> rcases List.mem_pair.mp there with same | same
  · exact differ (framed_injective _ _ same)
  · exact serviceName_ne_swapName _ _ same
  · exact serviceName_ne_swapName _ _ same.symm
  · exact differ (framed_injective _ _ same)

/-- The loop does not stop at the entry. -/
def Taken (entry : Text × Cfg) : Prop := ∃ units, writeUnits entry.1 entry.2 = .ok units

/-- The entries up to the first that is refused, which the error is about. -/
structure StopsBehind (table taken : Table) (error : Option Error) : Prop where
  all : ∀ entry ∈ taken, Taken entry
  rest : table = taken ∧ error = none ∨ ∃ name cfg later e, table = taken ++ (name, cfg) :: later ∧
    writeUnits name cfg = .error e ∧ error = some e

theorem StopsBehind.isPrefix {table taken : Table} {error : Option Error}
    (stops : StopsBehind table taken error) : taken <+: table := by
  rcases stops.rest with ⟨rfl, _⟩ | ⟨name, cfg, later, _, rfl, _⟩
  · exact List.prefix_rfl
  · exact List.prefix_append taken _

def twoEntries : Table :=
  [("a b".toList, ⟨some (.string "/swap/a".toList), some (.integer 4096)⟩),
    ("a_b".toList, ⟨some (.string "/swap/b".toList), some (.integer 8192)⟩)]

def machineWith (table : Table) : Machine where
  cmdline := []
  zswapParameters := true
  enabled := .ok "Y\n".toList
  config := .ok (some table)
  memory := .ok 4096

end GnomeBuildMeta.Zswap
