import GnomeBuildMeta.Installer.Daemon
import Mathlib.Data.List.Basic

/-!
# The recovery passphrase

The passphrase spells the secret in groups of four bytes, two characters for a
byte, and reads back as the secret.
-/

namespace GnomeBuildMeta.Installer

/-! ## Reading a passphrase -/

/-- The nibble that a character of the alphabet stands for. -/
def modhexValue (c : Char) : Option Nat := modhex.toList.idxOf? c

/-- High and low nibbles in turn. -/
def joinNibbles : List Nat → Option (List UInt8)
  | [] => some []
  | [_] => none
  | high :: low :: rest => (joinNibbles rest).map (UInt8.ofNat (16 * high + low) :: ·)

/-- The dashes are dropped, the other characters are nibbles. -/
def decodePassphrase (passphrase : String) : Option (List UInt8) :=
  ((passphrase.toList.filter (· ≠ '-')).mapM modhexValue).bind joinNibbles

/-! ## The digits of a byte -/

def modhexPair (byte : UInt8) : List Char := [modhexDigit (byte >>> 4), modhexDigit byte]

theorem modhexDigit_mem (byte : UInt8) : modhexDigit byte ∈ modhex.toList := by
  have all : ∀ i : Fin 16, modhex.get i ∈ modhex.toList := by decide
  exact all _

theorem modhexValue_digit (byte : UInt8) : modhexValue (modhexDigit byte) = some (byte.toNat % 16) := by
  have all : ∀ i : Fin 16, modhexValue (modhex.get i) = some i.val := by decide
  rw [modhexDigit, all]
  simp only [UInt8.toNat_and]
  exact congrArg some (Nat.and_two_pow_sub_one_eq_mod byte.toNat 4)

theorem joinNibbles_pair (byte : UInt8) (rest : List Nat) :
    joinNibbles ((byte >>> 4).toNat % 16 :: byte.toNat % 16 :: rest) =
      (joinNibbles rest).map (byte :: ·) := by
  have high : (byte >>> 4).toNat = byte.toNat / 16 := by
    rw [UInt8.toNat_shiftRight]
    exact Nat.shiftRight_eq_div_pow byte.toNat 4
  have bound := byte.toNat_lt
  have whole : 16 * ((byte >>> 4).toNat % 16) + byte.toNat % 16 = byte.toNat := by omega
  rw [joinNibbles, whole, UInt8.ofNat_toNat]

/-- The digits of some bytes read back as these bytes. -/
theorem joinNibbles_digits (bytes : List UInt8) :
    ((bytes.flatMap modhexPair).mapM modhexValue).bind joinNibbles = some bytes := by
  induction bytes with
  | nil => rfl
  | cons byte rest ih =>
      obtain ⟨nibbles, read, joined⟩ := Option.bind_eq_some_iff.mp ih
      have pair : (modhexPair byte ++ rest.flatMap modhexPair).mapM modhexValue =
          some ((byte >>> 4).toNat % 16 :: byte.toNat % 16 :: nibbles) := by
        simp [modhexPair, modhexValue_digit, read]
      rw [List.flatMap_cons, pair, Option.bind_some, joinNibbles_pair, joined]
      rfl

/-! ## The groups -/

/-- The characters of four bytes at a time. -/
def modhexGroups : List UInt8 → List (List Char)
  | a :: b :: c :: d :: rest => [a, b, c, d].flatMap modhexPair :: modhexGroups rest
  | _ => []

theorem exists_four {bytes : List UInt8} {count : Nat} (length : bytes.length = 4 * (count + 1)) :
    ∃ a b c d rest, bytes = a :: b :: c :: d :: rest ∧ rest.length = 4 * count := by
  obtain ⟨a, bytes, rfl⟩ := List.exists_cons_of_length_eq_add_one (n := 4 * count + 3) length
  obtain ⟨b, bytes, rfl⟩ := List.exists_cons_of_length_eq_add_one (Nat.succ.inj length)
  obtain ⟨c, bytes, rfl⟩ :=
    List.exists_cons_of_length_eq_add_one (Nat.succ.inj (Nat.succ.inj length))
  obtain ⟨d, rest, rfl⟩ :=
    List.exists_cons_of_length_eq_add_one (Nat.succ.inj (Nat.succ.inj (Nat.succ.inj length)))
  exact ⟨a, b, c, d, rest, rfl, by simpa [Nat.mul_succ] using length⟩

/-- The loop, from a byte that starts a group. -/
theorem flatMap_modhexByte {bytes : List UInt8} {count : Nat} (length : bytes.length = 4 * count)
    (start : Nat) :
    ((bytes.zipIdx (4 * start)).flatMap fun (byte, i) => modhexByte i byte) =
      (modhexGroups bytes).flatMap (· ++ ['-']) := by
  induction count generalizing bytes start with
  | zero =>
      rw [List.length_eq_zero_iff.mp length]
      rfl
  | succ count ih =>
      obtain ⟨a, b, c, d, rest, rfl, shorter⟩ := exists_four length
      have later := ih shorter (start + 1)
      rw [Nat.mul_add, Nat.mul_one] at later
      have inner : ∀ i byte, i % 4 ≠ 3 → modhexByte i byte = modhexPair byte := by
        intro i byte notLast
        rw [modhexByte, if_neg notLast]
        exact List.append_nil _
      have last : ∀ i byte, i % 4 = 3 → modhexByte i byte = modhexPair byte ++ ['-'] := by
        intro i byte isLast
        rw [modhexByte, if_pos isLast]
        rfl
      simp only [List.zipIdx_cons, List.flatMap_cons, modhexGroups]
      rw [inner _ a (by omega), inner _ b (by omega), inner _ c (by omega), last _ d (by omega),
        show 4 * start + 1 + 1 + 1 + 1 = 4 * start + 4 from rfl, ← later]
      simp

theorem modhexGroups_flatten {bytes : List UInt8} {count : Nat} (length : bytes.length = 4 * count) :
    (modhexGroups bytes).flatten = bytes.flatMap modhexPair ∧
      (modhexGroups bytes).length = count ∧
        ∀ group ∈ modhexGroups bytes, group.length = 8 ∧ ∀ c ∈ group, c ∈ modhex.toList := by
  induction count generalizing bytes with
  | zero =>
      rw [List.length_eq_zero_iff.mp length]
      exact ⟨rfl, rfl, fun _ inside => absurd inside List.not_mem_nil⟩
  | succ count ih =>
      obtain ⟨a, b, c, d, rest, rfl, shorter⟩ := exists_four length
      obtain ⟨whole, number, each⟩ := ih shorter
      refine ⟨?_, ?_, fun group inside => ?_⟩
      · rw [modhexGroups, List.flatten_cons, whole]
        rfl
      · rw [modhexGroups, List.length_cons, number]
      · rcases List.mem_cons.mp inside with rfl | later
        · refine ⟨rfl, fun c listed => ?_⟩
          obtain ⟨byte, _, digit⟩ := List.mem_flatMap.mp listed
          rcases List.mem_pair.mp digit with rfl | rfl
          · exact modhexDigit_mem _
          · exact modhexDigit_mem _
        · exact each group later

/-- A separator after each group, and the groups joined. -/
theorem flatMap_separator {groups : List (List Char)} (some' : groups ≠ []) :
    groups.flatMap (· ++ ['-']) = ['-'].intercalate groups ++ ['-'] := by
  induction groups with
  | nil => exact absurd rfl some'
  | cons group rest ih =>
      by_cases last : rest = []
      · rw [last]
        simp
      · obtain ⟨next, more, rfl⟩ := List.exists_cons_of_ne_nil last
        rw [List.flatMap_cons, ih last, List.intercalate_cons_cons]
        simp

theorem length_recoveryRaw (recoveryRaw : Vector UInt8 32) : recoveryRaw.toList.length = 4 * 8 :=
  recoveryRaw.length_toList

theorem dash_not_mem_modhex : '-' ∉ modhex.toList := by decide

/-- The groups are joined by dashes, and the last one is trimmed. -/
theorem recoveryPassphrase_toList (recoveryRaw : Vector UInt8 32) :
    (recoveryPassphrase recoveryRaw).toList =
      ['-'].intercalate (modhexGroups recoveryRaw.toList) := by
  have loop := flatMap_modhexByte (length_recoveryRaw recoveryRaw) 0
  obtain ⟨_, number, _⟩ := modhexGroups_flatten (length_recoveryRaw recoveryRaw)
  have some' : modhexGroups recoveryRaw.toList ≠ [] := by
    intro none'
    rw [none'] at number
    cases number
  rw [flatMap_separator some'] at loop
  rw [recoveryPassphrase, String.toList_ofList, show (recoveryRaw.toList.zipIdx.flatMap
    fun (byte, i) => modhexByte i byte) = _ from loop, List.getLast?_concat, if_pos rfl,
    List.dropLast_concat]

/-- Dropping the dashes leaves the groups. -/
theorem filter_intercalate {groups : List (List Char)}
    (plain : ∀ group ∈ groups, ∀ c ∈ group, c ≠ '-') :
    (['-'].intercalate groups).filter (· ≠ '-') = groups.flatten := by
  induction groups with
  | nil => rfl
  | cons group rest ih =>
      have here : group.filter (· ≠ '-') = group :=
        List.filter_eq_self.mpr fun c inside => decide_eq_true (plain group List.mem_cons_self c inside)
      have later := ih fun other inside => plain other (List.mem_cons_of_mem _ inside)
      cases rest with
      | nil =>
          rw [List.intercalate_singleton, here]
          simp
      | cons next more =>
          rw [List.intercalate_cons_cons, List.filter_append, List.filter_append, here, later]
          simp

/--
The passphrase has eight groups of eight characters of the alphabet between
single dashes, and reads back as the secret.
-/
theorem recoveryPassphrase_spec :
    (∀ recoveryRaw : Vector UInt8 32,
      (∃ groups : List (List Char), groups.length = 8 ∧
        (∀ group ∈ groups, group.length = 8 ∧ ∀ c ∈ group, c ∈ modhex.toList) ∧
          (recoveryPassphrase recoveryRaw).toList = ['-'].intercalate groups) ∧
      decodePassphrase (recoveryPassphrase recoveryRaw) = some recoveryRaw.toList) ∧
    Function.Injective recoveryPassphrase := by
  have decodes : ∀ recoveryRaw : Vector UInt8 32,
      decodePassphrase (recoveryPassphrase recoveryRaw) = some recoveryRaw.toList := by
    intro recoveryRaw
    obtain ⟨whole, _, each⟩ := modhexGroups_flatten (length_recoveryRaw recoveryRaw)
    rw [decodePassphrase, recoveryPassphrase_toList, filter_intercalate, whole, joinNibbles_digits]
    intro group inside c listed same
    exact dash_not_mem_modhex (same ▸ (each group inside).2 c listed)
  refine ⟨fun recoveryRaw => ⟨?_, decodes recoveryRaw⟩, fun first second same => ?_⟩
  · obtain ⟨_, number, each⟩ := modhexGroups_flatten (length_recoveryRaw recoveryRaw)
    exact ⟨_, number, each, recoveryPassphrase_toList recoveryRaw⟩
  · have read := decodes first
    rw [same, decodes second] at read
    exact (Vector.toList_inj.mp (Option.some.inj read)).symm

end GnomeBuildMeta.Installer
