import GnomeBuildMeta.Words.Utf8

/-!
# Base64

Three bytes are four digits of six bits (RFC 4648, section 4).  One or two bytes
at the end are padded to four digits, and the bits that the padding leaves over
are zero.
-/

namespace GnomeBuildMeta.Words.Base64

def alphabet : List UInt8 :=
  utf8 "ABCDEFGHIJKLMNOPQRSTUVWXYZabcdefghijklmnopqrstuvwxyz0123456789+/".toList

/-- `=` -/
def pad : UInt8 := 61

def digit (value : Nat) : UInt8 := alphabet.getD value 0

def value (c : UInt8) : Option Nat := alphabet.idxOf? c

def encode : List UInt8 → List UInt8
  | [] => []
  | [a] => [digit (a.toNat / 4), digit (a.toNat % 4 * 16), pad, pad]
  | [a, b] => [digit (a.toNat / 4), digit (a.toNat % 4 * 16 + b.toNat / 16), digit (b.toNat % 16 * 4), pad]
  | a :: b :: c :: rest =>
      digit (a.toNat / 4) :: digit (a.toNat % 4 * 16 + b.toNat / 16) ::
        digit (b.toNat % 16 * 4 + c.toNat / 64) :: digit (c.toNat % 64) :: encode rest

/-- The bytes of four digits. -/
def group (w x y z : Nat) : List UInt8 :=
  [.ofNat (w * 4 + x / 16), .ofNat (x % 16 * 16 + y / 4), .ofNat (y % 4 * 64 + z)]

/-- The byte of two digits and two pads. -/
def decodeOne (a b : UInt8) : Option (List UInt8) := do
  let w ← value a
  let x ← value b
  if x % 16 = 0 then some ((group w x 0 0).take 1) else none

/-- The bytes of three digits and a pad. -/
def decodeTwo (a b c : UInt8) : Option (List UInt8) := do
  let w ← value a
  let x ← value b
  let y ← value c
  if y % 4 = 0 then some ((group w x y 0).take 2) else none

def decode : List UInt8 → Option (List UInt8)
  | [] => some []
  | a :: b :: c :: d :: rest =>
      if d = pad ∧ rest = [] then
        if c = pad then decodeOne a b else decodeTwo a b c
      else do
        let w ← value a
        let x ← value b
        let y ← value c
        let z ← value d
        let later ← decode rest
        some (group w x y z ++ later)
  | _ => none

/-! ## Digits -/

theorem value_digit {n : Nat} (small : n < 64) : value (digit n) = some n := by
  have all : ∀ n : Fin 64, value (digit n) = some n.val := by decide +kernel
  exact all ⟨n, small⟩

theorem digit_ne_pad {n : Nat} (small : n < 64) : digit n ≠ pad := by
  have all : ∀ n : Fin 64, digit n ≠ pad := by decide +kernel
  exact all ⟨n, small⟩

theorem mem_alphabet_of_value {c : UInt8} {n : Nat} (known : value c = some n) : c ∈ alphabet := by
  rw [← List.isSome_idxOf?]
  exact Option.isSome_of_eq_some known

/-! ## There and back -/

theorem group_bytes (a b c : UInt8) : group (a.toNat / 4) (a.toNat % 4 * 16 + b.toNat / 16)
    (b.toNat % 16 * 4 + c.toNat / 64) (c.toNat % 64) = [a, b, c] := by
  have first : a.toNat / 4 * 4 + (a.toNat % 4 * 16 + b.toNat / 16) / 16 = a.toNat := by
    have bound := b.toNat_lt
    omega
  have second : (a.toNat % 4 * 16 + b.toNat / 16) % 16 * 16 + (b.toNat % 16 * 4 + c.toNat / 64) / 4 =
      b.toNat := by
    have boundB := b.toNat_lt
    have boundC := c.toNat_lt
    omega
  have third : (b.toNat % 16 * 4 + c.toNat / 64) % 4 * 64 + c.toNat % 64 = c.toNat := by
    have bound := c.toNat_lt
    omega
  rw [group, first, second, third, UInt8.ofNat_toNat, UInt8.ofNat_toNat, UInt8.ofNat_toNat]

theorem decode_group {w x y z : Nat} (known : w < 64 ∧ x < 64 ∧ y < 64 ∧ z < 64) (rest : List UInt8) :
    decode (digit w :: digit x :: digit y :: digit z :: rest) =
      (decode rest).map fun later => group w x y z ++ later := by
  obtain ⟨w64, x64, y64, z64⟩ := known
  have notPadded : ¬ (digit z = pad ∧ rest = []) := fun padded => digit_ne_pad z64 padded.1
  rw [decode, if_neg notPadded]
  simp only [value_digit w64, value_digit x64, value_digit y64, value_digit z64]
  cases decode rest <;> rfl

theorem decode_encode (bytes : List UInt8) : decode (encode bytes) = some bytes := by
  induction bytes using encode.induct with
  | case1 => rfl
  | case2 a =>
      have bound := a.toNat_lt
      have whole := group_bytes a 0 0
      simp only [UInt8.toNat_zero, Nat.zero_div, Nat.zero_mod, Nat.zero_mul, Nat.add_zero] at whole
      rw [encode, decode, if_pos ⟨rfl, rfl⟩, if_pos rfl, decodeOne, value_digit (by omega), value_digit (by omega)]
      simp [whole]
  | case3 a b =>
      have boundA := a.toNat_lt
      have boundB := b.toNat_lt
      have whole := group_bytes a b 0
      simp only [UInt8.toNat_zero, Nat.zero_div, Nat.zero_mod, Nat.add_zero] at whole
      rw [encode, decode, if_pos ⟨rfl, rfl⟩, if_neg (digit_ne_pad (by omega)), decodeTwo, value_digit (by omega),
        value_digit (by omega), value_digit (by omega)]
      simp [whole]
  | case4 a b c rest ih =>
      have boundA := a.toNat_lt
      have boundB := b.toNat_lt
      have boundC := c.toNat_lt
      rw [encode, decode_group ⟨by omega, by omega, by omega, by omega⟩, ih, group_bytes]
      rfl

/-! ## The characters of an encoded text -/

theorem mem_of_decodeOne {a b : UInt8} {bytes : List UInt8} (decoded : decodeOne a b = some bytes) :
    a ∈ alphabet ∧ b ∈ alphabet := by
  obtain ⟨w, first, later⟩ := Option.bind_eq_some_iff.mp decoded
  obtain ⟨x, second, _⟩ := Option.bind_eq_some_iff.mp later
  exact ⟨mem_alphabet_of_value first, mem_alphabet_of_value second⟩

theorem mem_of_decodeTwo {a b c : UInt8} {bytes : List UInt8} (decoded : decodeTwo a b c = some bytes) :
    a ∈ alphabet ∧ b ∈ alphabet ∧ c ∈ alphabet := by
  obtain ⟨w, first, later⟩ := Option.bind_eq_some_iff.mp decoded
  obtain ⟨x, second, later⟩ := Option.bind_eq_some_iff.mp later
  obtain ⟨y, third, _⟩ := Option.bind_eq_some_iff.mp later
  exact ⟨mem_alphabet_of_value first, mem_alphabet_of_value second, mem_alphabet_of_value third⟩

/-- What can be decoded is made of digits and pads. -/
theorem all_of_decode {text bytes : List UInt8} (decoded : decode text = some bytes) :
    ∀ c ∈ text, c ∈ alphabet ∨ c = pad := by
  induction text using decode.induct generalizing bytes with
  | case1 => exact List.forall_mem_nil _
  | case2 a b d rest padded =>
      rw [decode, if_pos padded, if_pos rfl] at decoded
      obtain ⟨first, second⟩ := mem_of_decodeOne decoded
      simp [padded.1, padded.2, first, second]
  | case3 a b c d rest padded notTwo =>
      rw [decode, if_pos padded, if_neg notTwo] at decoded
      obtain ⟨first, second, third⟩ := mem_of_decodeTwo decoded
      simp [padded.1, padded.2, first, second, third]
  | case4 a b c d rest notPadded ih =>
      rw [decode, if_neg notPadded] at decoded
      obtain ⟨w, first, decoded⟩ := Option.bind_eq_some_iff.mp decoded
      obtain ⟨x, second, decoded⟩ := Option.bind_eq_some_iff.mp decoded
      obtain ⟨y, third, decoded⟩ := Option.bind_eq_some_iff.mp decoded
      obtain ⟨z, fourth, decoded⟩ := Option.bind_eq_some_iff.mp decoded
      obtain ⟨later, behind, _⟩ := Option.bind_eq_some_iff.mp decoded
      simp only [List.forall_mem_cons]
      exact ⟨Or.inl (mem_alphabet_of_value first), Or.inl (mem_alphabet_of_value second),
        Or.inl (mem_alphabet_of_value third), Or.inl (mem_alphabet_of_value fourth), ih behind⟩
  | case5 text _ _ => simp_all [decode]

/-- A character that is neither a digit nor the pad is in no text that can be decoded. -/
theorem not_mem_of_decode {c : UInt8} (other : c ∉ alphabet ∧ c ≠ pad) {text bytes : List UInt8}
    (decoded : decode text = some bytes) : c ∉ text := by
  intro member
  rcases all_of_decode decoded c member with listed | padded
  · exact other.1 listed
  · exact other.2 padded

theorem not_mem_encode {c : UInt8} (other : c ∉ alphabet ∧ c ≠ pad) (bytes : List UInt8) : c ∉ encode bytes :=
  not_mem_of_decode other (decode_encode bytes)

end GnomeBuildMeta.Words.Base64
