import Mathlib.Algebra.Group.Nat.Defs
import Mathlib.Data.List.Basic

/-!
# Decimal texts

Texts of decimal digits that are as long as each other are in the order of their
numbers.  Zeros in front make them as long, up to a width.
-/

namespace GnomeBuildMeta.Words

/-! ## The order of texts -/

theorem append_lt_append {l m : List Char} (same : l.length = m.length) (less : l < m)
    (rest rest' : List Char) : l ++ rest < m ++ rest' := by
  induction l generalizing m with
  | nil =>
      rw [List.length_nil, eq_comm, List.length_eq_zero_iff] at same
      rw [same] at less
      exact absurd less (List.lt_irrefl _)
  | cons c l ih =>
      cases m with
      | nil => cases same
      | cons d m =>
          rw [List.cons_append, List.cons_append, List.cons_lt_cons_iff]
          rcases List.cons_lt_cons_iff.mp less with first | ⟨rfl, later⟩
          · exact Or.inl first
          · exact Or.inr ⟨rfl, ih (Nat.succ.inj same) later⟩

/-! ## Digits -/

def Decimal (text : List Char) : Prop := ∀ c ∈ text, c.isDigit = true

theorem digit_bounds {c : Char} (digit : c.isDigit = true) : 48 ≤ c.toNat ∧ c.toNat ≤ 57 := by
  simpa [Char.isDigit, UInt32.le_iff_toNat_le] using digit

theorem Decimal.tail {c : Char} {text : List Char} (decimal : Decimal (c :: text)) : Decimal text :=
  fun x member => decimal x (List.mem_cons_of_mem c member)

theorem ofDigitChars_cons_zero (c : Char) (text : List Char) : Nat.ofDigitChars 10 (c :: text) 0 =
    10 ^ text.length * (c.toNat - 48) + Nat.ofDigitChars 10 text 0 := by
  rw [Nat.ofDigitChars_cons, Nat.ofDigitChars_eq_ofDigitChars_zero, Nat.mul_zero, Nat.zero_add]
  rfl

theorem ofDigitChars_lt {text : List Char} (decimal : Decimal text) :
    Nat.ofDigitChars 10 text 0 < 10 ^ text.length := by
  induction text with
  | nil => decide
  | cons c text ih =>
      have later := ih decimal.tail
      have bounds := digit_bounds (decimal c List.mem_cons_self)
      have first : 10 ^ text.length * (c.toNat - 48) ≤ 10 ^ text.length * 9 :=
        Nat.mul_le_mul_left _ (by omega)
      rw [ofDigitChars_cons_zero, List.length_cons, Nat.pow_succ]
      omega

/-- The first digit decides unless it is the same. -/
theorem lt_of_ofDigitChars_lt {l m : List Char} (decimal : Decimal l) (decimal' : Decimal m)
    (same : l.length = m.length) (less : Nat.ofDigitChars 10 l 0 < Nat.ofDigitChars 10 m 0) :
    l < m := by
  induction l generalizing m with
  | nil =>
      rw [List.length_nil, eq_comm, List.length_eq_zero_iff] at same
      rw [same] at less
      exact absurd less (Nat.lt_irrefl _)
  | cons c l ih =>
      cases m with
      | nil => cases same
      | cons d m =>
          have length : l.length = m.length := Nat.succ.inj same
          have inside := digit_bounds (decimal c List.mem_cons_self)
          have inside' := digit_bounds (decimal' d List.mem_cons_self)
          have bound := ofDigitChars_lt decimal'.tail
          rw [ofDigitChars_cons_zero, ofDigitChars_cons_zero, length] at less
          rw [List.cons_lt_cons_iff]
          rcases Nat.lt_trichotomy c.toNat d.toNat with first | equal | last
          · exact Or.inl first
          · rw [equal] at less
            exact Or.inr ⟨Char.toNat_inj.mp equal,
              ih decimal.tail decimal'.tail length (by omega)⟩
          · have step : 10 ^ m.length * (d.toNat - 48 + 1) ≤ 10 ^ m.length * (c.toNat - 48) :=
              Nat.mul_le_mul_left _ (by omega)
            rw [Nat.mul_add, Nat.mul_one] at step
            omega

/-! ## Padding -/

/-- A number with zeros in front, up to a width. -/
def padded (width n : Nat) : List Char := (Nat.toDigits 10 n).leftpad width '0'

theorem decimal_padded (width n : Nat) : Decimal (padded width n) := by
  intro c member
  rcases List.mem_append.mp member with zero | digit
  · rw [List.eq_of_mem_replicate zero]
    rfl
  · exact Nat.isDigit_of_mem_toDigits (by decide) (by decide) digit

theorem ofDigitChars_padded (width n : Nat) : Nat.ofDigitChars 10 (padded width n) 0 = n := by
  rw [padded, List.leftpad, Nat.ofDigitChars_append, Nat.ofDigitChars_replicate_zero, Nat.mul_zero,
    Nat.ofDigitChars_ten_toDigits]

theorem padded_injective {width n m : Nat} (same : padded width n = padded width m) : n = m := by
  rw [← ofDigitChars_padded width n, same, ofDigitChars_padded]

theorem length_padded {width n : Nat} (positive : 0 < width) (fits : n < 10 ^ width) :
    (padded width n).length = width := by
  have short := (Nat.length_toDigits_le_iff (by decide : 1 < 10) positive).mpr fits
  rw [padded, List.leftpad, List.length_append, List.length_replicate]
  omega

/-- Within the width the texts are in the order of the numbers. -/
theorem padded_lt {width n m : Nat} (positive : 0 < width) (less : n < m) (fits : m < 10 ^ width) :
    padded width n < padded width m := by
  refine lt_of_ofDigitChars_lt (decimal_padded _ _) (decimal_padded _ _) ?_ ?_
  · rw [length_padded positive (Nat.lt_trans less fits), length_padded positive fits]
  · rw [ofDigitChars_padded, ofDigitChars_padded]
    exact less

end GnomeBuildMeta.Words
