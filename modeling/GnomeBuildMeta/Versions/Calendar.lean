import Mathlib.Order.Monotone.Basic

/-!
# Dates

The days since 1970 as Gregorian dates, written one after the other as the
digits of year, month and day.  Later days have greater numbers.
-/

namespace GnomeBuildMeta.Versions

def isLeap (year : Nat) : Bool := year % 4 = 0 && (year % 100 ≠ 0 || year % 400 = 0)

def daysIn (year month : Nat) : Nat :=
  if month = 2 then if isLeap year then 29 else 28
  else if month = 4 ∨ month = 6 ∨ month = 9 ∨ month = 11 then 30 else 31

theorem one_le_daysIn (year month : Nat) : 1 ≤ daysIn year month := by
  unfold daysIn
  split <;> split <;> omega

theorem daysIn_le (year month : Nat) : daysIn year month ≤ 31 := by
  unfold daysIn
  split <;> split <;> omega

structure Date where
  year : Nat
  month : Nat
  day : Nat
  month_pos : 1 ≤ month
  month_le : month ≤ 12
  day_pos : 1 ≤ day
  day_le : day ≤ daysIn year month

namespace Date

def epoch : Date := ⟨1970, 1, 1, by decide, by decide, by decide, by decide⟩

def next (d : Date) : Date :=
  if more : d.day < daysIn d.year d.month then
    ⟨d.year, d.month, d.day + 1, d.month_pos, d.month_le, by omega, more⟩
  else if later : d.month < 12 then
    ⟨d.year, d.month + 1, 1, by omega, later, Nat.le_refl 1, one_le_daysIn _ _⟩
  else
    ⟨d.year + 1, 1, 1, Nat.le_refl 1, by decide, Nat.le_refl 1, one_le_daysIn _ _⟩

/-- The number that the digits of `%Y%m%d` give. -/
def number (d : Date) : Nat := 10000 * d.year + 100 * d.month + d.day

theorem number_lt_next (d : Date) : d.number < d.next.number := by
  have month := d.month_le
  have day := d.day_le.trans (daysIn_le d.year d.month)
  rw [next]
  split
  · simp only [number]
    omega
  · split
    · simp only [number]
      omega
    · simp only [number]
      omega

end Date

/-- The date of a day since the first of January 1970. -/
def dateOf (days : Nat) : Date := Date.next^[days] Date.epoch

theorem strictMono_number_dateOf : StrictMono fun days => (dateOf days).number := by
  refine strictMono_nat_of_lt_succ fun days => ?_
  rw [dateOf, dateOf, Function.iterate_succ_apply']
  exact Date.number_lt_next _

/-- `%Y%m%d` in UTC of a time in seconds. -/
def dayOf (time : Nat) : Nat := (dateOf (time / 86400)).number

theorem dayOf_mono : Monotone dayOf := fun _ _ earlier =>
  strictMono_number_dateOf.monotone (Nat.div_le_div_right earlier)

example : (dateOf 59).number = 19700301 := by decide +kernel

end GnomeBuildMeta.Versions
