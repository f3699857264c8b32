import Mathlib

/-!
# The Gregorian calendar

Dates of the proleptic Gregorian calendar, the day after a date, and the number of days from
1970-01-01 to a date. The numbering rises by one with every day, so no two dates share a number.
-/

namespace SrcControl.Calendar

def IsLeap (y : Int) : Prop := y % 4 = 0 ∧ (y % 100 ≠ 0 ∨ y % 400 = 0)

instance (y : Int) : Decidable (IsLeap y) := inferInstanceAs (Decidable (_ ∧ _))

def monthLength (y : Int) (m : Nat) : Nat :=
  if m = 2 then if IsLeap y then 29 else 28
  else if m = 4 ∨ m = 6 ∨ m = 9 ∨ m = 11 then 30
  else 31

def IsDate (y : Int) (m d : Nat) : Prop := (1 ≤ m ∧ m ≤ 12) ∧ 1 ≤ d ∧ d ≤ monthLength y m

instance (y : Int) (m d : Nat) : Decidable (IsDate y m d) := inferInstanceAs (Decidable (_ ∧ _))

/-- A date of the calendar. -/
@[ext] structure Date where
  year : Int
  month : Nat
  day : Nat
  isDate : IsDate year month day
deriving DecidableEq

theorem month_cases {m : Nat} (h : 1 ≤ m ∧ m ≤ 12) :
    m = 1 ∨ m = 2 ∨ m = 3 ∨ m = 4 ∨ m = 5 ∨ m = 6 ∨ m = 7 ∨ m = 8 ∨ m = 9 ∨ m = 10 ∨ m = 11 ∨
      m = 12 := by
  omega

theorem monthLength_pos (y : Int) (m : Nat) : 1 ≤ monthLength y m := by
  unfold monthLength
  split_ifs <;> omega

theorem monthLength_le (y : Int) (m : Nat) : monthLength y m ≤ 31 := by
  unfold monthLength
  split_ifs <;> omega

namespace Date

/-- The first day of the computer's time. -/
def epoch : Date := ⟨1970, 1, 1, by decide⟩

/-- The day after. -/
def next (a : Date) : Date :=
  if hd : a.day < monthLength a.year a.month then
    ⟨a.year, a.month, a.day + 1, a.isDate.1, by omega, hd⟩
  else if hm : a.month < 12 then
    ⟨a.year, a.month + 1, 1, ⟨by omega, hm⟩, le_rfl, monthLength_pos _ _⟩
  else ⟨a.year + 1, 1, 1, by omega, le_rfl, monthLength_pos _ _⟩

/-- `a` is an earlier day than `b`. -/
def Before (a b : Date) : Prop :=
  a.year < b.year ∨ a.year = b.year ∧ (a.month < b.month ∨ a.month = b.month ∧ a.day < b.day)

theorem before_next (a : Date) : a.Before a.next := by
  unfold Before next
  split_ifs <;> simp [Int.lt_add_one_iff]

theorem before_trichotomy (a b : Date) : a.Before b ∨ a = b ∨ b.Before a := by
  simp only [Before, Date.ext_iff]
  omega

end Date

/-! ## Numbering the days -/

/-- The days from 1970-01-01 to the first of January of the year. -/
def daysBeforeYear (y : Int) : Int :=
  365 * (y - 1970) + ((y - 1) / 4 - (y - 1) / 100 + (y - 1) / 400 - 477)

/-- The days of the year before the first of the month. -/
def daysBeforeMonth (y : Int) : Nat → Nat
  | 0 => 0
  | 1 => 0
  | m + 2 => daysBeforeMonth y (m + 1) + monthLength y (m + 1)

theorem daysBeforeYear_succ (y : Int) :
    daysBeforeYear (y + 1) = daysBeforeYear y + (if IsLeap y then 366 else 365) := by
  unfold daysBeforeYear IsLeap
  split_ifs with h <;> omega

theorem daysBeforeYear_strictMono : StrictMono daysBeforeYear := by
  refine strictMono_int_of_lt_succ fun y => ?_
  rw [daysBeforeYear_succ]
  split_ifs <;> omega

theorem daysBeforeMonth_succ (y : Int) {m : Nat} (h : 1 ≤ m) :
    daysBeforeMonth y (m + 1) = daysBeforeMonth y m + monthLength y m := by
  obtain ⟨m, rfl⟩ := Nat.exists_eq_add_of_le' h
  rfl

theorem daysBeforeMonth_strictMono (y : Int) {m n : Nat} (hm : 1 ≤ m) (h : m < n) :
    daysBeforeMonth y m + monthLength y m ≤ daysBeforeMonth y n := by
  induction n, h using Nat.le_induction with
  | base => rw [daysBeforeMonth_succ y hm]
  | succ n hn ih =>
    rw [daysBeforeMonth_succ y (by omega)]
    omega

theorem daysBeforeMonth_year (y : Int) :
    daysBeforeMonth y 12 + monthLength y 12 = if IsLeap y then 366 else 365 := by
  by_cases h : IsLeap y <;> simp [daysBeforeMonth, monthLength, h]

namespace Date

/-- The number of days from 1970-01-01 to the date. -/
def dayNumber (a : Date) : Int :=
  daysBeforeYear a.year + (daysBeforeMonth a.year a.month + a.day : Nat) - 1

theorem dayNumber_epoch : epoch.dayNumber = 0 := by decide

theorem dayOfYear_le (a : Date) :
    daysBeforeMonth a.year a.month + a.day ≤ if IsLeap a.year then 366 else 365 := by
  obtain ⟨⟨h1, h12⟩, -, hd⟩ := a.isDate
  rw [← daysBeforeMonth_year]
  rcases Nat.lt_or_eq_of_le h12 with hlt | heq
  · have := daysBeforeMonth_strictMono a.year h1 hlt
    omega
  · rw [heq] at hd ⊢
    omega

theorem dayNumber_lt {a b : Date} (h : a.Before b) : a.dayNumber < b.dayNumber := by
  have hb := b.isDate.2.1
  rcases h with hy | ⟨hy, hm | ⟨hm, hd⟩⟩
  · have hle := daysBeforeYear_strictMono.monotone (Int.add_one_le_of_lt hy)
    have hday := a.dayOfYear_le
    rw [daysBeforeYear_succ] at hle
    unfold dayNumber
    split_ifs at hle hday <;> omega
  · have := daysBeforeMonth_strictMono a.year a.isDate.1.1 hm
    have := a.isDate.2.2
    unfold dayNumber
    rw [← hy]
    omega
  · unfold dayNumber
    rw [← hy, ← hm]
    omega

theorem dayNumber_injective : Function.Injective dayNumber := by
  intro a b h
  rcases a.before_trichotomy b with hlt | heq | hlt
  · exact absurd h (dayNumber_lt hlt).ne
  · exact heq
  · exact absurd h (dayNumber_lt hlt).ne'

theorem dayNumber_lt_iff {a b : Date} : a.dayNumber < b.dayNumber ↔ a.Before b := by
  refine ⟨fun h => ?_, dayNumber_lt⟩
  rcases a.before_trichotomy b with hlt | rfl | hlt
  · exact hlt
  · exact absurd h (lt_irrefl _)
  · exact absurd h (dayNumber_lt hlt).asymm

theorem dayNumber_next (a : Date) : a.next.dayNumber = a.dayNumber + 1 := by
  obtain ⟨⟨h1, h12⟩, -, hd⟩ := a.isDate
  unfold next dayNumber
  split_ifs with hlt hm
  · dsimp only
    omega
  · have := daysBeforeMonth_succ a.year h1
    dsimp only
    omega
  · have hmonth : a.month = 12 := by omega
    have hyear := daysBeforeMonth_year a.year
    have hsucc := daysBeforeYear_succ a.year
    have hday : a.day = monthLength a.year 12 := by
      rw [hmonth] at hd hlt
      omega
    have hfirst : daysBeforeMonth (a.year + 1) 1 = 0 := rfl
    simp only [hmonth, hday, hsucc, hfirst, hyear]
    split_ifs <;> omega

end Date

end SrcControl.Calendar
