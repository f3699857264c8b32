import SrcControl.Lib.Calendar
import SrcControl.Lib.Checked

/-!
# Day numbers and civil dates

The conversions of the token expiry between days since 1970-01-01 and year, month and day, with
every operation on a machine word checked for overflow. They count the days of the calendar in
years that begin in March, so that the leap day is the last of its year.
-/

namespace SrcControl.CivilDates

open Checked (Stop)
open Calendar (Date IsDate IsLeap)

variable {ε : Type}

/-! ## Machine words -/

/-- The result of an operation on 64-bit signed words. -/
def i64 (x : Int) : Except (Stop ε) Int :=
  if -2 ^ 63 ≤ x ∧ x < 2 ^ 63 then .ok x else .error .overflow

/-- The result of an operation on 32-bit words. -/
def u32 (x : Nat) : Except (Stop ε) Nat := if x < 2 ^ 32 then .ok x else .error .overflow

/-- `x as u32`. -/
def asU32 (x : Int) : Nat := (x % 2 ^ 32).toNat

theorem i64_ok {x : Int} (h : -2 ^ 63 ≤ x ∧ x < 2 ^ 63) : (i64 x : Except (Stop ε) Int) = .ok x :=
  if_pos h

theorem i64_bind {β : Type} {x : Int} {f : Int → Except (Stop ε) β}
    (h : -2 ^ 63 ≤ x ∧ x < 2 ^ 63) : (i64 x >>= f) = f x := by
  rw [i64_ok h]
  rfl

theorem u32_bind {β : Type} {x : Nat} {f : Nat → Except (Stop ε) β} (h : x < 2 ^ 32) :
    (u32 x >>= f) = f x := by
  rw [u32, if_pos h]
  rfl

theorem asU32_natCast {n : Nat} (h : n < 2 ^ 32) : asU32 n = n := by
  unfold asU32
  omega

theorem tdiv_eq {a : Int} (h : 0 ≤ a) (b : Int) : a.tdiv b = a / b :=
  Int.tdiv_eq_ediv_of_nonneg h

/-! ## The conversions -/

def daysFromCivil (y : Int) (m d : Nat) : Except (Stop ε) Int := do
  let y ← (if m ≤ 2 then i64 (y - 1) else .ok y)
  let era := y / 400
  let yoe ← i64 (y - (← i64 (era * 400)))
  let mp := (← u32 (m + 9)) % 12
  let doy ← i64 ((← i64 ((← i64 ((← i64 (153 * (mp : Int))) + 2)).tdiv 5 + d)) - 1)
  let doe ← i64 ((← i64 ((← i64 ((← i64 (yoe * 365)) + yoe.tdiv 4)) - yoe.tdiv 100)) + doy)
  i64 ((← i64 ((← i64 (era * 146097)) + doe)) - 719468)

def civilFromDays (z : Int) : Except (Stop ε) (Int × Nat × Nat) := do
  let z ← i64 (z + 719468)
  let era := z / 146097
  let doe ← i64 (z - (← i64 (era * 146097)))
  let yoe := (← i64 ((← i64 ((← i64 (doe - doe.tdiv 1460)) + doe.tdiv 36524))
    - doe.tdiv 146096)).tdiv 365
  let doy ← i64 (doe - (← i64 ((← i64 ((← i64 (365 * yoe)) + yoe.tdiv 4)) - yoe.tdiv 100)))
  let mp := (← i64 ((← i64 (5 * doy)) + 2)).tdiv 153
  let d := asU32 (← i64 ((← i64 (doy - (← i64 ((← i64 (153 * mp)) + 2)).tdiv 5)) + 1))
  let m := asU32 (← (if mp < 10 then i64 (mp + 3) else i64 (mp - 9)))
  pure (← i64 ((← i64 (yoe + (← i64 (era * 400)))) + (if m ≤ 2 then 1 else 0)), m, d)

/-! ## Years that begin in March -/

/-- The days from 0000-03-01 to the first of March of the year. -/
def marchStart (y : Int) : Int := 365 * y + y / 4 - y / 100 + y / 400

/-- The year, begun in March, that the month lies in. -/
def marchYear (y : Int) (m : Nat) : Int := if m ≤ 2 then y - 1 else y

theorem marchYear_le {y : Int} {m : Nat} (h : y.natAbs ≤ 2 ^ 42) :
    (marchYear y m).natAbs ≤ 2 ^ 42 + 1 := by
  unfold marchYear
  split_ifs <;> omega

theorem marchYear_ok {y : Int} {m : Nat} (h : y.natAbs ≤ 2 ^ 42) :
    (if m ≤ 2 then i64 (y - 1) else .ok y : Except (Stop ε) Int) = .ok (marchYear y m) := by
  unfold marchYear
  split_ifs
  · exact i64_ok (by omega)
  · rfl

/-- The days that `daysFromCivil` gives, whether the date exists or not. -/
def civilDays (y : Int) (m d : Nat) : Int :=
  marchStart (marchYear y m) + ((153 * ((m + 9) % 12 : Nat) + 2) / 5 + d - 1) - 719468

theorem daysFromCivil_ok {y : Int} {m d : Nat} (hy : y.natAbs ≤ 2 ^ 42) (hm : m < 100)
    (hd : d < 100) : (daysFromCivil y m d : Except (Stop ε) Int) = .ok (civilDays y m d) := by
  have hY := marchYear_le (m := m) hy
  unfold daysFromCivil civilDays
  rw [marchYear_ok hy]
  generalize marchYear y m = Y at hY ⊢
  obtain ⟨era, hera⟩ : ∃ era, era = Y / 400 := ⟨_, rfl⟩
  obtain ⟨yoe, hyoe⟩ : ∃ yoe, yoe = Y - era * 400 := ⟨_, rfl⟩
  obtain ⟨mp, hmp⟩ : ∃ mp, mp = (m + 9) % 12 := ⟨_, rfl⟩
  have hyoe' : 0 ≤ yoe ∧ yoe ≤ 399 := by omega
  have hmp' : mp < 12 := by omega
  change ((i64 (Y / 400 * 400)) >>= _) = _
  simp (disch := omega) only [i64_bind, ← hera, ← hyoe, u32_bind, ← hmp, tdiv_eq]
  unfold marchStart
  rw [i64_ok (by omega)]
  congr 1
  omega

theorem civilDays_date (a : Date) : civilDays a.year a.month a.day = a.dayNumber := by
  obtain ⟨y, m, d, hm, hd⟩ := a
  rcases Calendar.month_cases hm with rfl | rfl | rfl | rfl | rfl | rfl | rfl | rfl | rfl | rfl |
    rfl | rfl
  all_goals
    by_cases h : IsLeap y <;>
    simp [civilDays, marchYear, marchStart, Date.dayNumber, Calendar.daysBeforeYear,
      Calendar.daysBeforeMonth, Calendar.monthLength, h] <;>
    unfold IsLeap at h <;> omega

/-! ## Reading a day number -/

/-- A day of the 400 years is found from its century, the group of four years within the century
and the year within the group. -/
theorem day_of_era {doe : Int} (h : 0 ≤ doe ∧ doe ≤ 146096) :
    ∃ c q s doy : Int, doe = 36524 * c + 1461 * q + 365 * s + doy ∧ (0 ≤ c ∧ c ≤ 3) ∧
      (0 ≤ q ∧ q ≤ 24) ∧ (0 ≤ s ∧ s ≤ 3) ∧ 0 ≤ doy ∧
      (doy ≤ 364 ∨ doy = 365 ∧ s = 3 ∧ (q ≤ 23 ∨ c = 3)) := by
  obtain ⟨c, r, rfl, hc, hr⟩ : ∃ c r : Int, doe = 36524 * c + r ∧ (0 ≤ c ∧ c ≤ 3) ∧
      0 ≤ r ∧ (r ≤ 36523 ∨ r = 36524 ∧ c = 3) := by
    by_cases hlast : doe = 146096
    · exact ⟨3, 36524, by omega⟩
    · exact ⟨doe / 36524, doe % 36524, by omega⟩
  by_cases hleap : r % 1461 = 1460
  · exact ⟨c, r / 1461, 3, 365, by omega⟩
  · exact ⟨c, r / 1461, r % 1461 / 365, r % 1461 % 365, by omega⟩

/-- The quotient that the conversion takes for the year of the era. -/
theorem year_of_era {c q s doy : Int} (hc : 0 ≤ c ∧ c ≤ 3) (hq : 0 ≤ q ∧ q ≤ 24)
    (hs : 0 ≤ s ∧ s ≤ 3) (hd : 0 ≤ doy)
    (hd' : doy ≤ 364 ∨ doy = 365 ∧ s = 3 ∧ (q ≤ 23 ∨ c = 3)) {doe : Int}
    (h : doe = 36524 * c + 1461 * q + 365 * s + doy) :
    (doe - doe / 1460 + doe / 36524 - doe / 146096) / 365 = 100 * c + 4 * q + s := by
  have hcentury : doe / 36524 - doe / 146096 = c := by
    by_cases hlast : doe = 146096
    · omega
    · have hlt : 1461 * q + 365 * s + doy ≤ 36523 := by omega
      have h1 : doe / 36524 = c := by omega
      have h2 : doe / 146096 = 0 := by omega
      omega
  have hgroup : doe / 1460 = 25 * c + q ∨
      doe / 1460 = 25 * c + q + 1 ∧ s = 3 ∧ 365 ≤ 24 * c + q + doy := by omega
  omega

theorem start_of_era {c q s : Int} (hc : 0 ≤ c ∧ c ≤ 3) (hq : 0 ≤ q ∧ q ≤ 24)
    (hs : 0 ≤ s ∧ s ≤ 3) {yoe : Int} (h : yoe = 100 * c + 4 * q + s) :
    (0 ≤ yoe ∧ yoe ≤ 399) ∧ 365 * yoe + yoe / 4 - yoe / 100 = 36524 * c + 1461 * q + 365 * s := by
  omega

theorem leap_of_era {c q : Int} (hq : 0 ≤ q ∧ q ≤ 24)
    (h : q ≤ 23 ∨ c = 3) (era : Int) : IsLeap (100 * c + 4 * q + 3 + era * 400 + 1) := by
  have h4 : (100 * c + 4 * q + 3 + era * 400 + 1) % 4 = 0 := by omega
  by_cases hq' : q = 24
  · subst hq'
    exact ⟨h4, .inr (by omega)⟩
  · exact ⟨h4, .inl (by omega)⟩

theorem year_and_day {doe : Int} (h : 0 ≤ doe ∧ doe ≤ 146096) :
    ∃ yoe doy : Int, (doe - doe / 1460 + doe / 36524 - doe / 146096).tdiv 365 = yoe ∧
      (0 ≤ yoe ∧ yoe ≤ 399) ∧ doe - (365 * yoe + yoe / 4 - yoe / 100) = doy ∧
      (0 ≤ doy ∧ doy ≤ 365) ∧
      ∀ era, doy ≤ 364 ∨ doy = 365 ∧ IsLeap (yoe + era * 400 + 1) := by
  obtain ⟨c, q, s, doy, hsplit, hc, hq, hs, hdoy, hlen⟩ := day_of_era h
  obtain ⟨hyoe, hstart⟩ := start_of_era hc hq hs rfl
  have hnonneg : 0 ≤ doe - doe / 1460 + doe / 36524 - doe / 146096 := by
    clear hstart hsplit
    omega
  refine ⟨100 * c + 4 * q + s, doy, ?_, hyoe, ?_, ?_, fun era => ?_⟩
  · rw [tdiv_eq hnonneg, year_of_era hc hq hs hdoy hlen hsplit]
  · rw [hstart, hsplit]
    ring
  · rcases hlen with h | ⟨h, -⟩ <;> exact ⟨hdoy, by omega⟩
  · rcases hlen with h | ⟨h, rfl, hcq⟩
    · exact .inl h
    · exact .inr ⟨h, leap_of_era hq hcq era⟩

/-- The day `doy` of the year begun in March is a date of its `mp`-th month. -/
theorem date_of_year {y doy mp : Int} (hdoy : 0 ≤ doy)
    (hlen : doy ≤ 364 ∨ doy = 365 ∧ IsLeap (y + 1)) (hmp : mp = (5 * doy + 2) / 153) :
    ∃ a : Date, a.dayNumber = marchStart y + doy - 719468 ∧
      (a.day : Int) = doy - (153 * mp + 2) / 5 + 1 ∧
      (a.month : Int) = (if mp < 10 then mp + 3 else mp - 9) ∧
      a.year = y + (if a.month ≤ 2 then 1 else 0) := by
  have hmp' : 0 ≤ mp ∧ mp ≤ 11 := by omega
  obtain ⟨d, hd⟩ : ∃ d : Nat, (d : Int) = doy - (153 * mp + 2) / 5 + 1 :=
    ⟨(doy - (153 * mp + 2) / 5 + 1).toNat, by omega⟩
  obtain ⟨m, hm⟩ : ∃ m : Nat, (m : Int) = if mp < 10 then mp + 3 else mp - 9 :=
    ⟨(if mp < 10 then mp + 3 else mp - 9).toNat, by split_ifs <;> omega⟩
  have hdate : IsDate (y + if m ≤ 2 then 1 else 0) m d := by
    refine ⟨by split_ifs at hm <;> omega, by omega, ?_⟩
    unfold Calendar.monthLength
    split_ifs at hm ⊢
    all_goals
      try replace hlen := hlen.resolve_right fun h => absurd h.2 ‹¬IsLeap (y + 1)›
      omega
  refine ⟨⟨y + if m ≤ 2 then 1 else 0, m, d, hdate⟩, ?_, hd, hm, rfl⟩
  rw [← civilDays_date]
  have hyear : marchYear (y + if m ≤ 2 then 1 else 0) m = y := by
    unfold marchYear
    split_ifs <;> omega
  have hmonth : ((m + 9) % 12 : Nat) = mp := by split_ifs at hm <;> omega
  dsimp only [civilDays]
  rw [hyear, hmonth, hd]
  omega

section Steps

variable {β : Type} {f : Int → Except (Stop ε) β}

theorem yoe_bind {doe : Int} (h : 0 ≤ doe ∧ doe ≤ 146096) :
    (do
      let x ← i64 (doe - doe.tdiv 1460)
      let y ← i64 (x + doe.tdiv 36524)
      let z ← i64 (y - doe.tdiv 146096)
      f z) = f (doe - doe / 1460 + doe / 36524 - doe / 146096) := by
  simp (disch := omega) only [i64_bind, tdiv_eq]

theorem doy_bind {doe yoe : Int} (hdoe : 0 ≤ doe ∧ doe ≤ 146096) (hyoe : 0 ≤ yoe ∧ yoe ≤ 399) :
    (do
      let x ← i64 (365 * yoe)
      let y ← i64 (x + yoe.tdiv 4)
      let z ← i64 (y - yoe.tdiv 100)
      let doy ← i64 (doe - z)
      f doy) = f (doe - (365 * yoe + yoe / 4 - yoe / 100)) := by
  simp (disch := omega) only [i64_bind, tdiv_eq]

theorem mp_bind {doy : Int} (h : 0 ≤ doy ∧ doy ≤ 365) :
    (do
      let x ← i64 (5 * doy)
      let y ← i64 (x + 2)
      f y) = f (5 * doy + 2) := by
  simp (disch := omega) only [i64_bind]

theorem day_bind {doy mp : Int} (hdoy : 0 ≤ doy ∧ doy ≤ 365) (hmp : 0 ≤ mp ∧ mp ≤ 11) :
    (do
      let x ← i64 (153 * mp)
      let y ← i64 (x + 2)
      let z ← i64 (doy - y.tdiv 5)
      let d ← i64 (z + 1)
      f d) = f (doy - (153 * mp + 2) / 5 + 1) := by
  simp (disch := omega) only [i64_bind, tdiv_eq]

theorem month_bind {mp : Int} (hmp : 0 ≤ mp ∧ mp ≤ 11) :
    ((if mp < 10 then i64 (mp + 3) else i64 (mp - 9)) >>= f) =
      f (if mp < 10 then mp + 3 else mp - 9) := by
  split_ifs <;> exact i64_bind (by omega)

end Steps

/-- A day number that 64-bit seconds, signed or not, can give. -/
def DayNumber (z : Int) : Prop := z.natAbs ≤ 2 ^ 64 / 86400

/-- The quantities that the conversion of a day number passes through, and the date it ends at. -/
structure Reading (z : Int) where
  date : Date
  era : Int
  doe : Int
  yoe : Int
  doy : Int
  mp : Int
  era_eq : (z + 719468) / 146097 = era
  doe_eq : z + 719468 - era * 146097 = doe
  yoe_eq : (doe - doe / 1460 + doe / 36524 - doe / 146096).tdiv 365 = yoe
  doy_eq : doe - (365 * yoe + yoe / 4 - yoe / 100) = doy
  mp_eq : (5 * doy + 2).tdiv 153 = mp
  day_eq : doy - (153 * mp + 2) / 5 + 1 = date.day
  month_eq : (if mp < 10 then mp + 3 else mp - 9) = date.month
  year_eq : yoe + era * 400 + (if date.month ≤ 2 then 1 else 0) = date.year
  number_eq : date.dayNumber = z
  doe_le : 0 ≤ doe ∧ doe ≤ 146096
  yoe_le : 0 ≤ yoe ∧ yoe ≤ 399
  doy_le : 0 ≤ doy ∧ doy ≤ 365
  mp_le : 0 ≤ mp ∧ mp ≤ 11

theorem exists_reading (z : Int) : Nonempty (Reading z) := by
  obtain ⟨era, hera⟩ : ∃ era, (z + 719468) / 146097 = era := ⟨_, rfl⟩
  obtain ⟨doe, hdoe⟩ : ∃ doe, z + 719468 - era * 146097 = doe := ⟨_, rfl⟩
  have hdoe' : 0 ≤ doe ∧ doe ≤ 146096 := by omega
  obtain ⟨yoe, doy, hyear, hyoe, hday, hdoy, hleap⟩ := year_and_day hdoe'
  obtain ⟨mp, hmp⟩ : ∃ mp, mp = (5 * doy + 2) / 153 := ⟨_, rfl⟩
  have hmp' : 0 ≤ mp ∧ mp ≤ 11 := by
    clear hyear
    omega
  obtain ⟨a, hnum, had, ham, hay⟩ := date_of_year hdoy.1 (hleap era) hmp
  have hnum' : a.dayNumber = z := by
    have hstart : marchStart (yoe + era * 400) =
        365 * yoe + yoe / 4 - yoe / 100 + yoe / 400 + era * 146097 := by
      unfold marchStart
      clear * -
      omega
    rw [hnum, hstart]
    clear hyear hmp had ham hay hnum hera
    omega
  exact ⟨⟨a, era, doe, yoe, doy, mp, hera, hdoe, hyear, hday, by rw [tdiv_eq (by omega), hmp],
    had.symm, ham.symm, hay.symm, hnum', hdoe', hyoe, hdoy, hmp'⟩⟩

namespace Reading

variable {z : Int}

theorem era_le (r : Reading z) (hz : DayNumber z) : -2 ^ 32 < r.era ∧ r.era < 2 ^ 32 := by
  have h := r.era_eq
  unfold DayNumber at hz
  omega

theorem year_le (r : Reading z) (hz : DayNumber z) : r.date.year.natAbs ≤ 2 ^ 42 := by
  have hera := r.era_le hz
  have hyear := r.year_eq
  have hyoe := r.yoe_le
  split_ifs at hyear <;> omega

end Reading

theorem civilFromDays_ok {z : Int} (hz : DayNumber z) :
    ∃ a : Date, a.dayNumber = z ∧ a.year.natAbs ≤ 2 ^ 42 ∧
      (civilFromDays z : Except (Stop ε) _) = .ok (a.year, a.month, a.day) := by
  obtain ⟨r⟩ := exists_reading z
  have hera := r.era_le hz
  have hyoe := r.yoe_le
  have hyear := r.year_le hz
  have hmonth := r.date.isDate.1
  have hday : r.date.day ≤ 366 := by
    have hdoy := r.doy_le
    have hmp := r.mp_le
    have hd := r.day_eq
    omega
  have hz' : -2 ^ 63 ≤ z + 719468 ∧ z + 719468 < 2 ^ 63 := by
    unfold DayNumber at hz
    omega
  refine ⟨r.date, r.number_eq, hyear, ?_⟩
  unfold civilFromDays
  rw [i64_bind hz']
  simp only [r.era_eq]
  rw [i64_bind (by omega), i64_bind (by rw [r.doe_eq]; have := r.doe_le; omega), r.doe_eq,
    yoe_bind r.doe_le, r.yoe_eq, doy_bind r.doe_le hyoe, r.doy_eq, mp_bind r.doy_le, r.mp_eq,
    day_bind r.doy_le r.mp_le, r.day_eq, month_bind r.mp_le, r.month_eq,
    asU32_natCast (by omega), asU32_natCast (by omega), i64_bind (by omega), i64_bind (by omega),
    i64_bind (by split_ifs <;> omega), r.year_eq]
  rfl

end SrcControl.CivilDates
