import SrcControl.Repo.TokenExpiry

/-!
# The forge's display of an instant

`rfc3339`, the second copy of the conversion from day numbers, and how it agrees with the display
of the token list.
-/

namespace SrcControl.Timefmt

open Checked (Stop Returns)
open Calendar (Date)
open CivilDates
open TokenExpiry

variable {ε : Type}

def rfc3339 (secs : Int) : Except (Stop ε) (List Char) := do
  let days := secs / 86400
  let rem := secs % 86400
  let z ← i64 (days + 719468)
  let era := z / 146097
  let doe ← i64 (z - (← i64 (era * 146097)))
  let yoe := (← i64 ((← i64 ((← i64 (doe - doe.tdiv 1460)) + doe.tdiv 36524))
    - doe.tdiv 146096)).tdiv 365
  let doy ← i64 (doe - (← i64 ((← i64 ((← i64 (365 * yoe)) + yoe.tdiv 4)) - yoe.tdiv 100)))
  let mp := (← i64 ((← i64 (5 * doy)) + 2)).tdiv 153
  let d ← i64 ((← i64 (doy - (← i64 ((← i64 (153 * mp)) + 2)).tdiv 5)) + 1)
  let m ← (if mp < 10 then i64 (mp + 3) else i64 (mp - 9))
  let y ← i64 ((← i64 (yoe + (← i64 (era * 400)))) + (if m ≤ 2 then 1 else 0))
  pure (padded 4 y ++ '-' :: padded 2 m ++ '-' :: padded 2 d ++ 'T' :: padded 2 (rem.tdiv 3600) ++
    ':' :: padded 2 ((rem.tmod 3600).tdiv 60) ++ ':' :: padded 2 (rem.tmod 60) ++ ['Z'])

theorem rfc3339_ok {secs : Nat} (h : secs < 2 ^ 63) :
    ∃ a : Date, a.dayNumber = (secs / 86400 : Nat) ∧
      (rfc3339 secs : Except (Stop ε) _) = .ok (stamp a 'T' (secs % 86400)) := by
  have hdays : (secs : Int) / 86400 = (secs / 86400 : Nat) := by omega
  have hrem : (secs : Int) % 86400 = (secs % 86400 : Nat) := by omega
  have hz : DayNumber (secs / 86400 : Nat) := by
    unfold DayNumber
    omega
  obtain ⟨r⟩ := exists_reading (secs / 86400 : Nat)
  have hera := r.era_le hz
  have hyoe := r.yoe_le
  have hone : (if (r.date.month : Int) ≤ 2 then 1 else 0 : Int) =
      if r.date.month ≤ 2 then 1 else 0 := by split_ifs <;> omega
  refine ⟨r.date, r.number_eq, ?_⟩
  unfold rfc3339
  rw [hdays, hrem]
  dsimp only
  rw [i64_bind (by omega)]
  simp only [r.era_eq]
  rw [i64_bind (by omega), i64_bind (by rw [r.doe_eq]; have := r.doe_le; omega), r.doe_eq,
    yoe_bind r.doe_le, r.yoe_eq, doy_bind r.doe_le hyoe, r.doy_eq, mp_bind r.doy_le, r.mp_eq,
    day_bind r.doy_le r.mp_le, r.day_eq, month_bind r.mp_le, r.month_eq,
    i64_bind (by omega), i64_bind (by omega), hone, i64_bind (by split_ifs <;> omega), r.year_eq]
  rfl

/-- The day numbers and dates are converted into each other, the parser accepts the documented
texts and no others exactly when no number of the text stands behind a plus sign, and both displays
show the same date and time. -/
theorem expiry_exact_iff (spec : List Char) (now secs : UInt64) :
    (Date.epoch.dayNumber = 0 ∧ (∀ a : Date, a.next.dayNumber = a.dayNumber + 1) ∧
      (∀ a : Date, DayNumber a.dayNumber →
        (daysFromCivil a.year a.month a.day : Except (Stop Error) Int) = .ok a.dayNumber ∧
          (civilFromDays a.dayNumber : Except (Stop Error) _) =
            .ok (a.year, a.month, a.day)) ∧
      (∀ z : Int, DayNumber z → ∃ a : Date, a.dayNumber = z) ∧
      ∀ a b : Date, a.Before b ↔ a.dayNumber < b.dayNumber) ∧
    (Returns (parseExpiry spec now) ∧
      ((∀ t : Nat, parseExpiry spec now = .ok t ↔ Expires LineText.parseDigits now spec t) ↔
        ¬ Signed spec now)) ∧
    ∃ a : Date, a.dayNumber = (secs.toNat / 86400 : Nat) ∧
      formatTime secs = .ok (stamp a ' ' (secs.toNat % 86400)) ∧
      (secs.toNat < 2 ^ 63 →
        (rfc3339 secs.toNat : Except (Stop Error) _) = .ok (stamp a 'T' (secs.toNat % 86400))) := by
  refine ⟨⟨Date.dayNumber_epoch, Date.dayNumber_next, fun a ha => ?_, fun z hz => ?_, fun a b =>
    Date.dayNumber_lt_iff.symm⟩,
    ⟨parseExpiry_returns spec now, parseExpiry_documented_iff spec now⟩, ?_⟩
  · obtain ⟨b, hnum, hyear, hback⟩ := @civilFromDays_ok Error _ ha
    obtain rfl := Date.dayNumber_injective hnum
    have hmonth := b.isDate.1
    have hday := b.isDate.2.2.trans (Calendar.monthLength_le _ _)
    rw [daysFromCivil_ok hyear (by omega) (by omega), civilDays_date]
    exact ⟨rfl, hback⟩
  · obtain ⟨a, hnum, -, -⟩ := @civilFromDays_ok Error _ hz
    exact ⟨a, hnum⟩
  · obtain ⟨a, hnum, hshow⟩ := formatTime_ok secs
    refine ⟨a, hnum, hshow, fun h => ?_⟩
    obtain ⟨b, hnum', hshow'⟩ := @rfc3339_ok Error _ h
    obtain rfl := Date.dayNumber_injective (hnum.trans hnum'.symm)
    exact hshow'

/-- `+30d` is taken for thirty days. -/
theorem signed_count_accepted : ¬ ∀ spec now, ∀ t : Nat,
    parseExpiry spec now = .ok t ↔ Expires LineText.parseDigits now spec t := by
  intro h
  have hrun : parseExpiry ['+', '3', '0', 'd'] 0 = .ok 2592000 := by decide +kernel
  exact ((h _ _ _).mp hrun).1.not_plus (by decide)

end SrcControl.Timefmt
