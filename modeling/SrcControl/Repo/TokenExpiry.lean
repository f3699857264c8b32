import SrcControl.Repo.CivilDates
import SrcControl.Core.Error
import SrcControl.Lib.SlashPath
import SrcControl.Lib.DecimalText
import SrcControl.Lib.Fallible

/-!
# The expiry of a token

`parse_expiry` of the serve tokens: a count of seconds, minutes, hours, days or weeks from now, or
a date. The texts it accepts are those of the documented grammar in which a number may also begin
with a plus sign, since the integer parser of the standard library takes one.
-/

namespace SrcControl.TokenExpiry

open Checked (Stop Returns)
open Calendar (Date IsDate)
open CivilDates
open LineText

/-! ## The parser -/

/-- `str::len`, which counts bytes. -/
def utf8Len (s : List Char) : Nat := (s.map Char.utf8Size).sum

def parseDate (s : List Char) : Option (Int × Nat × Nat) :=
  match s.splitOn '-' with
  | [y, m, d] =>
    if utf8Len y ≠ 4 ∨ utf8Len m ≠ 2 ∨ utf8Len d ≠ 2 then none
    else do
      let y ← parseSigned (2 ^ 63) y
      let m ← parseUnsigned (2 ^ 32) m
      let d ← parseUnsigned (2 ^ 32) d
      pure (y, m, d)
  | _ => none

def unitSecs : Char → Option Nat
  | 's' => some 1
  | 'm' => some 60
  | 'h' => some 3600
  | 'd' => some 86400
  | 'w' => some 604800
  | _ => none

def bad (spec : List Char) : Stop Error :=
  let text := String.ofList spec
  .error (.invalidArgument s!"bad --expires '{text}': use e.g. 30d, 12h, or 2030-01-31")

def notFuture (spec : List Char) : Stop Error :=
  let text := String.ofList spec
  .error (.invalidArgument s!"--expires '{text}' is not in the future")

/-- `checked_mul` and `checked_add` stay within this. -/
def u64Max : Nat := 2 ^ 64 - 1

/-- The instant of a date that `parseDate` has read. -/
def dateInstant (spec : List Char) (date : Int × Nat × Nat) : Except (Stop Error) Nat := do
  let (y, m, d) := date
  let days ← daysFromCivil y m d
  let back ← civilFromDays days
  -- rejects impossible dates such as 2025-02-30
  if back ≠ (y, m, d) then .error (bad spec)
  else if 0 ≤ days ∧ days.toNat * 86400 ≤ u64Max then .ok (days.toNat * 86400)
  else .error (bad spec)

/-- The instant of a count of seconds, minutes, hours, days or weeks from now. -/
def spanInstant (spec : List Char) (now : UInt64) : Except (Stop Error) Nat :=
  match spec.getLast? with
  | none => .error (bad spec)
  | some unit =>
    match unitSecs unit with
    | none => .error (bad spec)
    | some secs =>
      match parseUnsigned (2 ^ 64) spec.dropLast with
      | none => .error (bad spec)
      | some n =>
        if n * secs ≤ u64Max ∧ n * secs + now.toNat ≤ u64Max then .ok (n * secs + now.toNat)
        else .error (bad spec)

def parseExpiry (spec : List Char) (now : UInt64) : Except (Stop Error) Nat := do
  let instant ← (match parseDate spec with
    | some date => dateInstant spec date
    | none => spanInstant spec now)
  if instant ≤ now.toNat then .error (notFuture spec)
  else if instant < 2 ^ 63 then .ok instant
  else .error (bad spec)

/-! ## The grammar -/

/-- A number with a plus sign before it, as the integer parser reads it. -/
def parseSignedDigits (s : List Char) : Option Nat := parseDigits (stripPlus s)

/-- The instant that a text names, where `number` reads the numbers of the text. -/
inductive Names (number : List Char → Option Nat) (now : Int) : List Char → Int → Prop
  | span {n secs : Nat} {digits : List Char} {unit : Char} (hn : number digits = some n)
      (hu : unitSecs unit = some secs) : Names number now (digits ++ [unit]) (now + n * secs)
  | date {y m d : List Char} (a : Date) (hlen : y.length = 4 ∧ m.length = 2 ∧ d.length = 2)
      (hy : (number y).map Int.ofNat = some a.year) (hm : number m = some a.month)
      (hd : number d = some a.day) :
      Names number now (y ++ '-' :: m ++ '-' :: d) (a.dayNumber * 86400)

/-- The text names the instant, which lies in the future and fits a signed 64-bit word. -/
def Expires (number : List Char → Option Nat) (now : UInt64) (spec : List Char) (instant : Int) :
    Prop :=
  Names number now.toNat spec instant ∧ (now.toNat : Int) < instant ∧ instant < 2 ^ 63

/-! ## Numbers -/

theorem not_plus_of_digits {s : List Char} {n : Nat} (h : parseDigits s = some n) : '+' ∉ s :=
  fun hp => absurd ((parseDigits_eq_some h).2.1 _ hp) (by decide)

theorem signed_of_digits {s : List Char} {n : Nat} (h : parseDigits s = some n) :
    parseSignedDigits s = some n := by
  rw [parseSignedDigits, stripPlus_of_not_mem (not_plus_of_digits h), h]

theorem digits_of_signed {s : List Char} {n : Nat} (h : parseSignedDigits s = some n)
    (hs : '+' ∉ s) : parseDigits s = some n := by
  rwa [parseSignedDigits, stripPlus_of_not_mem hs] at h

theorem signed_chars {s : List Char} {n : Nat} (h : parseSignedDigits s = some n) {c : Char}
    (hc : c ∈ s) : c.isDigit = true ∨ c = '+' := plusDigits_chars h hc

theorem not_dash_of_signed {s : List Char} {n : Nat} (h : parseSignedDigits s = some n) :
    '-' ∉ s := fun hc => by rcases signed_chars h hc with hd | hd <;> revert hd <;> decide

theorem utf8Len_signed {s : List Char} {n : Nat} (h : parseSignedDigits s = some n) :
    utf8Len s = s.length := by
  have hone : ∀ c ∈ s, c.utf8Size = 1 := by
    intro c hc
    rw [Char.utf8Size_eq_one_iff]
    rcases signed_chars h hc with hd | rfl
    · have := (Char.isDigit_iff_toNat.mp hd).2
      rw [UInt32.le_iff_toNat_le]
      exact Nat.le_trans this (by decide)
    · decide
  unfold utf8Len
  rw [List.map_congr_left hone]
  simp

theorem signed_lt {s : List Char} {n : Nat} (h : parseSignedDigits s = some n) :
    n < 10 ^ s.length := by
  have hlt := (parseDigits_eq_some h).2.2
  have hle : (stripPlus s).length ≤ s.length := by
    rcases stripPlus_cases s with hs | hs
    · rw [← hs]
    · rw [hs, List.length_cons]
      simp [stripPlus]
  exact Nat.lt_of_lt_of_le hlt (Nat.pow_le_pow_right (by decide) hle)

theorem parseSigned_of_not_dash {bound : Nat} {s : List Char} (h : '-' ∉ s) :
    parseSigned bound s = (parseUnsigned bound s).map fun n => (n : Int) := by
  unfold parseSigned
  split
  · exact absurd List.mem_cons_self h
  · rfl

/-! ## Dates -/

theorem mem_splitOn_date {y m d : List Char} (hy : '-' ∉ y) (hm : '-' ∉ m) (hd : '-' ∉ d) :
    (y ++ '-' :: m ++ '-' :: d).splitOn '-' = [y, m, d] := by
  rw [List.append_assoc, List.cons_append, List.splitOn_append_cons_self_of_not_mem hy,
    List.splitOn_append_cons_self_of_not_mem hm, List.splitOn_eq_singleton hd]

theorem parseDate_eq_some_iff {s : List Char} {y : Int} {m d : Nat} :
    parseDate s = some (y, m, d) ↔ ∃ ys ms ds : List Char, s = ys ++ '-' :: ms ++ '-' :: ds ∧
      (ys.length = 4 ∧ ms.length = 2 ∧ ds.length = 2) ∧
      (parseSignedDigits ys).map Int.ofNat = some y ∧ parseSignedDigits ms = some m ∧
      parseSignedDigits ds = some d := by
  constructor
  · intro h
    unfold parseDate at h
    split at h
    · next ys ms ds hsplit =>
      have hs := @List.intercalate_splitOn _ s _ _ '-'
      have hdash : '-' ∉ ys := SlashPath.not_mem_splitOn (by rw [hsplit]; simp)
      split_ifs at h with hlen
      rw [parseSigned_of_not_dash hdash] at h
      simp only [Option.bind_eq_bind, Option.bind_eq_some_iff, Option.map_eq_some_iff,
        parseUnsigned_eq_some_iff, Option.pure_def, Option.some.injEq, Prod.mk.injEq] at h
      obtain ⟨_, ⟨_, ⟨n, ⟨hn, -⟩, rfl⟩, rfl⟩, _, ⟨hm, -⟩, _, ⟨hd, -⟩, rfl, rfl, rfl⟩ := h
      rw [utf8Len_signed hn, utf8Len_signed hm, utf8Len_signed hd] at hlen
      refine ⟨ys, ms, ds, ?_, by omega, by rw [parseSignedDigits, hn]; rfl, hm, hd⟩
      rw [← hs, hsplit]
      simp
    · cases h
  · rintro ⟨ys, ms, ds, rfl, ⟨hly, hlm, hld⟩, hy, hm, hd⟩
    obtain ⟨n, hn, rfl⟩ := Option.map_eq_some_iff.mp hy
    have hbound := signed_lt hn
    have hboundm := signed_lt hm
    have hboundd := signed_lt hd
    unfold parseDate
    rw [mem_splitOn_date (not_dash_of_signed hn) (not_dash_of_signed hm) (not_dash_of_signed hd)]
    rw [hly] at hbound
    rw [hlm] at hboundm
    rw [hld] at hboundd
    dsimp only
    rw [if_neg (by rw [utf8Len_signed hn, utf8Len_signed hm, utf8Len_signed hd]; omega),
      parseSigned_of_not_dash (not_dash_of_signed hn),
      parseUnsigned_eq_some_iff.mpr ⟨hn, by omega⟩, parseUnsigned_eq_some_iff.mpr ⟨hm, by omega⟩,
      parseUnsigned_eq_some_iff.mpr ⟨hd, by omega⟩]
    rfl

/-- A text that ends in a unit is no date. -/
theorem parseDate_span {digits : List Char} {unit : Char} {n secs : Nat}
    (hn : parseSignedDigits digits = some n) (hu : unitSecs unit = some secs) :
    parseDate (digits ++ [unit]) = none := by
  have hunit : unit ≠ '-' := by
    rintro rfl
    cases hu
  have hsplit : (digits ++ [unit]).splitOn '-' = [digits ++ [unit]] := by
    apply List.splitOn_eq_singleton
    simp [not_dash_of_signed hn, hunit.symm]
  rw [parseDate, hsplit]

theorem dayNumber_civilDays {y : Int} {d : Nat} (m : Nat) (hy : 0 ≤ y ∧ y < 10 ^ 4)
    (hd : d < 100) : DayNumber (civilDays y m d) := by
  unfold DayNumber civilDays marchStart marchYear
  split_ifs <;> omega

/-- The date that the day number is read back as decides. -/
theorem dateInstant_run {spec : List Char} {y : Int} {m d : Nat} (hy : 0 ≤ y ∧ y < 10 ^ 4)
    (hm : m < 100) (hd : d < 100) :
    ∃ a : Date, a.dayNumber = civilDays y m d ∧ dateInstant spec (y, m, d) =
      if (a.year, a.month, a.day) ≠ (y, m, d) then .error (bad spec)
      else if 0 ≤ a.dayNumber ∧ a.dayNumber.toNat * 86400 ≤ u64Max then
        .ok (a.dayNumber.toNat * 86400)
      else .error (bad spec) := by
  obtain ⟨a, hnum, -, hback⟩ := @civilFromDays_ok Error _ (dayNumber_civilDays m hy hd)
  have hdays : (daysFromCivil y m d : Except (Stop Error) Int) = .ok (civilDays y m d) :=
    daysFromCivil_ok (by omega) hm hd
  refine ⟨a, hnum, ?_⟩
  simp only [dateInstant, hdays, Except.bind, bind, hback, hnum]

/-- The instant is that of the date, and there is one only when the date exists. -/
theorem dateInstant_eq_ok_iff {spec : List Char} {y : Int} {m d t : Nat} (hy : 0 ≤ y ∧ y < 10 ^ 4)
    (hm : m < 100) (hd : d < 100) : dateInstant spec (y, m, d) = .ok t ↔
      ∃ a : Date, (a.year = y ∧ a.month = m ∧ a.day = d) ∧ (t : Int) = a.dayNumber * 86400 := by
  obtain ⟨a, hnum, hrun⟩ := @dateInstant_run spec _ _ _ hy hm hd
  have hmax : u64Max = 18446744073709551615 := rfl
  rw [hrun]
  constructor
  · intro h
    split_ifs at h with hne hrange
    obtain ⟨rfl, rfl, rfl⟩ : a.year = y ∧ a.month = m ∧ a.day = d := by simpa using hne
    cases h
    exact ⟨a, ⟨rfl, rfl, rfl⟩, by omega⟩
  · rintro ⟨b, ⟨rfl, rfl, rfl⟩, ht⟩
    rw [civilDays_date] at hnum
    obtain rfl := Calendar.Date.dayNumber_injective hnum
    have hle : DayNumber a.dayNumber := civilDays_date a ▸ dayNumber_civilDays a.month hy hd
    unfold DayNumber at hle
    rw [if_neg (by simp), if_pos (by omega)]
    congr 1
    omega

theorem dateInstant_returns {spec : List Char} {y : Int} {m d : Nat} (hy : 0 ≤ y ∧ y < 10 ^ 4)
    (hm : m < 100) (hd : d < 100) : Returns (dateInstant spec (y, m, d)) := by
  obtain ⟨a, -, hrun⟩ := @dateInstant_run spec _ _ _ hy hm hd
  rw [hrun]
  split_ifs
  · exact Returns.error _
  · exact Returns.ok _
  · exact Returns.error _

/-! ## Spans -/

theorem spanInstant_eq_ok_iff {spec : List Char} {now : UInt64} {t : Nat} :
    spanInstant spec now = .ok t ↔ t ≤ u64Max ∧ ∃ digits unit n secs,
      spec = digits ++ [unit] ∧ parseSignedDigits digits = some n ∧ unitSecs unit = some secs ∧
      t = n * secs + now.toNat := by
  rcases List.eq_nil_or_concat spec with rfl | ⟨digits, unit, rfl⟩
  · simp [spanInstant]
  · rw [List.concat_eq_append]
    simp only [spanInstant, List.getLast?_concat, List.dropLast_concat]
    constructor
    · intro h
      split at h
      · cases h
      · next secs hu =>
        split at h
        · cases h
        · next n hn =>
          split_ifs at h with hle
          cases h
          exact ⟨hle.2, digits, unit, n, secs, rfl, (parseUnsigned_eq_some_iff.mp hn).1, hu, rfl⟩
    · rintro ⟨hle, digits', unit', n, secs, heq, hn, hu, rfl⟩
      obtain ⟨rfl, rfl⟩ := List.append_singleton_inj.mp heq
      have hpos : 1 ≤ secs := by
        unfold unitSecs at hu
        split at hu <;> cases hu <;> decide
      have hsecs : n * 1 ≤ n * secs := Nat.mul_le_mul_left n hpos
      have hmax : u64Max = 2 ^ 64 - 1 := rfl
      rw [hu, parseUnsigned_eq_some_iff.mpr ⟨hn, by omega⟩]
      exact if_pos ⟨by omega, hle⟩

theorem spanInstant_returns (spec : List Char) (now : UInt64) : Returns (spanInstant spec now) := by
  unfold spanInstant
  split
  · exact Returns.error _
  · split
    · exact Returns.error _
    · split
      · exact Returns.error _
      · split_ifs
        · exact Returns.ok _
        · exact Returns.error _

/-! ## Acceptance -/

/-- What `parseDate` reads is small. -/
theorem parseDate_small {s : List Char} {y : Int} {m d : Nat} (h : parseDate s = some (y, m, d)) :
    (0 ≤ y ∧ y < 10 ^ 4) ∧ m < 100 ∧ d < 100 := by
  obtain ⟨ys, ms, ds, -, ⟨hly, hlm, hld⟩, hy, hm, hd⟩ := parseDate_eq_some_iff.mp h
  obtain ⟨n, hn, rfl⟩ := Option.map_eq_some_iff.mp hy
  have hbound := signed_lt hn
  have hboundm := signed_lt hm
  have hboundd := signed_lt hd
  rw [hly] at hbound
  rw [hlm] at hboundm
  rw [hld] at hboundd
  refine ⟨⟨Int.natCast_nonneg n, ?_⟩, hboundm, hboundd⟩
  change (n : Int) < 10 ^ 4
  omega

/-- Whatever the text, the run ends with an instant or an error, in no overflow. -/
theorem parseExpiry_returns (spec : List Char) (now : UInt64) :
    Returns (parseExpiry spec now) := by
  unfold parseExpiry
  refine Returns.bind ?_ fun instant _ => ?_
  · split
    · next date hdate =>
      obtain ⟨y, m, d⟩ := date
      obtain ⟨hy, hm, hd⟩ := parseDate_small hdate
      exact dateInstant_returns hy hm hd
    · exact spanInstant_returns spec now
  · split_ifs
    · exact Returns.error _
    · exact Returns.ok _
    · exact Returns.error _

/-- The instant before it is compared with the present. -/
theorem instant_eq_ok_iff {spec : List Char} {now : UInt64} {t : Nat} (ht : t < 2 ^ 63) :
    (match parseDate spec with
      | some date => dateInstant spec date
      | none => spanInstant spec now) = .ok t ↔ Names parseSignedDigits now.toNat spec t := by
  constructor
  · intro h
    split at h
    · next date hdate =>
      obtain ⟨y, m, d⟩ := date
      obtain ⟨hy, hm, hd⟩ := parseDate_small hdate
      obtain ⟨a, ⟨rfl, rfl, rfl⟩, ht⟩ := (dateInstant_eq_ok_iff hy hm hd).mp h
      obtain ⟨ys, ms, ds, rfl, hlen, hys, hms, hds⟩ := parseDate_eq_some_iff.mp hdate
      rw [ht]
      exact .date a hlen hys hms hds
    · obtain ⟨-, digits, unit, n, secs, rfl, hn, hu, rfl⟩ := spanInstant_eq_ok_iff.mp h
      rw [show ((n * secs + now.toNat : Nat) : Int) = now.toNat + n * secs by push_cast; ring]
      exact .span hn hu
  · intro h
    generalize hi : (t : Int) = instant at h
    have hmax : u64Max = 2 ^ 64 - 1 := rfl
    cases h with
    | span hn hu =>
      rw [parseDate_span hn hu]
      exact spanInstant_eq_ok_iff.mpr ⟨by omega, _, _, _, _, rfl, hn, hu, by omega⟩
    | date a hlen hy hm hd =>
      have hdate := parseDate_eq_some_iff.mpr ⟨_, _, _, rfl, hlen, hy, hm, hd⟩
      obtain ⟨hy', hm', hd'⟩ := parseDate_small hdate
      rw [hdate]
      exact (dateInstant_eq_ok_iff hy' hm' hd').mpr ⟨a, ⟨rfl, rfl, rfl⟩, hi⟩

/-- The parser accepts the documented grammar with signs, and nothing else. -/
theorem parseExpiry_eq_ok_iff {spec : List Char} {now : UInt64} {t : Nat} :
    parseExpiry spec now = .ok t ↔ Expires parseSignedDigits now spec t := by
  unfold parseExpiry Expires
  constructor
  · intro h
    obtain ⟨instant, hinstant, h⟩ := Fallible.bind_ok h
    split_ifs at h with hle hlt
    cases h
    exact ⟨(instant_eq_ok_iff hlt).mp hinstant, by omega, by exact_mod_cast hlt⟩
  · rintro ⟨hnames, hnow, hlt⟩
    have hlt' : t < 2 ^ 63 := by exact_mod_cast hlt
    rw [(instant_eq_ok_iff hlt').mpr hnames]
    change (if t ≤ now.toNat then _ else _) = _
    rw [if_neg (by omega), if_pos hlt']

theorem Names.signed {now : Int} {spec : List Char} {instant : Int}
    (h : Names parseDigits now spec instant) : Names parseSignedDigits now spec instant := by
  cases h with
  | span hn hu => exact .span (signed_of_digits hn) hu
  | date a hlen hy hm hd =>
    obtain ⟨n, hn, hy⟩ := Option.map_eq_some_iff.mp hy
    exact .date a hlen (by rw [signed_of_digits hn, ← hy]; rfl) (signed_of_digits hm)
      (signed_of_digits hd)

theorem Names.unsigned {now : Int} {spec : List Char} {instant : Int}
    (h : Names parseSignedDigits now spec instant) (hplus : '+' ∉ spec) :
    Names parseDigits now spec instant := by
  cases h with
  | span hn hu => exact .span (digits_of_signed hn fun hp => hplus (by simp [hp])) hu
  | date a hlen hy hm hd =>
    obtain ⟨n, hn, hy⟩ := Option.map_eq_some_iff.mp hy
    have hn := digits_of_signed hn fun hp => hplus (by simp [hp])
    exact .date a hlen (by rw [hn, ← hy]; rfl) (digits_of_signed hm fun hp => hplus (by simp [hp]))
      (digits_of_signed hd fun hp => hplus (by simp [hp]))

theorem Names.not_plus {now : Int} {spec : List Char} {instant : Int}
    (h : Names parseDigits now spec instant) : '+' ∉ spec := by
  cases h with
  | span hn hu =>
    simp only [List.mem_append, List.mem_singleton, not_or]
    refine ⟨not_plus_of_digits hn, ?_⟩
    rintro rfl
    cases hu
  | date a hlen hy hm hd =>
    obtain ⟨n, hn, -⟩ := Option.map_eq_some_iff.mp hy
    simp [not_plus_of_digits hn, not_plus_of_digits hm, not_plus_of_digits hd]

/-- A number of the text stands behind a plus sign, and with the sign passed over the text names an
instant that lies in the future and fits. -/
def Signed (spec : List Char) (now : UInt64) : Prop :=
  '+' ∈ spec ∧ ∃ instant : Nat, Expires parseSignedDigits now spec instant

theorem parseExpiry_documented_iff (spec : List Char) (now : UInt64) :
    (∀ t : Nat, parseExpiry spec now = .ok t ↔ Expires parseDigits now spec t) ↔
      ¬ Signed spec now := by
  constructor
  · rintro h ⟨hplus, t, ht⟩
    exact ((h t).mp (parseExpiry_eq_ok_iff.mpr ht)).1.not_plus hplus
  · intro h t
    rw [parseExpiry_eq_ok_iff]
    refine ⟨fun ht => ⟨ht.1.unsigned fun hp => h ⟨hp, t, ht⟩, ht.2⟩, fun ht => ⟨ht.1.signed, ht.2⟩⟩

/-! ## The display -/

/-- `{n:0width}`. -/
def padded (width : Nat) : Int → List Char
  | .ofNat n => (showNat n).leftpad width '0'
  | .negSucc n => '-' :: (showNat (n + 1)).leftpad (width - 1) '0'

/-- `x as i64`. -/
def asI64 (x : Nat) : Int := if x < 2 ^ 63 then x else x - 2 ^ 64

def formatTime (secs : UInt64) : Except (Stop Error) (List Char) := do
  let (y, m, d) ← civilFromDays (asI64 (secs.toNat / 86400))
  let r := secs.toNat % 86400
  pure (padded 4 y ++ '-' :: padded 2 m ++ '-' :: padded 2 d ++ ' ' :: padded 2 (r / 3600 : Nat) ++
    ':' :: padded 2 (r % 3600 / 60 : Nat) ++ ':' :: padded 2 (r % 60 : Nat) ++ ['Z'])

/-- The date, the separator and the time of day. -/
def stamp (a : Date) (sep : Char) (r : Nat) : List Char :=
  padded 4 a.year ++ '-' :: padded 2 a.month ++ '-' :: padded 2 a.day ++
    sep :: padded 2 (r / 3600 : Nat) ++ ':' :: padded 2 (r % 3600 / 60 : Nat) ++
    ':' :: padded 2 (r % 60 : Nat) ++ ['Z']

theorem formatTime_ok (secs : UInt64) : ∃ a : Date, a.dayNumber = (secs.toNat / 86400 : Nat) ∧
    formatTime secs = .ok (stamp a ' ' (secs.toNat % 86400)) := by
  have hlt := secs.toNat_lt
  have hcast : asI64 (secs.toNat / 86400) = (secs.toNat / 86400 : Nat) := if_pos (by omega)
  have hday : DayNumber (secs.toNat / 86400 : Nat) := by
    unfold DayNumber
    omega
  obtain ⟨a, hnum, -, hback⟩ := @civilFromDays_ok Error _ hday
  refine ⟨a, hnum, ?_⟩
  rw [formatTime, hcast, hback]
  rfl

end SrcControl.TokenExpiry
