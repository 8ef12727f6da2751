import DistrHnsw.Lib.Calendar
import DistrHnsw.Lib.Decimal
import Mathlib.Data.Char
import Mathlib.Data.List.Lex
import Mathlib.Tactic.IntervalCases

/-!
# Time stamps of backups

Seconds since the epoch as `YYYYMMDDTHHMMSSZ`, and back.  Within the years of four digits the two are
inverse, the stamp shows the date and time of its second, and stamps sort as their seconds do, so the
last name of a sorted listing has the latest stamp.
-/

namespace DistrHnsw

namespace Backup

open Decimal

/-- The date of a number of days since the epoch. -/
def civilFromDays (days : ℤ) : Date :=
  let z := days + 719468
  let era := z / 146097
  let doe := z - era * 146097
  let yoe := (doe - doe / 1460 + doe / 36524 - doe / 146096) / 365
  let y := yoe + era * 400
  let doy := doe - (365 * yoe + yoe / 4 - yoe / 100)
  let mp := (5 * doy + 2) / 153
  let d := doy - (153 * mp + 2) / 5 + 1
  let m := if mp < 10 then mp + 3 else mp - 9
  let y := if m ≤ 2 then y + 1 else y
  ⟨y, m, d⟩

/-- The number of days from the epoch to a date. -/
def daysFromCivil (date : Date) : ℤ :=
  let y := if date.month ≤ 2 then date.year - 1 else date.year
  let era := y / 400
  let yoe := y - era * 400
  let mp := if date.month > 2 then date.month - 3 else date.month + 9
  let doy := (153 * mp + 2) / 5 + date.day - 1
  let doe := yoe * 365 + yoe / 4 - yoe / 100 + doy
  era * 146097 + doe - 719468

/-- Date and time of day as text. -/
def stampText (date : Date) (hour minute second : ℤ) : List Char :=
  padded 4 date.year ++ (padded 2 date.month ++ (padded 2 date.day ++ ('T' ::
    (padded 2 hour ++ (padded 2 minute ++ (padded 2 second ++ ['Z']))))))

def utcStamp (seconds : ℤ) : List Char :=
  let days := seconds / 86400
  let secs := seconds % 86400
  stampText (civilFromDays days) (secs / 3600) (secs % 3600 / 60) (secs % 60)

/-- The number at a place of a stamp. -/
def field (stamp : List Char) (start stop : ℕ) : Option ℤ :=
  parse ((stamp.drop start).take (stop - start))

/-- Inverse of `utcStamp`. -/
def parseUtcStamp (stamp : List Char) : Option ℤ :=
  if stamp.length ≠ 16 ∨ stamp[8]? ≠ some 'T' ∨ stamp[15]? ≠ some 'Z' then none else do
  let y ← field stamp 0 4
  let m ← field stamp 4 6
  let d ← field stamp 6 8
  let hh ← field stamp 9 11
  let mm ← field stamp 11 13
  let ss ← field stamp 13 15
  if ¬(1 ≤ m ∧ m ≤ 12) ∨ ¬(1 ≤ d ∧ d ≤ 31) ∨ hh > 23 ∨ mm > 59 ∨ ss > 60 then none else
  return daysFromCivil ⟨y, m, d⟩ * 86400 + hh * 3600 + mm * 60 + ss

/-! ## Days and dates -/

/-- A day by the era, century, leap cycle and year that begin in March, and month and day of that
year. -/
structure MarchDay where
  era : ℤ
  century : ℤ
  cycle : ℤ
  year : ℤ
  month : ℤ
  day : ℤ

namespace MarchDay

def dayOfYear (t : MarchDay) : ℤ := (153 * t.month + 2) / 5 + t.day - 1

def dayOfEra (t : MarchDay) : ℤ :=
  36524 * t.century + 1461 * t.cycle + 365 * t.year + t.dayOfYear

def days (t : MarchDay) : ℤ := t.era * 146097 + t.dayOfEra - 719468

/-- The date of the day; January and February are of the year after. -/
def date (t : MarchDay) : Date :=
  let y := 100 * t.century + 4 * t.cycle + t.year + t.era * 400
  if t.month < 10 then ⟨y, t.month + 3, t.day⟩ else ⟨y + 1, t.month - 9, t.day⟩

/-- The parts are in range, and the last day of February is that of a leap year. -/
structure Valid (t : MarchDay) : Prop where
  century : 0 ≤ t.century ∧ t.century ≤ 3
  cycle : 0 ≤ t.cycle ∧ t.cycle ≤ 24
  year : 0 ≤ t.year ∧ t.year ≤ 3
  month : 0 ≤ t.month ∧ t.month ≤ 11
  day : 1 ≤ t.day ∧ (153 * t.month + 2) / 5 + t.day ≤ (153 * (t.month + 1) + 2) / 5
  dayOfYear : t.dayOfYear ≤ 365
  leap : t.dayOfYear = 365 → t.year = 3 ∧ (t.cycle = 24 → t.century = 3)

end MarchDay

section

variable {c q a doy doe : ℤ}

/-- Century, leap cycle and year of a day of an era. -/
theorem yearOfEra_eq (hc : 0 ≤ c ∧ c ≤ 3) (hq : 0 ≤ q ∧ q ≤ 24) (ha : 0 ≤ a ∧ a ≤ 3)
    (hdoy : 0 ≤ doy ∧ doy ≤ 365) (hleap : doy = 365 → a = 3 ∧ (q = 24 → c = 3))
    (hdoe : doe = 36524 * c + 1461 * q + 365 * a + doy) :
    (doe - doe / 1460 + doe / 36524 - doe / 146096) / 365 = 100 * c + 4 * q + a := by
  have hcycles : doe / 1460 = 25 * c + q ∨ doe / 1460 = 25 * c + q + 1 := by omega
  have hcenturies : doe / 36524 = c ∨ doe / 36524 = c + 1 := by omega
  have heras : doe / 146096 = 0 ∨ doe / 146096 = 1 := by omega
  omega

/-- Every day of an era has its century, leap cycle and year. -/
theorem exists_yearOfEra (hdoe : 0 ≤ doe ∧ doe < 146097) : ∃ c q a doy : ℤ, (0 ≤ c ∧ c ≤ 3) ∧
    (0 ≤ q ∧ q ≤ 24) ∧ (0 ≤ a ∧ a ≤ 3) ∧ (0 ≤ doy ∧ doy ≤ 365) ∧
    (doy = 365 → a = 3 ∧ (q = 24 → c = 3)) ∧ doe = 36524 * c + 1461 * q + 365 * a + doy := by
  obtain ⟨c, hc, hdayOfCentury⟩ : ∃ c : ℤ, (0 ≤ c ∧ c ≤ 3) ∧ 0 ≤ doe - 36524 * c ∧
      doe - 36524 * c ≤ 36524 ∧ (doe - 36524 * c = 36524 → c = 3) := by
    by_cases hlast : doe = 146096
    · exact ⟨3, by omega, by omega, by omega, fun _ => rfl⟩
    · exact ⟨doe / 36524, by omega, by omega, by omega, by omega⟩
  generalize hdoc : doe - 36524 * c = doc at hdayOfCentury
  obtain ⟨a, ha, hdayOfYear⟩ : ∃ a : ℤ, (0 ≤ a ∧ a ≤ 3) ∧ 0 ≤ doc % 1461 - 365 * a ∧
      doc % 1461 - 365 * a ≤ 365 ∧ (doc % 1461 - 365 * a = 365 → a = 3) := by
    by_cases hlast : doc % 1461 = 1460
    · exact ⟨3, by omega, by omega, by omega, fun _ => rfl⟩
    · exact ⟨doc % 1461 / 365, by omega, by omega, by omega, by omega⟩
  exact ⟨c, doc / 1461, a, doc % 1461 - 365 * a, hc, by omega, ha, by omega, by omega, by omega⟩

end

namespace MarchDay

variable {t : MarchDay}

theorem Valid.dayOfYear_nonneg (h : t.Valid) : 0 ≤ t.dayOfYear := by
  have hmonth := h.month
  have hday := h.day
  unfold MarchDay.dayOfYear
  omega

/-- The code finds the parts of a day. -/
theorem Valid.civilFromDays_days (h : t.Valid) : civilFromDays t.days = t.date := by
  have hdoy := h.dayOfYear_nonneg
  obtain ⟨hc, hq, ha, hm, hd, hdoy', hleap⟩ := h
  have hera : (t.days + 719468) / 146097 = t.era := by
    unfold days dayOfEra
    omega
  have hdoe : t.days + 719468 - t.era * 146097 = t.dayOfEra := by
    unfold days
    omega
  have hyoe := yearOfEra_eq hc hq ha ⟨hdoy, hdoy'⟩ hleap (rfl : t.dayOfEra = _)
  have hrest : t.dayOfEra - (365 * (100 * t.century + 4 * t.cycle + t.year) +
      (100 * t.century + 4 * t.cycle + t.year) / 4 -
      (100 * t.century + 4 * t.cycle + t.year) / 100) = t.dayOfYear := by
    have hcycles : (100 * t.century + 4 * t.cycle + t.year) / 4 = 25 * t.century + t.cycle := by omega
    have hcenturies : (100 * t.century + 4 * t.cycle + t.year) / 100 = t.century := by omega
    rw [hcycles, hcenturies]
    unfold dayOfEra
    omega
  have hmonth : (5 * t.dayOfYear + 2) / 153 = t.month := by
    unfold MarchDay.dayOfYear
    omega
  have hday : t.dayOfYear - (153 * t.month + 2) / 5 + 1 = t.day := by
    unfold MarchDay.dayOfYear
    omega
  unfold civilFromDays date
  dsimp only
  rw [hera, hdoe, hyoe, hrest, hmonth, hday]
  by_cases hlate : t.month < 10
  · rw [if_pos hlate, if_pos hlate, if_neg (by omega)]
  · rw [if_neg hlate, if_neg hlate, if_pos (by omega)]

/-- The code counts the days up to a date. -/
theorem Valid.daysFromCivil_date (h : t.Valid) : daysFromCivil t.date = t.days := by
  obtain ⟨hc, hq, ha, hm, hd, hdoy', hleap⟩ := h
  unfold daysFromCivil date days dayOfEra MarchDay.dayOfYear
  by_cases hlate : t.month < 10
  · rw [if_pos hlate]
    dsimp only
    rw [if_neg (by omega), if_pos (by omega)]
    omega
  · rw [if_neg hlate]
    dsimp only
    rw [if_pos (by omega), if_neg (by omega)]
    omega

theorem Valid.date_valid (h : t.Valid) : t.date.Valid := by
  obtain ⟨era, c, q, a, m, d⟩ := t
  obtain ⟨hc, hq, ha, hm, hd, hdoy', hleap⟩ := h
  unfold MarchDay.dayOfYear at hdoy' hleap
  dsimp only at hc hq ha hm hd hdoy' hleap
  unfold date
  by_cases hlate : m < 10
  · rw [if_pos hlate]
    refine ⟨?_, ?_, hd.1, ?_⟩
    · dsimp only
      omega
    · dsimp only
      omega
    · unfold Date.daysIn
      dsimp only
      split_ifs <;> omega
  · rw [if_neg hlate]
    refine ⟨?_, ?_, hd.1, ?_⟩
    · dsimp only
      omega
    · dsimp only
      omega
    · unfold Date.daysIn Date.IsLeap
      dsimp only
      split_ifs <;> omega

/-- Every number of days is that of a day. -/
theorem exists_days (n : ℤ) : ∃ t : MarchDay, t.Valid ∧ t.days = n := by
  obtain ⟨c, q, a, doy, hc, hq, ha, hdoy, hleap, hdoe⟩ :=
    exists_yearOfEra (show 0 ≤ (n + 719468) % 146097 ∧ (n + 719468) % 146097 < 146097 by omega)
  have hsame : (153 * ((5 * doy + 2) / 153) + 2) / 5 +
      (doy - (153 * ((5 * doy + 2) / 153) + 2) / 5 + 1) - 1 = doy := by omega
  refine ⟨⟨(n + 719468) / 146097, c, q, a, (5 * doy + 2) / 153,
    doy - (153 * ((5 * doy + 2) / 153) + 2) / 5 + 1⟩, ⟨hc, hq, ha, ?_, ?_, ?_, ?_⟩, ?_⟩
  · dsimp only
    omega
  · dsimp only
    omega
  · show _ + _ - 1 ≤ (365 : ℤ)
    rw [hsame]
    exact hdoy.2
  · show _ + _ - 1 = (365 : ℤ) → _
    rw [hsame]
    exact hleap
  · unfold days dayOfEra MarchDay.dayOfYear
    dsimp only
    omega

/-- Every date is that of a day. -/
theorem exists_date {date : Date} (h : date.Valid) : ∃ t : MarchDay, t.Valid ∧ t.date = date := by
  obtain ⟨y, m, d⟩ := date
  obtain ⟨hm, hm', hd, hd'⟩ := h
  unfold Date.daysIn Date.IsLeap at hd'
  dsimp only at hm hm' hd hd'
  by_cases hlate : m ≤ 2
  · refine ⟨⟨(y - 1) / 400, (y - 1) % 400 / 100, (y - 1) % 100 / 4, (y - 1) % 4, m + 9, d⟩, ?_, ?_⟩
    · split_ifs at hd' <;> constructor <;> (try unfold MarchDay.dayOfYear) <;> dsimp only <;> omega
    · unfold date
      dsimp only
      rw [if_neg (by omega)]
      congr 1 <;> omega
  · refine ⟨⟨y / 400, y % 400 / 100, y % 100 / 4, y % 4, m - 3, d⟩, ?_, ?_⟩
    · interval_cases m <;> split_ifs at hd' <;> constructor <;> (try unfold MarchDay.dayOfYear) <;>
        dsimp only <;> omega
    · unfold date
      dsimp only
      rw [if_pos (by omega)]
      congr 1 <;> omega

end MarchDay

theorem civilFromDays_valid (n : ℤ) : (civilFromDays n).Valid := by
  obtain ⟨t, ht, rfl⟩ := MarchDay.exists_days n
  rw [ht.civilFromDays_days]
  exact ht.date_valid

theorem daysFromCivil_civilFromDays (n : ℤ) : daysFromCivil (civilFromDays n) = n := by
  obtain ⟨t, ht, rfl⟩ := MarchDay.exists_days n
  rw [ht.civilFromDays_days, ht.daysFromCivil_date]

/-- A date comes back from its number of days. -/
theorem civilFromDays_daysFromCivil {date : Date} (h : date.Valid) :
    civilFromDays (daysFromCivil date) = date := by
  obtain ⟨t, ht, rfl⟩ := MarchDay.exists_date h
  rw [ht.daysFromCivil_date, ht.civilFromDays_days]

/-- The day after is one day later. -/
theorem daysFromCivil_tomorrow {date : Date} (h : date.Valid) :
    daysFromCivil date.tomorrow = daysFromCivil date + 1 := by
  obtain ⟨y, m, d⟩ := date
  obtain ⟨hm, hm', hd, hd'⟩ := h
  dsimp only at hm hm' hd hd'
  unfold Date.tomorrow
  dsimp only
  by_cases hlast : d < Date.daysIn y m
  · rw [if_pos hlast]
    unfold daysFromCivil
    dsimp only
    omega
  · rw [if_neg hlast]
    have hlength : d = Date.daysIn y m := by omega
    unfold Date.daysIn Date.IsLeap at hlength
    unfold daysFromCivil
    interval_cases m <;> simp only [Int.reduceLT, Int.reduceEq, Int.reduceLE, Int.reduceAdd,
      Int.reduceSub, if_true, if_false, or_false, or_true, or_self, gt_iff_lt] at hlength ⊢ <;> omega

theorem civilFromDays_succ (n : ℤ) : civilFromDays (n + 1) = (civilFromDays n).tomorrow := by
  have hnext := civilFromDays_daysFromCivil (civilFromDays_valid n).tomorrow
  rwa [daysFromCivil_tomorrow (civilFromDays_valid n), daysFromCivil_civilFromDays] at hnext

/-- The code's date is the Gregorian one. -/
theorem civilFromDays_eq_ofDays (n : ℤ) : civilFromDays n = Date.ofDays n :=
  Date.eq_ofDays civilFromDays_valid (by decide) civilFromDays_succ n

/-! ## Stamps -/

/-- From the first second of the year 0 to the last of the year 9999. -/
def InRange (seconds : ℤ) : Prop := -62167219200 ≤ seconds ∧ seconds ≤ 253402300799

instance (seconds : ℤ) : Decidable (InRange seconds) := inferInstanceAs (Decidable (_ ∧ _))

example : utcStamp (-62167219200) = "00000101T000000Z".toList ∧
    utcStamp 253402300799 = "99991231T235959Z".toList := by decide +kernel

/-- What a stamp has room for. -/
structure Fits (date : Date) (hour minute second : ℤ) : Prop where
  valid : date.Valid
  year : 0 ≤ date.year ∧ date.year ≤ 9999
  hour : 0 ≤ hour ∧ hour ≤ 23
  minute : 0 ≤ minute ∧ minute ≤ 59
  second : 0 ≤ second ∧ second ≤ 59

theorem fits_of_inRange {seconds : ℤ} (h : InRange seconds) : Fits (civilFromDays (seconds / 86400))
    (seconds % 86400 / 3600) (seconds % 86400 % 3600 / 60) (seconds % 86400 % 60) := by
  obtain ⟨hfirst, hlast⟩ := h
  have hyear : 0 ≤ (civilFromDays (seconds / 86400)).year ∧
      (civilFromDays (seconds / 86400)).year ≤ 9999 := by
    constructor
    · rcases (by omega : -719528 = seconds / 86400 ∨ -719528 < seconds / 86400) with heq | hlt
      · rw [← heq]
        decide
      · rcases Date.before_of_lt civilFromDays_succ hlt with hless | ⟨hsame, -⟩
        · exact Int.le_of_lt hless
        · exact Int.le_of_eq hsame
    · rcases (by omega : seconds / 86400 = 2932896 ∨ seconds / 86400 < 2932896) with heq | hlt
      · rw [heq]
        decide
      · rcases Date.before_of_lt civilFromDays_succ hlt with hless | ⟨hsame, -⟩
        · exact Int.le_of_lt hless
        · exact Int.le_of_eq hsame
  exact ⟨civilFromDays_valid _, hyear, by omega, by omega, by omega⟩

theorem length_padded_of_le {width : ℕ} {n : ℤ} (hwidth : 0 < width) (h : 0 ≤ n) (h' : n < 10 ^ width) :
    (padded width n).length = width := by
  lift n to ℕ using h
  exact length_padded hwidth (by exact_mod_cast h')

theorem parse_padded_of_le {width : ℕ} {n : ℤ} (hwidth : 0 < width) (h : 0 ≤ n) (h' : n < 10 ^ width) :
    parse (padded width n) = some n := by
  lift n to ℕ using h
  exact parse_padded hwidth (by exact_mod_cast h')

/-- The fields of a text of the right lengths. -/
theorem parseUtcStamp_text {y m d hh mm ss : List Char} (hy : y.length = 4) (hm : m.length = 2)
    (hd : d.length = 2) (hhh : hh.length = 2) (hmm : mm.length = 2) (hss : ss.length = 2) :
    parseUtcStamp (y ++ (m ++ (d ++ ('T' :: (hh ++ (mm ++ (ss ++ ['Z']))))))) = (do
      let y ← parse y
      let m ← parse m
      let d ← parse d
      let hh ← parse hh
      let mm ← parse mm
      let ss ← parse ss
      if ¬(1 ≤ m ∧ m ≤ 12) ∨ ¬(1 ≤ d ∧ d ≤ 31) ∨ hh > 23 ∨ mm > 59 ∨ ss > 60 then none else
      return daysFromCivil ⟨y, m, d⟩ * 86400 + hh * 3600 + mm * 60 + ss) := by
  match y, hy with
  | [y₁, y₂, y₃, y₄], _ =>
    obtain ⟨m₁, m₂, rfl⟩ := List.length_eq_two.1 hm
    obtain ⟨d₁, d₂, rfl⟩ := List.length_eq_two.1 hd
    obtain ⟨h₁, h₂, rfl⟩ := List.length_eq_two.1 hhh
    obtain ⟨n₁, n₂, rfl⟩ := List.length_eq_two.1 hmm
    obtain ⟨s₁, s₂, rfl⟩ := List.length_eq_two.1 hss
    unfold parseUtcStamp
    rw [if_neg (by simp)]
    rfl

/-- Every field of a stamp is read back. -/
theorem parseUtcStamp_stampText {date : Date} {hour minute second : ℤ}
    (h : Fits date hour minute second) : parseUtcStamp (stampText date hour minute second) =
      some (daysFromCivil date * 86400 + hour * 3600 + minute * 60 + second) := by
  obtain ⟨⟨hmonth, hmonth', hday, hday'⟩, hyear, hhour, hminute, hsecond⟩ := h
  have hlast := Date.daysIn_le date.year date.month
  have hlen {n : ℤ} (hn : 0 ≤ n ∧ n ≤ 99) : (padded 2 n).length = 2 :=
    length_padded_of_le (by decide) hn.1 (by omega)
  have hparse {n : ℤ} (hn : 0 ≤ n ∧ n ≤ 99) : parse (padded 2 n) = some n :=
    parse_padded_of_le (by decide) hn.1 (by omega)
  unfold stampText
  rw [parseUtcStamp_text (length_padded_of_le (by decide) hyear.1 (by omega)) (hlen (by omega))
    (hlen (by omega)) (hlen (by omega)) (hlen (by omega)) (hlen (by omega)),
    parse_padded_of_le (by decide) hyear.1 (by omega), hparse (by omega), hparse (by omega),
    hparse (by omega), hparse (by omega), hparse (by omega)]
  exact if_neg (by omega)

theorem parseUtcStamp_utcStamp {seconds : ℤ} (h : InRange seconds) :
    parseUtcStamp (utcStamp seconds) = some seconds := by
  unfold utcStamp
  dsimp only
  rw [parseUtcStamp_stampText (fits_of_inRange h), daysFromCivil_civilFromDays]
  congr 1
  omega

/-! ## The order of stamps -/

/-- Fields of one width in front of the rest of a text, in the order of their numbers. -/
theorem padded_append_lt {width : ℕ} {n m : ℤ} {rest rest' : List Char} (hwidth : 0 < width)
    (hn : 0 ≤ n) (hm : m < 10 ^ width) (h : n < m ∨ n = m ∧ rest < rest') :
    padded width n ++ rest < padded width m ++ rest' := by
  rcases h with hless | ⟨rfl, hrest⟩
  · have hlen : (padded width n).length = (padded width m).length := by
      rw [length_padded_of_le hwidth hn (hless.trans hm),
        length_padded_of_le hwidth (hn.trans hless.le) hm]
    refine append_lt_append hlen ?_ rest rest'
    lift n to ℕ using hn
    lift m to ℕ using by omega
    exact padded_lt_padded hwidth (by exact_mod_cast hm) (by exact_mod_cast hless)
  · exact append_lt_append_left _ hrest

theorem stampText_lt {a b : Date} {hour minute second hour' minute' second' : ℤ}
    (ha : Fits a hour minute second) (hb : Fits b hour' minute' second')
    (h : a.Before b ∨ a = b ∧ (hour < hour' ∨ hour = hour' ∧
      (minute < minute' ∨ minute = minute' ∧ second < second'))) :
    stampText a hour minute second < stampText b hour' minute' second' := by
  have ha' := Date.daysIn_le a.year a.month
  have hb' := Date.daysIn_le b.year b.month
  obtain ⟨⟨hmonth, hmonth', hday, hday'⟩, hyear, hhour, hminute, hsecond⟩ := ha
  obtain ⟨⟨kmonth, kmonth', kday, kday'⟩, kyear, khour, kminute, ksecond⟩ := hb
  have hclock (hless : hour < hour' ∨ hour = hour' ∧
      (minute < minute' ∨ minute = minute' ∧ second < second')) :
      'T' :: (padded 2 hour ++ (padded 2 minute ++ (padded 2 second ++ ['Z']))) <
        'T' :: (padded 2 hour' ++ (padded 2 minute' ++ (padded 2 second' ++ ['Z']))) := by
    refine List.Lex.cons (padded_append_lt (by decide) hhour.1 (by omega) ?_)
    refine hless.imp_right fun hless => ⟨hless.1, ?_⟩
    refine padded_append_lt (by decide) hminute.1 (by omega) ?_
    refine hless.2.imp_right fun hless => ⟨hless.1, ?_⟩
    exact padded_append_lt (by decide) hsecond.1 (by omega) (.inl hless.2)
  unfold stampText
  refine padded_append_lt (by decide) hyear.1 (by omega) ?_
  rcases h with (hless | ⟨hsame, hless⟩) | ⟨rfl, hless⟩
  · exact .inl hless
  · refine .inr ⟨hsame, padded_append_lt (by decide) (by omega) (by omega) ?_⟩
    refine hless.imp_right fun hless => ⟨hless.1, ?_⟩
    exact padded_append_lt (by decide) (by omega) (by omega) (.inl hless.2)
  · refine .inr ⟨rfl, padded_append_lt (by decide) (by omega) (by omega) (.inr ⟨rfl, ?_⟩)⟩
    exact padded_append_lt (by decide) (by omega) (by omega) (.inr ⟨rfl, hclock hless⟩)

theorem utcStamp_lt {s t : ℤ} (hs : InRange s) (ht : InRange t) (h : s < t) :
    utcStamp s < utcStamp t := by
  refine stampText_lt (fits_of_inRange hs) (fits_of_inRange ht) ?_
  rcases (by omega : s / 86400 < t / 86400 ∨ s / 86400 = t / 86400) with hless | hsame
  · exact .inl (Date.before_of_lt civilFromDays_succ hless)
  · exact .inr ⟨congrArg _ hsame, by omega⟩

theorem length_padded_two {n : ℤ} (h : 0 ≤ n ∧ n ≤ 99) : (padded 2 n).length = 2 :=
  length_padded_of_le (by decide) h.1 (by omega)

theorem length_utcStamp {s : ℤ} (h : InRange s) : (utcStamp s).length = 16 := by
  obtain ⟨⟨hmonth, hmonth', hday, hday'⟩, hyear, hhour, hminute, hsecond⟩ := fits_of_inRange h
  have hlast := Date.daysIn_le (civilFromDays (s / 86400)).year (civilFromDays (s / 86400)).month
  unfold utcStamp stampText
  simp only [List.length_append, List.length_cons, List.length_nil]
  rw [length_padded_of_le (by decide) hyear.1 (by omega), length_padded_two (by omega),
    length_padded_two (by omega), length_padded_two (by omega), length_padded_two (by omega),
    length_padded_two (by omega)]

/-- Stamps of different seconds differ, whatever the year. -/
theorem utcStamp_inj {s t : ℤ} (h : utcStamp s = utcStamp t) : s = t := by
  have hfields {n m : ℤ} (hn : 0 ≤ n ∧ n ≤ 99) (hm : 0 ≤ m ∧ m ≤ 99) {rest rest' : List Char}
      (heq : padded 2 n ++ rest = padded 2 m ++ rest') : n = m ∧ rest = rest' := by
    have hlen : (padded 2 n).length = (padded 2 m).length := by
      rw [length_padded_two hn, length_padded_two hm]
    have hsplit := List.append_inj heq hlen
    exact ⟨padded_inj hsplit.1, hsplit.2⟩
  have hdate (r : ℤ) : (0 ≤ (civilFromDays r).month ∧ (civilFromDays r).month ≤ 99) ∧
      0 ≤ (civilFromDays r).day ∧ (civilFromDays r).day ≤ 99 := by
    obtain ⟨hmonth, hmonth', hday, hday'⟩ := civilFromDays_valid r
    have hlast := Date.daysIn_le (civilFromDays r).year (civilFromDays r).month
    omega
  have hclock (r : ℤ) : (0 ≤ r % 86400 / 3600 ∧ r % 86400 / 3600 ≤ 99) ∧
      (0 ≤ r % 86400 % 3600 / 60 ∧ r % 86400 % 3600 / 60 ≤ 99) ∧
      0 ≤ r % 86400 % 60 ∧ r % 86400 % 60 ≤ 99 := by omega
  unfold utcStamp stampText at h
  -- The year may have any number of digits; what follows it has twelve characters.
  have hyear : padded 4 (civilFromDays (s / 86400)).year = padded 4 (civilFromDays (t / 86400)).year ∧
      _ = _ := List.append_inj' h (by
    simp only [List.length_append, List.length_cons, List.length_nil]
    rw [length_padded_two (hdate _).1, length_padded_two (hdate _).2, length_padded_two (hclock s).1,
      length_padded_two (hclock s).2.1, length_padded_two (hclock s).2.2,
      length_padded_two (hdate _).1, length_padded_two (hdate _).2, length_padded_two (hclock t).1,
      length_padded_two (hclock t).2.1, length_padded_two (hclock t).2.2])
  obtain ⟨hyear, hrest⟩ := hyear
  obtain ⟨hmonth, hrest⟩ := hfields (hdate _).1 (hdate _).1 hrest
  obtain ⟨hday, hrest⟩ := hfields (hdate _).2 (hdate _).2 hrest
  obtain ⟨hhour, hrest⟩ := hfields (hclock s).1 (hclock t).1 (List.cons.inj hrest).2
  obtain ⟨hminute, hrest⟩ := hfields (hclock s).2.1 (hclock t).2.1 hrest
  obtain ⟨hsecond, -⟩ := hfields (hclock s).2.2 (hclock t).2.2 hrest
  have hsame : civilFromDays (s / 86400) = civilFromDays (t / 86400) := by
    have hparts (r : ℤ) : civilFromDays r =
        ⟨(civilFromDays r).year, (civilFromDays r).month, (civilFromDays r).day⟩ := rfl
    rw [hparts (s / 86400), padded_inj hyear, hmonth, hday, ← hparts]
  have hdays := congrArg daysFromCivil hsame
  rw [daysFromCivil_civilFromDays, daysFromCivil_civilFromDays] at hdays
  omega

/-- A name that begins with the stamp of a second. -/
def stampedName (entry : ℤ × List Char) : List Char := utcStamp entry.1 ++ entry.2

/-- Stamps are read back, show the date and time of their seconds, and sort like them, so the last of
a sorted listing has the latest stamp. -/
theorem stamps_code_seconds :
    (∀ s, InRange s → parseUtcStamp (utcStamp s) = some s ∧ utcStamp s = stampText
      (Date.ofDays (s / 86400)) (s % 86400 / 3600) (s % 3600 / 60) (s % 60)) ∧
    (∀ s t, InRange s → InRange t → s < t → utcStamp s < utcStamp t) ∧
    ∀ (listing : List (ℤ × List Char)) last, (∀ entry ∈ listing, InRange entry.1) →
      (listing.map stampedName).Pairwise (· ≤ ·) → listing.getLast? = some last →
      ∀ entry ∈ listing, entry.1 ≤ last.1 := by
  refine ⟨fun s hs => ⟨parseUtcStamp_utcStamp hs, ?_⟩, fun s t => utcStamp_lt, ?_⟩
  · unfold utcStamp
    dsimp only
    rw [civilFromDays_eq_ofDays]
    congr 1 <;> omega
  · intro listing last hrange hsorted hlast entry hentry
    obtain ⟨front, rfl⟩ := List.getLast?_eq_some_iff.1 hlast
    rcases List.mem_append.1 hentry with hfront | hsame
    · rw [List.map_append, List.pairwise_append] at hsorted
      have hle := hsorted.2.2 _ (List.mem_map_of_mem hfront) _ (List.mem_map_of_mem List.mem_cons_self)
      by_contra hmore
      have hs := hrange last (by simp)
      have ht := hrange entry hentry
      have hlen : (utcStamp last.1).length = (utcStamp entry.1).length := by
        rw [length_utcStamp hs, length_utcStamp ht]
      exact not_lt_of_ge hle (append_lt_append hlen (utcStamp_lt hs ht (by omega)) last.2 entry.2)
    · rw [List.mem_singleton.1 hsame]

end Backup

end DistrHnsw
