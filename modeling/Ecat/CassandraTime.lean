import Ecat.CalendarMonths
import Ecat.Delimited
import Ecat.Digits

/-! Dates, times of day and timestamps of CQL as texts. The dates are those of the calendar, and no two
values have one text. -/

namespace Ecat.Cassandra

open Calendar (Date EraDay dateOfDay dayOfDate dateOfDay_day dateOfDay_month dateOfDay_valid
  dayOfDate_dateOfDay eraDay eraDay_bounds marchDate monthStart yearStart yearStart_eraDay)

/-- An `i64` that is computed; `none` is an overflow. -/
def i64 (n : Int) : Option Int := if -2 ^ 63 ≤ n ∧ n < 2 ^ 63 then some n else none

def asU32 (n : Int) : UInt32 := .ofNat (n % 2 ^ 32).toNat

/-! The values that a day is counted through, each with the sums that it is computed by. -/

def era (z : Int) : Option Int := do
  let shifted ← if 0 ≤ z then some z else i64 (z - 146096)
  return shifted.tdiv 146097

def dayOfEra (z era : Int) : Option Int := do i64 (z - (← i64 (era * 146097)))

def yearOfEra (dayOfEra : Int) : Option Int := do
  let days ← i64 (dayOfEra - dayOfEra.tdiv 1460)
  let days ← i64 (days + dayOfEra.tdiv 36524)
  let days ← i64 (days - dayOfEra.tdiv 146096)
  return days.tdiv 365

def dayOfYear (dayOfEra yearOfEra : Int) : Option Int := do
  let days ← i64 (365 * yearOfEra)
  let days ← i64 (days + yearOfEra.tdiv 4)
  let days ← i64 (days - yearOfEra.tdiv 100)
  i64 (dayOfEra - days)

def monthPrime (dayOfYear : Int) : Option Int := do
  let n ← i64 (5 * dayOfYear)
  let n ← i64 (n + 2)
  return n.tdiv 153

def dayOfMonth (dayOfYear monthPrime : Int) : Option Int := do
  let n ← i64 (153 * monthPrime)
  let n ← i64 (n + 2)
  let n ← i64 (dayOfYear - n.tdiv 5)
  i64 (n + 1)

def monthOf (monthPrime : Int) : Option Int := if monthPrime < 10 then i64 (monthPrime + 3) else i64 (monthPrime - 9)

/-- Days since 1970-01-01 to year, month and day. -/
def civilFromDays (days : Int) : Option (Int × UInt32 × UInt32) := do
  let z ← i64 (days + 719468)
  let era ← era z
  let dayOfEra ← dayOfEra z era
  let yearOfEra ← yearOfEra dayOfEra
  let eraYears ← i64 (era * 400)
  let year ← i64 (yearOfEra + eraYears)
  let dayOfYear ← dayOfYear dayOfEra yearOfEra
  let monthPrime ← monthPrime dayOfYear
  let day ← dayOfMonth dayOfYear monthPrime
  let month ← monthOf monthPrime
  let year ← if month ≤ 2 then i64 (year + 1) else some year
  return (year, asU32 month, asU32 day)

def dateText (year : Int) (month day : UInt32) : List Char :=
  padInt 4 year ++ '-' :: padNat 2 month.toNat ++ '-' :: padNat 2 day.toNat

/-- Hour, minute and second of a count of seconds. -/
def clockText (seconds : Int) : List Char :=
  padInt 2 (seconds.tdiv 3600) ++ ':' :: padInt 2 ((seconds.tdiv 60).tmod 60) ++ ':' :: padInt 2 (seconds.tmod 60)

/-- What is left of a second, if anything is. -/
def fractionText (width : Nat) (n : Int) : List Char := if n = 0 then [] else '.' :: padInt width n

/-- The day of a date, whose days are counted from 2^31 of them before 1970. -/
def dateDays (days : UInt32) : Int := days.toNat - 2 ^ 31

def formatDate (days : UInt32) : Option String := do
  let (year, month, day) ← civilFromDays (dateDays days)
  return .ofList (dateText year month day)

def formatTime (nanos : Int64) : String :=
  .ofList (clockText (nanos.toInt / 1000000000) ++ fractionText 9 (nanos.toInt % 1000000000))

def timestampDays (millis : Int64) : Int := millis.toInt / 86400000

def formatTimestamp (millis : Int64) : Option String := do
  let dayMillis := millis.toInt % 86400000
  let (year, month, day) ← civilFromDays (timestampDays millis)
  return .ofList (dateText year month day ++
    'T' :: (clockText (dayMillis.tdiv 1000) ++ fractionText 3 (dayMillis.tmod 1000)) ++ ['Z'])

/-! ### The calendar -/

theorem i64_of {n : Int} (h : -2 ^ 63 ≤ n ∧ n < 2 ^ 63) : i64 n = some n := if_pos h

theorem asU32_toNat {n : Int} (h0 : 0 ≤ n) (h : n < 2 ^ 32) : ((asU32 n).toNat : Int) = n := by
  rw [asU32, UInt32.toNat_ofNat']
  omega

theorem tdiv_of_nonpos {a : Int} (b : Int) (h : a ≤ 0) : a.tdiv b = -(-a / b) := by
  rw [← Int.tdiv_eq_ediv_of_nonneg (by omega), Int.neg_tdiv, neg_neg]

/-- The era is rounded down before 0000-03-01, too. -/
theorem era_eq {z : Int} (h : -2 ^ 62 ≤ z) : era z = some (z / 146097) := by
  unfold era
  split_ifs with hz
  · simp only [Option.bind_eq_bind, Option.bind_some, Option.pure_def, Int.tdiv_eq_ediv_of_nonneg hz]
  · rw [i64_of (by omega)]
    simp only [Option.bind_eq_bind, Option.bind_some, Option.pure_def]
    rw [tdiv_of_nonpos _ (by omega)]
    congr 1
    omega

theorem dayOfEra_eq {z : Int} (h : -2 ^ 62 ≤ z ∧ z < 2 ^ 62) : dayOfEra z (z / 146097) = some (z % 146097) := by
  have hmod : z - z / 146097 * 146097 = z % 146097 := by omega
  simp only [dayOfEra, Option.bind_eq_bind]
  rw [i64_of (by omega), Option.bind_some, i64_of (by omega), hmod]

theorem year_eraDay {doe : Int} (h0 : 0 ≤ doe) (h1 : doe < 146097) :
    (doe - doe / 1460 + doe / 36524 - doe / 146096) / 365 = (eraDay doe).year := by
  obtain ⟨c, q, y, d, hyear, hdoe, hc, hq, hy, hd, hcentury, hleap⟩ : ∃ c q y d : Int,
      (eraDay doe).year = 100 * c + 4 * q + y ∧ doe = 36524 * c + 1461 * q + 365 * y + d ∧
      (0 ≤ c ∧ c ≤ 3) ∧ (0 ≤ q ∧ q ≤ 24) ∧ (0 ≤ y ∧ y ≤ 3) ∧ (0 ≤ d ∧ d ≤ 365) ∧
      (c < 3 → 1461 * q + 365 * y + d < 36524) ∧ (d = 365 → y = 3) := by
    refine ⟨_, _, _, (eraDay doe).dayOfYear, rfl, ?_, ?_, ?_, ?_, ?_, ?_, ?_⟩ <;> simp only [eraDay] <;> omega
  -- the days of the leap years that are over, and of this one on its last days
  have hleaps : doe / 1460 = 25 * c + q ∧ d ≤ 364 ∨ doe / 1460 = 25 * c + q + 1 ∧ 1 ≤ d := by omega
  have hcenturies : doe / 36524 - doe / 146096 = c := by
    by_cases hlast : doe = 146096
    · omega
    · have hc' : 1461 * q + 365 * y + d < 36524 := by omega
      omega
  omega

theorem yearOfEra_eq {doe : Int} (h0 : 0 ≤ doe) (h1 : doe < 146097) : yearOfEra doe = some (eraDay doe).year := by
  simp only [yearOfEra, Option.bind_eq_bind, Option.pure_def, Int.tdiv_eq_ediv_of_nonneg h0]
  rw [i64_of (by omega), Option.bind_some, i64_of (by omega), Option.bind_some, i64_of (by omega), Option.bind_some,
    Int.tdiv_eq_ediv_of_nonneg (by omega), year_eraDay h0 h1]

theorem dayOfYear_eq {doe : Int} (h0 : 0 ≤ doe) (h1 : doe < 146097) :
    dayOfYear doe (eraDay doe).year = some (eraDay doe).dayOfYear := by
  obtain ⟨hy0, hy1, hd0, hd1⟩ := eraDay_bounds h0 h1
  have hstart := yearStart_eraDay h0 h1
  rw [yearStart] at hstart
  have hday : doe - (365 * (eraDay doe).year + (eraDay doe).year / 4 - (eraDay doe).year / 100) =
    (eraDay doe).dayOfYear := by omega
  simp only [dayOfYear, Option.bind_eq_bind, Int.tdiv_eq_ediv_of_nonneg hy0]
  rw [i64_of (by omega), Option.bind_some, i64_of (by omega), Option.bind_some, i64_of (by omega), Option.bind_some,
    i64_of (by omega), hday]

theorem monthPrime_eq {doy : Int} (h0 : 0 ≤ doy) (h1 : doy ≤ 365) : monthPrime doy = some ((5 * doy + 2) / 153) := by
  simp only [monthPrime, Option.bind_eq_bind, Option.pure_def]
  rw [i64_of (by omega), Option.bind_some, i64_of (by omega), Option.bind_some, Int.tdiv_eq_ediv_of_nonneg (by omega)]

theorem dayOfMonth_eq {doy mp : Int} (hd : 0 ≤ doy ∧ doy ≤ 365) (hm : 0 ≤ mp ∧ mp ≤ 11) :
    dayOfMonth doy mp = some (doy - monthStart mp + 1) := by
  simp only [dayOfMonth, Option.bind_eq_bind, monthStart]
  rw [i64_of (by omega), Option.bind_some, i64_of (by omega), Option.bind_some, Int.tdiv_eq_ediv_of_nonneg (by omega),
    i64_of (by omega), Option.bind_some, i64_of (by omega)]

theorem monthOf_eq {mp : Int} (hm : 0 ≤ mp ∧ mp ≤ 11) : monthOf mp = some (if mp < 10 then mp + 3 else mp - 9) := by
  unfold monthOf
  split_ifs <;> exact i64_of (by omega)

/-- No sum overflows, and the date is that of the calendar. -/
theorem civilFromDays_eq {days : Int} (h : -2 ^ 40 ≤ days ∧ days < 2 ^ 40) :
    civilFromDays days =
      some ((dateOfDay days).year, asU32 (dateOfDay days).month, asU32 (dateOfDay days).day) := by
  simp only [civilFromDays, Option.bind_eq_bind, dateOfDay]
  rw [i64_of (by omega), Option.bind_some, era_eq (by omega), Option.bind_some, dayOfEra_eq (by omega), Option.bind_some]
  have hera : -2 ^ 41 ≤ (days + 719468) / 146097 ∧ (days + 719468) / 146097 < 2 ^ 41 := by omega
  have h0 : 0 ≤ (days + 719468) % 146097 := by omega
  have h1 : (days + 719468) % 146097 < 146097 := by omega
  generalize (days + 719468) / 146097 = era at hera ⊢
  generalize (days + 719468) % 146097 = doe at h0 h1 ⊢
  obtain ⟨hy0, hy1, hd0, hd1⟩ := eraDay_bounds h0 h1
  have hmp : 0 ≤ (5 * (eraDay doe).dayOfYear + 2) / 153 ∧ (5 * (eraDay doe).dayOfYear + 2) / 153 ≤ 11 := by omega
  rw [yearOfEra_eq h0 h1, Option.bind_some, i64_of (by omega), Option.bind_some, i64_of (by omega), Option.bind_some,
    dayOfYear_eq h0 h1, Option.bind_some, monthPrime_eq hd0 hd1, Option.bind_some, dayOfMonth_eq ⟨hd0, hd1⟩ hmp,
    Option.bind_some, monthOf_eq hmp, Option.bind_some]
  simp only [marchDate, add_comm (era * 400)]
  generalize (if (5 * (eraDay doe).dayOfYear + 2) / 153 < 10 then (5 * (eraDay doe).dayOfYear + 2) / 153 + 3
    else (5 * (eraDay doe).dayOfYear + 2) / 153 - 9) = month
  by_cases hmonth : month ≤ 2
  · rw [if_pos hmonth, if_pos hmonth, i64_of (by omega)]
    rfl
  · rw [if_neg hmonth, if_neg hmonth, add_zero]
    rfl

theorem civilFromDays_date {days : Int} (h : -2 ^ 40 ≤ days ∧ days < 2 ^ 40) :
    ∃ month day, civilFromDays days = some ((dateOfDay days).year, month, day) ∧
      (month.toNat : Int) = (dateOfDay days).month ∧ (day.toNat : Int) = (dateOfDay days).day := by
  have hm := dateOfDay_month days
  have hd := dateOfDay_day days
  exact ⟨_, _, civilFromDays_eq h, asU32_toNat (by omega) (by omega), asU32_toNat (by omega) (by omega)⟩

theorem dateDays_range (days : UInt32) : -2 ^ 40 ≤ dateDays days ∧ dateDays days < 2 ^ 40 := by
  have h := days.toNat_lt
  rw [dateDays]
  omega

theorem timestampDays_range (millis : Int64) : -2 ^ 40 ≤ timestampDays millis ∧ timestampDays millis < 2 ^ 40 := by
  have hlow := millis.le_toInt
  have hhigh := millis.toInt_lt
  rw [timestampDays]
  omega

/-! ### The texts -/

theorem dateText_inj {y y' : Int} {m m' d d' : UInt32} (hm : m.toNat < 100) (hm' : m'.toNat < 100) (hd : d.toNat < 100)
    (hd' : d'.toNat < 100) (h : dateText y m d = dateText y' m' d') : y = y' ∧ m = m' ∧ d = d' := by
  have hlength {m d : UInt32} (hm : m.toNat < 100) (hd : d.toNat < 100) :
      (padNat 2 m.toNat).length = 2 ∧ (padNat 2 d.toNat).length = 2 :=
    ⟨length_padNat (by omega) (by omega), length_padNat (by omega) (by omega)⟩
  obtain ⟨hm2, hd2⟩ := hlength hm hd
  obtain ⟨hm2', hd2'⟩ := hlength hm' hd'
  obtain ⟨hfront, hday⟩ := List.append_inj' h (by simp [hd2, hd2'])
  obtain ⟨hyear, hmonth⟩ := List.append_inj' hfront (by simp [hm2, hm2'])
  exact ⟨padInt_inj hyear, UInt32.toNat_inj.1 (padNat_inj (List.cons.inj hmonth).2),
    UInt32.toNat_inj.1 (padNat_inj (List.cons.inj hday).2)⟩

theorem not_mem_dateText {c : Char} (hne : c ≠ '-') (hdigit : c.isDigit = false) (y : Int) (m d : UInt32) :
    c ∉ dateText y m d := by
  have hpad (w n : Nat) : c ∉ padNat w n := by
    intro h
    exact absurd (hdigit.symm.trans (isDigit_of_mem_padNat h)) (by simp)
  simp [dateText, not_mem_padInt hne hdigit, hpad, hne]

theorem not_mem_clockText {c : Char} (hne : c ≠ '-') (hcolon : c ≠ ':') (hdigit : c.isDigit = false) (s : Int) :
    c ∉ clockText s := by
  simp [clockText, not_mem_padInt hne hdigit, hcolon]

/-- Hour, minute and second are of one sign. -/
theorem clock_sum (s : Int) : 3600 * s.tdiv 3600 + 60 * (s.tdiv 60).tmod 60 + s.tmod 60 = s := by
  have hminutes := Int.mul_tdiv_add_tmod s 60
  have hhours := Int.mul_tdiv_add_tmod (s.tdiv 60) 60
  have hdiv : (s.tdiv 60).tdiv 60 = s.tdiv 3600 := by
    by_cases h : 0 ≤ s
    · simp (disch := omega) only [Int.tdiv_eq_ediv_of_nonneg]
      omega
    · simp (disch := omega) only [tdiv_of_nonpos]
      omega
  omega

theorem clockText_inj {s s' : Int} (h : clockText s = clockText s') : s = s' := by
  have hcolon {n : Int} : ':' ∉ padInt 2 n := not_mem_padInt (by decide) (by decide)
  rw [clockText, clockText, List.append_assoc, List.append_assoc, List.cons_append, List.cons_append] at h
  obtain ⟨hhour, hrest⟩ := append_cons_inj hcolon hcolon h
  obtain ⟨hminute, hsecond⟩ := append_cons_inj hcolon hcolon hrest
  rw [← clock_sum s, padInt_inj hhour, padInt_inj hminute, padInt_inj hsecond, clock_sum]

theorem fractionText_inj {w : Nat} {n n' : Int} (h : fractionText w n = fractionText w n') : n = n' := by
  unfold fractionText at h
  split_ifs at h with hn hn' hn'
  · exact hn.trans hn'.symm
  · exact padInt_inj (List.cons.inj h).2

theorem head_fractionText {w : Nat} {n : Int} : ∀ c ∈ (fractionText w n).head?, ¬ c ≠ '.' := by
  unfold fractionText
  split_ifs <;> simp

theorem clock_fraction_inj {w : Nat} {s s' n n' : Int}
    (h : clockText s ++ fractionText w n = clockText s' ++ fractionText w n') : s = s' ∧ n = n' := by
  have hpoint (s : Int) : ∀ c ∈ clockText s, c ≠ '.' := by
    intro c hc heq
    exact not_mem_clockText (by decide) (by decide) (by decide) s (heq ▸ hc)
  obtain ⟨hclock, hfraction⟩ := append_inj_of_span (· ≠ '.') (hpoint s) (hpoint s') head_fractionText head_fractionText h
  exact ⟨clockText_inj hclock, fractionText_inj hfraction⟩

theorem formatTime_injective : Function.Injective formatTime := by
  intro t t' h
  obtain ⟨hseconds, hnanos⟩ := clock_fraction_inj (String.ofList_inj.1 h)
  apply Int64.toInt_inj.1
  omega

theorem dateOfDay_inj {days days' : Int} (h : dateOfDay days = dateOfDay days') : days = days' := by
  rw [← dayOfDate_dateOfDay days, h, dayOfDate_dateOfDay]

/-- The date in a text is that of one day. -/
theorem exists_dateText {days : Int} (h : -2 ^ 40 ≤ days ∧ days < 2 ^ 40) :
    ∃ y m d, civilFromDays days = some (y, m, d) ∧ m.toNat < 100 ∧ d.toNat < 100 ∧
      dateOfDay days = ⟨y, m.toNat, d.toNat⟩ := by
  obtain ⟨m, d, hcivil, hm, hd⟩ := civilFromDays_date h
  have hmonth := dateOfDay_month days
  have hday := dateOfDay_day days
  refine ⟨_, m, d, hcivil, by omega, by omega, ?_⟩
  rw [hm, hd]

theorem formatDate_injective : Function.Injective formatDate := by
  intro t t' h
  obtain ⟨y, m, d, hcivil, hm, hd, hdate⟩ := exists_dateText (dateDays_range t)
  obtain ⟨y', m', d', hcivil', hm', hd', hdate'⟩ := exists_dateText (dateDays_range t')
  simp only [formatDate, hcivil, hcivil', Option.bind_eq_bind, Option.bind_some, Option.pure_def, Option.some.injEq] at h
  obtain ⟨rfl, rfl, rfl⟩ := dateText_inj hm hm' hd hd' (String.ofList_inj.1 h)
  have hdays := dateOfDay_inj (hdate.trans hdate'.symm)
  rw [dateDays, dateDays] at hdays
  apply UInt32.toNat_inj.1
  omega

theorem formatTimestamp_injective : Function.Injective formatTimestamp := by
  intro t t' h
  obtain ⟨y, m, d, hcivil, hm, hd, hdate⟩ := exists_dateText (timestampDays_range t)
  obtain ⟨y', m', d', hcivil', hm', hd', hdate'⟩ := exists_dateText (timestampDays_range t')
  simp only [formatTimestamp, hcivil, hcivil', Option.bind_eq_bind, Option.bind_some, Option.pure_def, Option.some.injEq] at h
  have htext := List.append_cancel_right (String.ofList_inj.1 h)
  have hmark (y : Int) (m d : UInt32) : 'T' ∉ dateText y m d := not_mem_dateText (by decide) (by decide) y m d
  obtain ⟨hdatetext, hclock⟩ := append_cons_inj (hmark y m d) (hmark y' m' d') htext
  obtain ⟨rfl, rfl, rfl⟩ := dateText_inj hm hm' hd hd' hdatetext
  have hdays := dateOfDay_inj (hdate.trans hdate'.symm)
  obtain ⟨hseconds, hmillis⟩ := clock_fraction_inj hclock
  have hmod := Int.mul_tdiv_add_tmod (t.toInt % 86400000) 1000
  have hmod' := Int.mul_tdiv_add_tmod (t'.toInt % 86400000) 1000
  rw [timestampDays, timestampDays] at hdays
  apply Int64.toInt_inj.1
  omega

/-- The date that a count of days is turned into has that count, and the calendar has it. -/
def Exact (days : Int) : Prop :=
  ∃ year month day, civilFromDays days = some (year, month, day) ∧
    (⟨year, month.toNat, day.toNat⟩ : Date).Valid ∧ dayOfDate ⟨year, month.toNat, day.toNat⟩ = days

theorem exact_of_range {days : Int} (h : -2 ^ 40 ≤ days ∧ days < 2 ^ 40) : Exact days := by
  obtain ⟨y, m, d, hcivil, -, -, hdate⟩ := exists_dateText h
  exact ⟨y, m, d, hcivil, hdate ▸ dateOfDay_valid days, hdate ▸ dayOfDate_dateOfDay days⟩

/-- Every date and every timestamp has its day in the calendar, and no two have one text. -/
theorem calendar_texts_exact :
    (∀ days : UInt32, Exact (dateDays days)) ∧ (∀ millis : Int64, Exact (timestampDays millis)) ∧
    (∀ days : UInt32, (formatDate days).isSome) ∧ (∀ millis : Int64, (formatTimestamp millis).isSome) ∧
    Function.Injective formatDate ∧ Function.Injective formatTimestamp := by
  refine ⟨fun days => exact_of_range (dateDays_range days), fun millis => exact_of_range (timestampDays_range millis),
    ?_, ?_, formatDate_injective, formatTimestamp_injective⟩
  · intro days
    obtain ⟨y, m, d, hcivil, -⟩ := exists_dateText (dateDays_range days)
    simp [formatDate, hcivil]
  · intro millis
    obtain ⟨y, m, d, hcivil, -⟩ := exists_dateText (timestampDays_range millis)
    simp [formatTimestamp, hcivil]

end Ecat.Cassandra
