import Mathlib

/-! The proleptic Gregorian calendar over day numbers from 1970-01-01, and times of day as
texts `YYYY-MM-DD hh:mm:ss`, with a minus sign before negative years. -/

namespace Ecat.Calendar

/-- A date as the calendar writes it. -/
structure Date where
  year : Int
  month : Int
  day : Int
  deriving DecidableEq, Repr

/-! ### Days and dates -/

/-- The place of a day in its era of 400 years, which starts on the first of March. -/
structure EraDay where
  century : Int
  leapCycle : Int
  yearOfCycle : Int
  dayOfYear : Int

def eraDay (doe : Int) : EraDay :=
  let century := min (doe / 36524) 3
  let doc := doe - 36524 * century
  let leapCycle := doc / 1461
  let doq := doc - 1461 * leapCycle
  let yearOfCycle := min (doq / 365) 3
  ⟨century, leapCycle, yearOfCycle, doq - 365 * yearOfCycle⟩

def EraDay.year (e : EraDay) : Int := 100 * e.century + 4 * e.leapCycle + e.yearOfCycle

def yearStart (yearOfEra : Int) : Int := 365 * yearOfEra + yearOfEra / 4 - yearOfEra / 100

/-- Days from the first of March to the start of a month, where March is month zero. -/
def monthStart (m : Int) : Int := (153 * m + 2) / 5

def marchDate (era yearOfEra dayOfYear : Int) : Date :=
  let m := (5 * dayOfYear + 2) / 153
  let month := if m < 10 then m + 3 else m - 9
  ⟨era * 400 + yearOfEra + if month ≤ 2 then 1 else 0, month, dayOfYear - monthStart m + 1⟩

def dateOfDay (day : Int) : Date :=
  let z := day + 719468
  marchDate (z / 146097) (eraDay (z % 146097)).year (eraDay (z % 146097)).dayOfYear

def dayOfDate (d : Date) : Int :=
  let year := if d.month ≤ 2 then d.year - 1 else d.year
  let m := if d.month ≤ 2 then d.month + 9 else d.month - 3
  year / 400 * 146097 + yearStart (year % 400) + monthStart m + (d.day - 1) - 719468

theorem eraDay_bounds {d : Int} (h0 : 0 ≤ d) (h1 : d < 146097) :
    0 ≤ (eraDay d).year ∧ (eraDay d).year < 400 ∧
      0 ≤ (eraDay d).dayOfYear ∧ (eraDay d).dayOfYear ≤ 365 := by
  simp only [eraDay, EraDay.year]
  omega

theorem yearStart_split {c q y : Int} (hq0 : 0 ≤ q) (hq : q ≤ 24) (hy0 : 0 ≤ y) (hy : y ≤ 3) :
    yearStart (100 * c + 4 * q + y) = 36524 * c + 1461 * q + 365 * y := by
  have h4 : (100 * c + 4 * q + y) / 4 = 25 * c + q := by omega
  have h100 : (100 * c + 4 * q + y) / 100 = c := by omega
  rw [yearStart, h4, h100]
  ring

theorem yearStart_eraDay {doe : Int} (h0 : 0 ≤ doe) (h1 : doe < 146097) :
    yearStart (eraDay doe).year + (eraDay doe).dayOfYear = doe := by
  have hq : 0 ≤ (eraDay doe).leapCycle ∧ (eraDay doe).leapCycle ≤ 24 := by
    simp only [eraDay]
    omega
  have hy : 0 ≤ (eraDay doe).yearOfCycle ∧ (eraDay doe).yearOfCycle ≤ 3 := by
    simp only [eraDay]
    omega
  rw [EraDay.year, yearStart_split hq.1 hq.2 hy.1 hy.2]
  simp only [eraDay]
  ring

theorem dayOfDate_marchDate {era y d : Int} (hy0 : 0 ≤ y) (hy : y < 400) (hd0 : 0 ≤ d) (hd : d ≤ 365) :
    dayOfDate (marchDate era y d) = era * 146097 + yearStart y + d - 719468 := by
  have hm : 0 ≤ (5 * d + 2) / 153 ∧ (5 * d + 2) / 153 ≤ 11 := by omega
  have hdiv : (era * 400 + y) / 400 = era := by omega
  have hmod : (era * 400 + y) % 400 = y := by omega
  unfold dayOfDate marchDate
  generalize (5 * d + 2) / 153 = m at hm ⊢
  by_cases hlt : m < 10
  · have h3 : ¬ m + 3 ≤ 2 := by omega
    simp only [if_pos hlt, if_neg h3, add_zero, hdiv, hmod, add_sub_cancel_right]
    ring
  · have h9 : m - 9 ≤ 2 := by omega
    simp only [if_neg hlt, if_pos h9, add_sub_cancel_right, sub_add_cancel, hdiv, hmod]
    ring

theorem dayOfDate_dateOfDay (day : Int) : dayOfDate (dateOfDay day) = day := by
  have h0 : 0 ≤ (day + 719468) % 146097 := by omega
  have h1 : (day + 719468) % 146097 < 146097 := by omega
  obtain ⟨hy0, hy1, hd0, hd1⟩ := eraDay_bounds h0 h1
  have hstart := yearStart_eraDay h0 h1
  rw [dateOfDay, dayOfDate_marchDate hy0 hy1 hd0 hd1]
  omega

theorem dateOfDay_month (day : Int) : 1 ≤ (dateOfDay day).month ∧ (dateOfDay day).month ≤ 12 := by
  obtain ⟨-, -, hd0, hd1⟩ := eraDay_bounds (d := (day + 719468) % 146097) (by omega) (by omega)
  simp only [dateOfDay, marchDate]
  split_ifs <;> omega

theorem dateOfDay_day (day : Int) : 1 ≤ (dateOfDay day).day ∧ (dateOfDay day).day ≤ 31 := by
  obtain ⟨-, -, hd0, hd1⟩ := eraDay_bounds (d := (day + 719468) % 146097) (by omega) (by omega)
  simp only [dateOfDay, marchDate, monthStart]
  omega

theorem dateOfDay_year (day : Int) (hlo : -4371587 ≤ day) (hhi : day ≤ 2932896) :
    -9999 ≤ (dateOfDay day).year ∧ (dateOfDay day).year ≤ 9999 := by
  have h0 : 0 ≤ (day + 719468) % 146097 := by omega
  have h1 : (day + 719468) % 146097 < 146097 := by omega
  obtain ⟨hy0, hy1, hd0, hd1⟩ := eraDay_bounds h0 h1
  have hstart := yearStart_eraDay h0 h1
  simp only [dateOfDay, marchDate]
  rw [yearStart] at hstart
  split_ifs <;> omega

/-! ### Texts -/

def digit (n : Int) : Char := Char.ofNat (48 + n.toNat)

def two (n : Int) : List Char := [digit (n / 10), digit (n % 10)]

def four (n : Int) : List Char := two (n / 100) ++ two (n % 100)

def sign (year : Int) : List Char := if year < 0 then ['-'] else []

def timeText (t : Int) : String :=
  let d := dateOfDay (t / 86400)
  let s := t % 86400
  String.ofList (sign d.year ++ four d.year.natAbs ++ '-' :: two d.month ++ '-' :: two d.day ++
    ' ' :: two (s / 3600) ++ ':' :: two (s / 60 % 60) ++ ':' :: two (s % 60))

def readDigit (c : Char) : Option Int := if c.isDigit then some (c.toNat - 48) else none

def readTwo (a b : Char) : Option Int := do return (← readDigit a) * 10 + (← readDigit b)

def readFields (negative : Bool) : List Char → Option Int
  | [a, b, c, d, '-', m, m', '-', e, e', ' ', h, h', ':', n, n', ':', s, s'] => do
    let year := (← readTwo a b) * 100 + (← readTwo c d)
    let day := dayOfDate ⟨if negative then -year else year, ← readTwo m m', ← readTwo e e'⟩
    return day * 86400 + (← readTwo h h') * 3600 + (← readTwo n n') * 60 + (← readTwo s s')
  | _ => none

def readChars : List Char → Option Int
  | '-' :: cs => readFields true cs
  | cs => readFields false cs

def readTime (text : String) : Option Int := readChars text.toList

theorem readDigit_digit {n : Int} (h0 : 0 ≤ n) (h : n < 10) : readDigit (digit n) = some n := by
  interval_cases n <;> rfl

theorem readTwo_two {n : Int} (h0 : 0 ≤ n) (h : n < 100) :
    readTwo (digit (n / 10)) (digit (n % 10)) = some n := by
  rw [readTwo, readDigit_digit (by omega) (by omega), readDigit_digit (by omega) (by omega)]
  simp only [Option.pure_def, Option.bind_eq_bind, Option.bind_some, Option.some.injEq]
  omega

theorem digit_ne_minus {n : Int} (h0 : 0 ≤ n) (h : n < 10) : digit n ≠ '-' := by
  interval_cases n <;> decide

theorem readFields_text (negative : Bool) (year month day hour minute second : Int)
    (hyear : 0 ≤ year ∧ year ≤ 9999) (hmonth : 0 ≤ month ∧ month < 100) (hday : 0 ≤ day ∧ day < 100)
    (hhour : 0 ≤ hour ∧ hour < 100) (hminute : 0 ≤ minute ∧ minute < 100)
    (hsecond : 0 ≤ second ∧ second < 100) :
    readFields negative (four year ++ '-' :: two month ++ '-' :: two day ++ ' ' :: two hour ++
      ':' :: two minute ++ ':' :: two second) =
      some (dayOfDate ⟨if negative then -year else year, month, day⟩ * 86400 + hour * 3600 +
        minute * 60 + second) := by
  have hy : year / 100 * 100 + year % 100 = year := by omega
  simp only [four, two, List.cons_append, List.nil_append, readFields]
  rw [readTwo_two (n := year / 100) (by omega) (by omega), readTwo_two (n := year % 100) (by omega) (by omega),
    readTwo_two hmonth.1 hmonth.2, readTwo_two hday.1 hday.2, readTwo_two hhour.1 hhour.2,
    readTwo_two hminute.1 hminute.2, readTwo_two hsecond.1 hsecond.2]
  simp only [Option.pure_def, Option.bind_eq_bind, Option.bind_some, hy]

theorem readChars_of_ne {c : Char} {cs : List Char} (h : c ≠ '-') :
    readChars (c :: cs) = readFields false (c :: cs) := by
  unfold readChars
  split
  · rename_i heq
    cases heq
    exact absurd rfl h
  · rfl

/-- Texts of the years -9999 to 9999 name the second they were made from. -/
theorem readTime_timeText {t : Int} (hlo : -377705116800 ≤ t) (hhi : t < 253402300800) :
    readTime (timeText t) = some t := by
  obtain ⟨hy0, hy1⟩ := dateOfDay_year (t / 86400) (by omega) (by omega)
  have hm := dateOfDay_month (t / 86400)
  have hd := dateOfDay_day (t / 86400)
  have hback := dayOfDate_dateOfDay (t / 86400)
  rw [readTime, timeText, String.toList_ofList]
  generalize dateOfDay (t / 86400) = date at *
  have hs0 : 0 ≤ t % 86400 ∧ t % 86400 < 86400 := by omega
  have hread := fun negative => readFields_text negative date.year.natAbs date.month date.day
    (t % 86400 / 3600) (t % 86400 / 60 % 60) (t % 86400 % 60) (by omega) (by omega) (by omega) (by omega) (by omega) (by omega)
  have hsum : dayOfDate date * 86400 + t % 86400 / 3600 * 3600 + t % 86400 / 60 % 60 * 60 +
      t % 86400 % 60 = t := by
    rw [hback]
    omega
  by_cases hneg : date.year < 0
  · have hyear : -(date.year.natAbs : Int) = date.year := by omega
    have htrue := hread true
    simp only [if_true, hyear, hsum] at htrue
    rw [sign, if_pos hneg]
    exact htrue
  · have hyear : (date.year.natAbs : Int) = date.year := by omega
    have hfalse := hread false
    simp only [Bool.false_eq_true, if_false, hyear, hsum] at hfalse
    rw [sign, if_neg hneg, hyear]
    exact (readChars_of_ne (digit_ne_minus (by omega) (by omega))).trans hfalse

end Ecat.Calendar
