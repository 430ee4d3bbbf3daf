import Ecat.Calendar

/-! Months of the calendar: how long they are, where they start, and the dates that exist. Months
are counted through from year zero on, so that a span of months is a sum of numbers. -/

namespace Ecat.Calendar

def isLeapYear (year : Int) : Bool := year % 4 = 0 && (year % 100 ≠ 0 || year % 400 = 0)

def daysInMonth (year month : Int) : Int :=
  if month = 2 then if isLeapYear year then 29 else 28
  else if month = 4 ∨ month = 6 ∨ month = 9 ∨ month = 11 then 30
  else 31

theorem isLeapYear_iff (year : Int) :
    isLeapYear year = true ↔ year % 4 = 0 ∧ (year % 100 ≠ 0 ∨ year % 400 = 0) := by
  simp [isLeapYear]

/-- A date that the calendar has. -/
structure Date.Valid (d : Date) : Prop where
  month : 1 ≤ d.month ∧ d.month ≤ 12
  day : 1 ≤ d.day ∧ d.day ≤ daysInMonth d.year d.month

/-- The number of a date's month, counted from January of year zero. -/
def Date.monthIndex (d : Date) : Int := d.year * 12 + (d.month - 1)

def firstOfMonth (n : Int) : Int := dayOfDate ⟨n / 12, n % 12 + 1, 1⟩

/-- Days from the first of March of year zero to that of a year. -/
def marchDays (year : Int) : Int := 365 * year + year / 4 - year / 100 + year / 400

theorem era_days (year : Int) : year / 400 * 146097 + yearStart (year % 400) = marchDays year := by
  rw [yearStart, marchDays]
  omega

theorem marchDays_succ (year : Int) :
    marchDays (year + 1) = marchDays year + 365 + if isLeapYear (year + 1) then 1 else 0 := by
  rw [marchDays, marchDays]
  by_cases h : isLeapYear (year + 1) = true
  · rw [if_pos h]
    rw [isLeapYear_iff] at h
    omega
  · rw [if_neg h]
    rw [isLeapYear_iff] at h
    omega

theorem daysInMonth_bounds (year month : Int) : 28 ≤ daysInMonth year month ∧ daysInMonth year month ≤ 31 := by
  rw [daysInMonth]
  split_ifs <;> omega

theorem firstOfMonth_eq (n : Int) : firstOfMonth n =
    if n % 12 < 2 then marchDays (n / 12 - 1) + monthStart (n % 12 + 10) - 719468
    else marchDays (n / 12) + monthStart (n % 12 - 2) - 719468 := by
  rw [firstOfMonth, dayOfDate]
  by_cases h : n % 12 < 2
  · have h2 : n % 12 + 1 ≤ 2 := by omega
    simp only [if_pos h, if_pos h2, era_days]
    rw [show n % 12 + 1 + 9 = n % 12 + 10 by ring]
    ring
  · have h2 : ¬ n % 12 + 1 ≤ 2 := by omega
    simp only [if_neg h, if_neg h2, era_days]
    rw [show n % 12 + 1 - 3 = n % 12 - 2 by ring]
    ring

theorem firstOfMonth_succ (n : Int) :
    firstOfMonth (n + 1) = firstOfMonth n + daysInMonth (n / 12) (n % 12 + 1) := by
  have hleap := marchDays_succ (n / 12 - 1)
  rw [sub_add_cancel] at hleap
  rw [firstOfMonth_eq, firstOfMonth_eq, daysInMonth]
  simp only [monthStart]
  by_cases hdec : n % 12 = 11
  · have hdiv : (n + 1) / 12 = n / 12 + 1 := by omega
    have hmod : (n + 1) % 12 = 0 := by omega
    rw [hdiv, hmod, hdec, add_sub_cancel_right]
    norm_num
    ring
  · have hdiv : (n + 1) / 12 = n / 12 := by omega
    have hmod : (n + 1) % 12 = n % 12 + 1 := by omega
    have h0 : 0 ≤ n % 12 := by omega
    have h10 : n % 12 ≤ 10 := by omega
    rw [hdiv, hmod]
    generalize n % 12 = m at h0 h10 ⊢
    -- only February looks at the year
    by_cases hfeb : m = 1
    · rw [hfeb, hleap]
      norm_num
      split_ifs <;> ring
    · interval_cases m <;> norm_num <;> omega

theorem firstOfMonth_strictMono : StrictMono firstOfMonth := by
  refine strictMono_int_of_lt_succ fun n => ?_
  rw [firstOfMonth_succ]
  have h := daysInMonth_bounds (n / 12) (n % 12 + 1)
  omega

theorem monthIndex_div {d : Date} (h : 1 ≤ d.month ∧ d.month ≤ 12) : d.monthIndex / 12 = d.year := by
  rw [Date.monthIndex]
  omega

theorem monthIndex_mod {d : Date} (h : 1 ≤ d.month ∧ d.month ≤ 12) : d.monthIndex % 12 + 1 = d.month := by
  rw [Date.monthIndex]
  omega

theorem dayOfDate_eq {d : Date} (h : 1 ≤ d.month ∧ d.month ≤ 12) :
    dayOfDate d = firstOfMonth d.monthIndex + (d.day - 1) := by
  rw [firstOfMonth, monthIndex_div h, monthIndex_mod h, dayOfDate, dayOfDate]
  ring

/-- The days of a month lie from its first to the first of the next. -/
theorem dayOfDate_between {d : Date} (h : d.Valid) :
    firstOfMonth d.monthIndex ≤ dayOfDate d ∧ dayOfDate d < firstOfMonth (d.monthIndex + 1) := by
  have hd := h.day
  rw [dayOfDate_eq h.month, firstOfMonth_succ, monthIndex_div h.month, monthIndex_mod h.month]
  omega

theorem monthIndex_le {d d' : Date} (h : d.Valid) (h' : d'.Valid) (hle : dayOfDate d ≤ dayOfDate d') :
    d.monthIndex ≤ d'.monthIndex := by
  by_contra hlt
  have hfirst := firstOfMonth_strictMono.monotone (show d'.monthIndex + 1 ≤ d.monthIndex by omega)
  have hd := (dayOfDate_between h).1
  have hd' := (dayOfDate_between h').2
  omega

theorem dayOfDate_inj {d d' : Date} (h : d.Valid) (h' : d'.Valid) (heq : dayOfDate d = dayOfDate d') : d = d' := by
  have hindex : d.monthIndex = d'.monthIndex :=
    le_antisymm (monthIndex_le h h' heq.le) (monthIndex_le h' h heq.ge)
  have hyear : d.year = d'.year := by rw [← monthIndex_div h.month, hindex, monthIndex_div h'.month]
  have hmonth : d.month = d'.month := by rw [← monthIndex_mod h.month, hindex, monthIndex_mod h'.month]
  have hday : d.day = d'.day := by
    rw [dayOfDate_eq h.month, dayOfDate_eq h'.month, hindex] at heq
    omega
  cases d
  cases d'
  simp only at hyear hmonth hday
  rw [hyear, hmonth, hday]

/-! ### The dates of the days -/

theorem isLeapYear_end {c q : Int} (hq0 : 0 ≤ q) (hq : q ≤ 24) (hend : q = 24 → c = 3) :
    isLeapYear (100 * c + 4 * q + 3 + 1) = true := by
  rw [isLeapYear_iff]
  by_cases h : q = 24
  · rw [h, hend h]
    norm_num
  · have h100 : (100 * c + 4 * q + 3 + 1) % 100 = 4 * q + 4 := by omega
    rw [h100]
    omega

theorem dayOfYear_lt {doe : Int} (h0 : 0 ≤ doe) (h1 : doe < 146097) :
    (eraDay doe).dayOfYear < 365 + if isLeapYear ((eraDay doe).year + 1) then 1 else 0 := by
  have hleap : (eraDay doe).dayOfYear = 365 → isLeapYear ((eraDay doe).year + 1) = true := by
    intro h
    have hy : (eraDay doe).yearOfCycle = 3 := by
      simp only [eraDay] at h ⊢
      omega
    rw [EraDay.year, hy]
    apply isLeapYear_end <;> simp only [eraDay] at h ⊢ <;> omega
  have hle := (eraDay_bounds h0 h1).2.2.2
  by_cases h : (eraDay doe).dayOfYear = 365
  · rw [if_pos (hleap h)]
    omega
  · split_ifs <;> omega

theorem isLeapYear_add (era year : Int) : isLeapYear (era * 400 + year) = isLeapYear year := by
  have h4 : (era * 400 + year) % 4 = year % 4 := by omega
  have h100 : (era * 400 + year) % 100 = year % 100 := by omega
  have h400 : (era * 400 + year) % 400 = year % 400 := by omega
  rw [isLeapYear, isLeapYear, h4, h100, h400]

theorem marchDate_valid {era y d : Int} (hd0 : 0 ≤ d) (hd : d < 365 + if isLeapYear (y + 1) then 1 else 0) :
    (marchDate era y d).Valid := by
  have h366 : d < 366 := by split_ifs at hd <;> omega
  have hm : 0 ≤ (5 * d + 2) / 153 ∧ (5 * d + 2) / 153 ≤ 11 := by omega
  refine ⟨?_, ?_, ?_⟩
  · simp only [marchDate]
    split_ifs <;> omega
  · simp only [marchDate, monthStart]
    omega
  · by_cases hfeb : (5 * d + 2) / 153 = 11
    · have hleap : isLeapYear (era * 400 + y + 1) = isLeapYear (y + 1) := by
        rw [add_assoc, isLeapYear_add]
      simp only [marchDate, hfeb, monthStart]
      norm_num [daysInMonth, hleap]
      split_ifs at hd ⊢ <;> omega
    · simp only [marchDate, daysInMonth, monthStart]
      split_ifs <;> omega

theorem dateOfDay_valid (day : Int) : (dateOfDay day).Valid := by
  have h0 : 0 ≤ (day + 719468) % 146097 := by omega
  have h1 : (day + 719468) % 146097 < 146097 := by omega
  exact marchDate_valid (eraDay_bounds h0 h1).2.2.1 (dayOfYear_lt h0 h1)

theorem dateOfDay_dayOfDate {d : Date} (h : d.Valid) : dateOfDay (dayOfDate d) = d :=
  dayOfDate_inj (dateOfDay_valid _) h (dayOfDate_dateOfDay _)

/-- Of two days, the earlier one has the earlier date: years are compared first, then months, then days. -/
theorem dateOfDay_lt {day day' : Int} (h : day < day') :
    (dateOfDay day).year < (dateOfDay day').year ∨ (dateOfDay day).year = (dateOfDay day').year ∧
      ((dateOfDay day).month < (dateOfDay day').month ∨ (dateOfDay day).month = (dateOfDay day').month ∧
        (dateOfDay day).day < (dateOfDay day').day) := by
  have hv := dateOfDay_valid day
  have hv' := dateOfDay_valid day'
  have hday := dayOfDate_dateOfDay day
  have hday' := dayOfDate_dateOfDay day'
  have hindex := monthIndex_le hv hv' (by omega)
  rw [dayOfDate_eq hv.month] at hday
  rw [dayOfDate_eq hv'.month] at hday'
  have hm := hv.month
  have hm' := hv'.month
  by_cases heq : (dateOfDay day).monthIndex = (dateOfDay day').monthIndex
  · rw [heq] at hday
    rw [Date.monthIndex, Date.monthIndex] at heq
    omega
  · rw [Date.monthIndex, Date.monthIndex] at hindex heq
    omega

/-- The days of the years -9999 to 9999. -/
theorem dayOfDate_range {d : Date} (h : d.Valid) (hlo : -9999 ≤ d.year) (hhi : d.year ≤ 9999) :
    -4371587 ≤ dayOfDate d ∧ dayOfDate d ≤ 2932896 := by
  have hb := dayOfDate_between h
  have hm := h.month
  have hlow := firstOfMonth_strictMono.monotone (show -119988 ≤ d.monthIndex by rw [Date.monthIndex]; omega)
  have hhigh := firstOfMonth_strictMono.monotone (show d.monthIndex + 1 ≤ 120000 by rw [Date.monthIndex]; omega)
  have hfirst : firstOfMonth (-119988) = -4371587 := by decide
  have hlast : firstOfMonth 120000 = 2932897 := by decide
  omega

end Ecat.Calendar
