import Ecat.CalendarMonths
import Ecat.Pieces
import Ecat.Results
import Ecat.TierQueryModel

/-! `plan_range_partitions`: the interval from one instant to another cut at whole months, with a
partition for each piece. The bounds of the partitions are texts without parts of a second. -/

namespace Ecat.Tier

open Archive (TieringError validateIdent)
open Calendar (Date dateOfDay dayOfDate daysInMonth firstOfMonth)

structure PartitionSpec where
  table : String
  column : String
  months : Nat

/-! ### Months from an instant on -/

/-- What the date library says about a part of a date that is out of its range. -/
structure ComponentRange where
  name : String
  minimum : Int
  maximum : Int
  value : Int

/-- A date of the years -9999 to 9999. -/
structure CalendarDate where
  date : Date
  valid : date.Valid
  low : -9999 ≤ date.year
  high : date.year ≤ 9999

def fromCalendarDate (year month day : Int) (hm : 1 ≤ month ∧ month ≤ 12) : Except ComponentRange CalendarDate :=
  if hy : -9999 ≤ year ∧ year ≤ 9999 then
    if hd : 1 ≤ day ∧ day ≤ daysInMonth year month then .ok ⟨⟨year, month, day⟩, ⟨hm, hd⟩, hy.1, hy.2⟩
    else .error ⟨"day", 1, daysInMonth year month, day⟩
  else .error ⟨"year", -9999, 9999, year⟩

def OffsetDateTime.date (t : OffsetDateTime) : Date := dateOfDay (t.nanos / day)

theorem replaceDate_range (t : OffsetDateTime) (d : CalendarDate) :
    -377705116800 * second ≤ dayOfDate d.date * day + t.nanos % day ∧
      dayOfDate d.date * day + t.nanos % day < 253402300800 * second := by
  have h := Calendar.dayOfDate_range d.valid d.low d.high
  rw [day, second]
  omega

def OffsetDateTime.replaceDate (t : OffsetDateTime) (d : CalendarDate) : OffsetDateTime :=
  ⟨dayOfDate d.date * day + t.nanos % day, (replaceDate_range t d).1, (replaceDate_range t d).2⟩

/-- Texts of the date library's errors are the parameter. -/
def addMonths (display : ComponentRange → String) (ts : OffsetDateTime) (months : Nat) :
    Except TieringError OffsetDateTime :=
  let total := ts.date.year * 12 + (ts.date.month - 1) + months
  let year := total / 12
  let month := total % 12 + 1
  if year < -2 ^ 31 ∨ 2 ^ 31 ≤ year then
    .error (.config s!"partition boundary year out of range: {total}")
  else if hm : 1 ≤ month ∧ month ≤ 12 then
    match fromCalendarDate year month (min ts.date.day (daysInMonth year month)) hm with
    | .ok date => .ok (ts.replaceDate date)
    | .error e => .error (.config s!"invalid partition boundary: {display e}")
  else .error (.config "partition boundary month out of range")

theorem day_pos : (0 : Int) < day := by decide

@[simp] theorem replaceDate_date (t : OffsetDateTime) (d : CalendarDate) : (t.replaceDate d).date = d.date := by
  have hmod := Int.emod_nonneg t.nanos day_pos.ne'
  have hlt := Int.emod_lt_of_pos t.nanos day_pos
  have hdiv : (dayOfDate d.date * day + t.nanos % day) / day = dayOfDate d.date := by
    rw [Int.add_comm, Int.add_mul_ediv_right _ _ day_pos.ne', Int.ediv_eq_zero_of_lt hmod hlt, zero_add]
  rw [OffsetDateTime.date, OffsetDateTime.replaceDate, hdiv, Calendar.dateOfDay_dayOfDate d.valid]

theorem replaceDate_nanos (t : OffsetDateTime) (d : CalendarDate) :
    (t.replaceDate d).nanos = dayOfDate d.date * day + t.nanos % day := rfl

theorem fromCalendarDate_ok {year month d : Int} {hm : 1 ≤ month ∧ month ≤ 12} {date : CalendarDate}
    (h : fromCalendarDate year month d hm = .ok date) : date.date = ⟨year, month, d⟩ := by
  unfold fromCalendarDate at h
  split_ifs at h
  rw [← Except.ok.inj h]

theorem addMonths_ok {display : ComponentRange → String} {ts stop : OffsetDateTime} {months : Nat}
    (h : addMonths display ts months = .ok stop) :
    stop.date.monthIndex = ts.date.monthIndex + months ∧
      stop.date.day = min ts.date.day (daysInMonth stop.date.year stop.date.month) ∧
      stop.nanos = dayOfDate stop.date * day + ts.nanos % day := by
  unfold addMonths at h
  simp only at h
  split_ifs at h with hrange hm
  cases hdate : fromCalendarDate ((ts.date.year * 12 + (ts.date.month - 1) + months) / 12)
      ((ts.date.year * 12 + (ts.date.month - 1) + months) % 12 + 1) _ hm with
  | error e =>
    rw [hdate] at h
    cases h
  | ok date =>
    rw [hdate] at h
    obtain rfl := Except.ok.inj h
    rw [replaceDate_date, fromCalendarDate_ok hdate]
    refine ⟨?_, rfl, ?_⟩
    · simp only [Date.monthIndex]
      omega
    · rw [replaceDate_nanos, fromCalendarDate_ok hdate]

theorem date_valid (t : OffsetDateTime) : t.date.Valid := Calendar.dateOfDay_valid _

theorem nanos_eq (t : OffsetDateTime) : t.nanos = dayOfDate t.date * day + t.nanos % day := by
  rw [OffsetDateTime.date, Calendar.dayOfDate_dateOfDay, Int.mul_comm]
  exact (Int.mul_ediv_add_emod t.nanos day).symm

/-- A later month is a day away at least, and the time of day stays. -/
theorem addMonths_later {display : ComponentRange → String} {ts stop : OffsetDateTime} {months : Nat}
    (hm : 0 < months) (h : addMonths display ts months = .ok stop) : ts.nanos + day ≤ stop.nanos := by
  obtain ⟨hindex, hday, hnanos⟩ := addMonths_ok h
  have hts := Calendar.dayOfDate_between (date_valid ts)
  have hstop := Calendar.dayOfDate_eq (date_valid stop).month
  have hfirst := Calendar.firstOfMonth_strictMono.monotone
    (show ts.date.monthIndex + 1 ≤ stop.date.monthIndex by omega)
  have hpos := (date_valid stop).day
  have hlt : dayOfDate ts.date + 1 ≤ dayOfDate stop.date := by omega
  have hmul := Int.mul_le_mul_of_nonneg_right hlt day_pos.le
  rw [Int.add_mul, Int.one_mul] at hmul
  rw [hnanos, nanos_eq ts]
  simp only [Int.mul_add_emod_self_right, Int.emod_emod_of_dvd _ (dvd_refl day)]
  omega

/-! ### The loop -/

structure PartitionDef where
  name : String
  lessThan : String
  deriving DecidableEq, Repr

def PartitionDef.sql (p : PartitionDef) : String := s!"PARTITION {p.name} VALUES LESS THAN ('{p.lessThan}')"

/-- `{year:04}`, where a minus sign counts as one of the four. -/
def padded (year : Int) : List Char :=
  if year < 0 then '-' :: (Calendar.four year.natAbs).drop (if -1000 < year then 1 else 0)
  else Calendar.four year

def partitionName (start : OffsetDateTime) : Except TieringError String :=
  let name := String.ofList ('p' :: padded start.date.year ++ Calendar.two start.date.month)
  (validateIdent name).map fun _ => name

def earlier (a b : OffsetDateTime) : OffsetDateTime := if b.nanos < a.nanos then b else a

/-- The text of an instant never fails. -/
def planParts (display : ComponentRange → String) (months : Nat) (hm : 0 < months) (upTo start : OffsetDateTime) :
    Except TieringError (List PartitionDef) :=
  if start.nanos < upTo.nanos then
    match _hstop : addMonths display start months with
    | .error e => .error e
    | .ok stop =>
      match partitionName start with
      | .error e => .error e
      | .ok name =>
        (planParts display months hm upTo (earlier stop upTo)).map (⟨name, fmtTime (earlier stop upTo)⟩ :: ·)
  else .ok []
termination_by (upTo.nanos - start.nanos).toNat
decreasing_by
  have hlater := addMonths_later hm _hstop
  have hpos := day_pos
  unfold earlier
  split_ifs <;> omega

/-- Names and bounds are put together; the DDL is `PartitionPlan.sql`. -/
structure PartitionPlan where
  spec : PartitionSpec
  parts : List PartitionDef

def PartitionPlan.sql (p : PartitionPlan) : String :=
  let lines := (p.parts.map PartitionDef.sql ++ ["PARTITION pmax VALUES LESS THAN (MAXVALUE)"]).map fun part =>
    s!"  {part}"
  let body := ",\n".intercalate lines
  s!"ALTER TABLE `{p.spec.table}` PARTITION BY RANGE COLUMNS(`{p.spec.column}`) (\n{body}\n)"

def rangePlan (display : ComponentRange → String) (spec : PartitionSpec) (start upTo : OffsetDateTime) :
    Except TieringError PartitionPlan := do
  validateIdent spec.table
  validateIdent spec.column
  if hm : spec.months = 0 then throw (.config "partition months must be > 0")
  else if upTo.nanos ≤ start.nanos then throw (.config "partition range end must be after start")
  else return ⟨spec, ← planParts display spec.months (Nat.pos_of_ne_zero hm) upTo start⟩

def planRangePartitions (display : ComponentRange → String) (spec : PartitionSpec) (start upTo : OffsetDateTime) :
    Except TieringError String :=
  (rangePlan display spec start upTo).map PartitionPlan.sql

/-! ### What a run of the loop leaves -/

/-- The parts that the loop adds from an instant on. -/
inductive Walk (display : ComponentRange → String) (months : Nat) (upTo : OffsetDateTime) :
    OffsetDateTime → List PartitionDef → Prop
  | done {start : OffsetDateTime} (hge : upTo.nanos ≤ start.nanos) : Walk display months upTo start []
  | step {start stop : OffsetDateTime} {name : String} {parts : List PartitionDef}
      (hlt : start.nanos < upTo.nanos) (hstop : addMonths display start months = .ok stop)
      (hname : partitionName start = .ok name) (hrest : Walk display months upTo (earlier stop upTo) parts) :
      Walk display months upTo start (⟨name, fmtTime (earlier stop upTo)⟩ :: parts)

theorem planParts_eq {display : ComponentRange → String} {months : Nat} {hm : 0 < months}
    {upTo start : OffsetDateTime} : planParts display months hm upTo start =
      if start.nanos < upTo.nanos then do
        let stop ← addMonths display start months
        let name ← partitionName start
        (planParts display months hm upTo (earlier stop upTo)).map (⟨name, fmtTime (earlier stop upTo)⟩ :: ·)
      else .ok [] := by
  rw [planParts]
  by_cases hlt : start.nanos < upTo.nanos
  · rw [if_pos hlt, if_pos hlt]
    split
    · rename_i e hstop
      rw [hstop]
      rfl
    · rename_i stop hstop
      rw [hstop]
      cases hname : partitionName start <;> rfl
  · rw [if_neg hlt, if_neg hlt]

theorem planParts_step {display : ComponentRange → String} {months : Nat} {hm : 0 < months}
    {upTo start stop : OffsetDateTime} {name : String} (hlt : start.nanos < upTo.nanos)
    (hstop : addMonths display start months = .ok stop) (hname : partitionName start = .ok name) :
    planParts display months hm upTo start =
      (planParts display months hm upTo (earlier stop upTo)).map (⟨name, fmtTime (earlier stop upTo)⟩ :: ·) := by
  rw [planParts_eq, if_pos hlt, hstop, hname]
  rfl

theorem planParts_ok {display : ComponentRange → String} {months : Nat} {hm : 0 < months}
    {upTo start : OffsetDateTime} {parts : List PartitionDef}
    (h : planParts display months hm upTo start = .ok parts) : Walk display months upTo start parts := by
  induction start using planParts.induct display months hm upTo generalizing parts with
  | case1 start hlt e herror =>
    rw [planParts_eq, if_pos hlt, herror] at h
    cases h
  | case2 start hlt stop hstop e hname =>
    rw [planParts_eq, if_pos hlt, hstop, hname] at h
    cases h
  | case3 start hlt stop hstop name hname ih =>
    rw [planParts_step hlt hstop hname] at h
    cases hrest : planParts display months hm upTo (earlier stop upTo) with
    | error e =>
      rw [hrest] at h
      cases h
    | ok rest =>
      rw [hrest] at h
      obtain rfl := Except.ok.inj h
      exact .step hlt hstop hname (ih hrest)
  | case4 start hge =>
    rw [planParts_eq, if_neg hge] at h
    obtain rfl := Except.ok.inj h
    exact .done (not_lt.mp hge)

theorem rangePlan_ok {display : ComponentRange → String} {spec : PartitionSpec} {start upTo : OffsetDateTime}
    {plan : PartitionPlan} (h : rangePlan display spec start upTo = .ok plan) :
    plan.spec = spec ∧ 0 < plan.spec.months ∧ start.nanos < upTo.nanos ∧ Walk display plan.spec.months upTo start plan.parts := by
  unfold rangePlan at h
  simp only [bind_eq_ok] at h
  obtain ⟨_, -, _, -, h⟩ := h
  split_ifs at h with hm hge
  obtain ⟨parts, hparts, hplan⟩ := bind_eq_ok.1 h
  obtain rfl := Except.ok.inj hplan
  exact ⟨rfl, Nat.pos_of_ne_zero hm, not_le.mp hge, planParts_ok hparts⟩

/-! ### Names -/

theorem date_year (t : OffsetDateTime) : -9999 ≤ t.date.year ∧ t.date.year ≤ 9999 := by
  have hge := t.ge
  have hlt := t.lt
  rw [second] at hge hlt
  apply Calendar.dateOfDay_year <;> rw [day, second] <;> omega

theorem validateIdent_tail {c : Char} {cs : List Char} {u : Unit}
    (h : validateIdent (String.ofList (c :: cs)) = .ok u) : ∀ d ∈ cs, Archive.isIdentTail d = true := by
  simp only [validateIdent, String.toList_ofList] at h
  split_ifs at h with hc
  rw [Bool.and_eq_true, List.all_eq_true] at hc
  exact hc.2

/-- A minus sign makes no name. -/
theorem partitionName_ok {t : OffsetDateTime} {name : String} (h : partitionName t = .ok name) :
    0 ≤ t.date.year ∧ name = String.ofList ('p' :: Calendar.four t.date.year ++ Calendar.two t.date.month) := by
  simp only [partitionName] at h
  cases hident : validateIdent (String.ofList ('p' :: padded t.date.year ++ Calendar.two t.date.month)) with
  | error e =>
    rw [hident] at h
    cases h
  | ok u =>
    rw [hident] at h
    obtain rfl := Except.ok.inj h
    by_cases hneg : t.date.year < 0
    · have hminus := validateIdent_tail hident '-' (by simp [padded, hneg])
      exact absurd hminus (by decide)
    · rw [padded, if_neg hneg]
      exact ⟨not_lt.mp hneg, rfl⟩

theorem two_inj {a b : Int} (ha : 0 ≤ a ∧ a < 100) (hb : 0 ≤ b ∧ b < 100)
    (h : Calendar.two a = Calendar.two b) : a = b := by
  simp only [Calendar.two, List.cons.injEq, and_true] at h
  have hread := Calendar.readTwo_two ha.1 ha.2
  rw [h.1, h.2, Calendar.readTwo_two hb.1 hb.2] at hread
  exact (Option.some.inj hread).symm

theorem partitionName_inj {t t' : OffsetDateTime} {name : String} (h : partitionName t = .ok name)
    (h' : partitionName t' = .ok name) : t.date.monthIndex = t'.date.monthIndex := by
  obtain ⟨hy0, hname⟩ := partitionName_ok h
  obtain ⟨hy0', hname'⟩ := partitionName_ok h'
  have hy := date_year t
  have hy' := date_year t'
  have hm := (date_valid t).month
  have hm' := (date_valid t').month
  have heq := String.ofList_inj.1 (hname.symm.trans hname')
  rw [Calendar.four, Calendar.four, List.cons_append, List.cons_append, List.append_assoc, List.append_assoc] at heq
  obtain ⟨hhigh, hrest⟩ := List.append_inj (List.cons.inj heq).2 rfl
  obtain ⟨hlow, hmonth⟩ := List.append_inj hrest rfl
  have hhigh := two_inj (by omega) (by omega) hhigh
  have hlow := two_inj (by omega) (by omega) hlow
  have hmonth := two_inj (by omega) (by omega) hmonth
  rw [Date.monthIndex, Date.monthIndex]
  omega

theorem Walk.next {display : ComponentRange → String} {months : Nat} {upTo stop : OffsetDateTime}
    {parts : List PartitionDef} (h : Walk display months upTo (earlier stop upTo) parts) :
    parts = [] ∨ earlier stop upTo = stop := by
  by_cases hlt : upTo.nanos < stop.nanos
  · rw [earlier, if_pos hlt] at h
    cases h with
    | done hge => exact .inl rfl
    | step hself => exact absurd hself (lt_irrefl _)
  · exact .inr (if_neg hlt)

/-- Each name is that of a month, and the months go up. -/
theorem Walk.names {display : ComponentRange → String} {months : Nat} {upTo start : OffsetDateTime}
    {parts : List PartitionDef} (hm : 0 < months) (h : Walk display months upTo start parts) :
    (parts.map PartitionDef.name).Nodup ∧ ∀ name ∈ parts.map PartitionDef.name,
      ∃ t, partitionName t = .ok name ∧ start.date.monthIndex ≤ t.date.monthIndex := by
  induction h with
  | done hge => exact ⟨List.nodup_nil, by simp⟩
  | @step start stop name parts hlt hstop hname hrest ih =>
    have hlater : ∀ other ∈ parts.map PartitionDef.name,
        ∃ t, partitionName t = .ok other ∧ start.date.monthIndex < t.date.monthIndex := by
      intro other hother
      rcases hrest.next with rfl | heq
      · cases hother
      · obtain ⟨t, ht, hle⟩ := ih.2 other hother
        have hindex := (addMonths_ok hstop).1
        rw [heq] at hle
        exact ⟨t, ht, by omega⟩
    constructor
    · refine List.nodup_cons.2 ⟨fun hmem => ?_, ih.1⟩
      obtain ⟨t, ht, hlt⟩ := hlater name hmem
      exact hlt.ne (partitionName_inj hname ht)
    · intro other hother
      rcases List.mem_cons.1 hother with rfl | hother
      · exact ⟨start, hname, le_refl _⟩
      · obtain ⟨t, ht, hlt⟩ := hlater other hother
        exact ⟨t, ht, hlt.le⟩

/-! ### Bounds -/

/-- The bound that the store reads in the DDL, in nanoseconds. -/
def PartitionDef.bound (p : PartitionDef) : Option Int := (Calendar.readTime p.lessThan).map (· * second)

structure PartitionPlan.Covers (p : PartitionPlan) (start upTo : OffsetDateTime) : Prop where
  names : (p.parts.map PartitionDef.name).Nodup
  bounds : ∃ bounds : List Int, p.parts.map PartitionDef.bound = bounds.map some ∧
    bounds.Pairwise (· < ·) ∧ (∃ last, bounds.getLast? = some last ∧ upTo.nanos ≤ last) ∧
    ∀ t, start.nanos ≤ t → t < upTo.nanos → ∃! i, InPiece bounds t i

theorem bound_fmtTime (name : String) (t : OffsetDateTime) :
    (PartitionDef.mk name (fmtTime t)).bound = some t.cut := by
  rw [PartitionDef.bound, readTime_fmtTime]
  rfl

theorem earlier_le (a b : OffsetDateTime) : (earlier a b).nanos ≤ b.nanos := by
  unfold earlier
  split_ifs <;> omega

/-- Ends of the pieces in order: months on, or the end of the interval. -/
theorem Walk.ends {display : ComponentRange → String} {months : Nat} {upTo start : OffsetDateTime}
    {parts : List PartitionDef} (hm : 0 < months) (h : Walk display months upTo start parts) :
    ∃ ends : List OffsetDateTime, parts.map PartitionDef.bound = ends.map (fun e => some e.cut) ∧
      List.IsChain (fun s e => s.nanos + day ≤ e.nanos ∨ s.nanos < e.nanos ∧ e.nanos = upTo.nanos) (start :: ends) ∧
      (start.nanos < upTo.nanos → ∃ last, ends.getLast? = some last ∧ last.nanos = upTo.nanos) := by
  induction h with
  | @done start hge => exact ⟨[], rfl, List.isChain_singleton _, fun hlt => absurd hge (not_le.mpr hlt)⟩
  | @step start stop name parts hlt hstop hname hrest ih =>
    obtain ⟨ends, hbounds, hchain, hlast⟩ := ih
    have hlater := addMonths_later hm hstop
    refine ⟨earlier stop upTo :: ends, ?_, List.isChain_cons_cons.2 ⟨?_, hchain⟩, fun _ => ?_⟩
    · rw [List.map_cons, List.map_cons, bound_fmtTime, hbounds]
    · unfold earlier
      split_ifs with h
      · exact .inr ⟨hlt, rfl⟩
      · exact .inl hlater
    · by_cases hmore : (earlier stop upTo).nanos < upTo.nanos
      · obtain ⟨last, hget, heq⟩ := hlast hmore
        exact ⟨last, by rw [List.getLast?_cons, hget]; rfl, heq⟩
      · have hnil : ends = [] := by
          cases hrest with
          | done hge => exact List.map_eq_nil_iff.1 hbounds.symm
          | step hself => exact absurd hself hmore
        rw [hnil]
        exact ⟨earlier stop upTo, rfl, le_antisymm (earlier_le stop upTo) (not_lt.mp hmore)⟩

theorem cut_eq_iff (t : OffsetDateTime) : t.nanos ≤ t.cut ↔ t.nanos % second = 0 := by
  rw [OffsetDateTime.cut, second]
  omega

theorem cut_lt {upTo s e : OffsetDateTime} (hwhole : upTo.nanos % second = 0)
    (h : s.nanos + day ≤ e.nanos ∨ s.nanos < e.nanos ∧ e.nanos = upTo.nanos) : s.cut < e.cut := by
  simp only [OffsetDateTime.cut, day, second] at *
  omega

/-- The parts cover the interval exactly when its end is a whole second. -/
theorem Walk.covers {display : ComponentRange → String} {upTo start : OffsetDateTime} {plan : PartitionPlan}
    (hm : 0 < plan.spec.months) (hlt : start.nanos < upTo.nanos)
    (h : Walk display plan.spec.months upTo start plan.parts) :
    plan.Covers start upTo ↔ upTo.nanos % second = 0 := by
  obtain ⟨ends, hbounds, hchain, hlast⟩ := h.ends hm
  obtain ⟨last, hget, hend⟩ := hlast hlt
  have hcut : last.cut = upTo.cut := by rw [OffsetDateTime.cut, OffsetDateTime.cut, hend]
  have hgetcut : (ends.map OffsetDateTime.cut).getLast? = some upTo.cut := by
    rw [List.getLast?_map, hget, Option.map_some, hcut]
  constructor
  · intro hcovers
    obtain ⟨bounds, hsome, -, ⟨low, hlow, hle⟩, -⟩ := hcovers.bounds
    have heq : bounds = ends.map OffsetDateTime.cut := by
      have hmap : bounds.map some = (ends.map OffsetDateTime.cut).map some := by
        rw [← hsome, hbounds, List.map_map]
        rfl
      exact (List.map_injective_iff.2 (Option.some_injective _)) hmap
    rw [heq, hgetcut] at hlow
    rw [← Option.some.inj hlow] at hle
    exact (cut_eq_iff upTo).1 hle
  · intro hwhole
    have hsorted : (ends.map OffsetDateTime.cut).Pairwise (· < ·) := by
      have hcuts : List.IsChain (fun s e : OffsetDateTime => s.cut < e.cut) (start :: ends) :=
        hchain.imp fun s e h => cut_lt hwhole h
      rw [List.pairwise_map, ← List.isChain_iff_pairwise]
      exact hcuts.tail
    refine ⟨(h.names hm).1, ends.map OffsetDateTime.cut, ?_, hsorted, ⟨upTo.cut, hgetcut, ?_⟩, ?_⟩
    · rw [hbounds, List.map_map]
      rfl
    · exact (cut_eq_iff upTo).2 hwhole
    · exact fun t _ _ => existsUnique_piece hsorted t

/-- Each text has its plan, and the plan covers the interval exactly when the end is a whole
second. -/
theorem partitions_cover_iff {display : ComponentRange → String} {spec : PartitionSpec} {start upTo : OffsetDateTime}
    {ddl : String} (h : planRangePartitions display spec start upTo = .ok ddl) :
    ∃ plan, rangePlan display spec start upTo = .ok plan ∧ plan.spec = spec ∧ ddl = plan.sql ∧
      (plan.Covers start upTo ↔ upTo.nanos % second = 0) := by
  unfold planRangePartitions at h
  cases hplan : rangePlan display spec start upTo with
  | error e =>
    rw [hplan] at h
    cases h
  | ok plan =>
    rw [hplan] at h
    obtain rfl := Except.ok.inj h
    obtain ⟨hspec, hm, hlt, hwalk⟩ := rangePlan_ok hplan
    exact ⟨plan, rfl, hspec, rfl, hwalk.covers hm hlt⟩

/-! ### Ends within a second -/

/-- A tenth of a second into 2026. -/
def newYearTenth : OffsetDateTime := ⟨1767225600100000000, by decide, by decide⟩

def february : OffsetDateTime := ⟨1769904000000000000, by decide, by decide⟩

/-- Half a second into February. -/
def februaryHalf : OffsetDateTime := ⟨1769904000500000000, by decide, by decide⟩

def monthly : PartitionSpec := ⟨"orders", "created_at", 1⟩

theorem partitions_cover_january : ∃ (ddl : String) (plan : PartitionPlan),
    planRangePartitions ComponentRange.name monthly newYearTenth february = .ok ddl ∧
      ddl = plan.sql ∧ plan.Covers newYearTenth february := by
  have hsome : (planRangePartitions ComponentRange.name monthly newYearTenth february).toOption.any
      (fun _ => true) = true := by decide +kernel
  obtain ⟨ddl, h, -⟩ := exists_ok_of_any hsome
  obtain ⟨plan, -, -, hsql, hiff⟩ := partitions_cover_iff h
  exact ⟨ddl, plan, h, hsql, hiff.2 (by decide)⟩

/-- January and the rest of February's first second end at the same text. -/
theorem equal_bounds : ¬ ∀ (display : ComponentRange → String) (spec : PartitionSpec) (start upTo : OffsetDateTime)
    (plan : PartitionPlan), rangePlan display spec start upTo = .ok plan → plan.Covers start upTo := by
  intro hall
  have hbounds : (rangePlan ComponentRange.name monthly newYearTenth februaryHalf).toOption.map
      (fun plan => plan.parts.map PartitionDef.bound) = some [some february.nanos, some february.nanos] := by
    decide +kernel
  cases h : rangePlan ComponentRange.name monthly newYearTenth februaryHalf with
  | error e =>
    rw [h] at hbounds
    cases hbounds
  | ok plan =>
    rw [h] at hbounds
    obtain ⟨bounds, hsome, hsorted, -⟩ := (hall _ _ _ _ _ h).bounds
    have hmap : plan.parts.map PartitionDef.bound = [some february.nanos, some february.nanos] :=
      Option.some.inj hbounds
    have heq : bounds = [february.nanos, february.nanos] :=
      List.map_injective_iff.2 (Option.some_injective _) (hsome.symm.trans hmap)
    rw [heq, List.pairwise_cons] at hsorted
    exact lt_irrefl _ (hsorted.1 _ (by simp))

end Ecat.Tier
