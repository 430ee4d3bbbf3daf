import Ecat.TierQueryModel

/-! The same row in the hot store and in ClickHouse. Both sides cut the ends of the interval to
whole seconds; the hot side includes the upper end and the cold side leaves it out. -/

namespace Ecat.Tier

open Json
open Archive (TieringError validateIdent)

theorem hotStatement_ok {t : TieredTable} {low high : OffsetDateTime} {limit offset : Nat}
    {st : RangeStatement} (h : hotStatement t low high limit offset = .ok st) :
    st = ⟨t.name, t.timeCol, t.idCol, .ge, fmtTime low, .le, fmtTime high, limit, offset⟩ := by
  unfold hotStatement asI64 at h
  by_cases hl : (limit : Int) ≤ i64Max
  · by_cases ho : (offset : Int) ≤ i64Max
    · rw [if_pos hl, if_pos ho] at h
      exact (Except.ok.inj h).symm
    · rw [if_pos hl, if_neg ho] at h
      cases h
  · rw [if_neg hl] at h
    cases h

theorem clickhouse_ok {q : ClickhouseColdQuery} {table : String} {low high : OffsetDateTime}
    {params : List Value} {limit offset : Nat} {st : RangeStatement}
    (h : q.statement table low high params limit offset = .ok st) :
    st = ⟨q.table, q.timeCol, q.idCol, .ge, fmtTime low, .lt, fmtTime high, limit, offset⟩ := by
  unfold ClickhouseColdQuery.statement at h
  split_ifs at h
  unfold buildRangeSql at h
  cases h1 : validateIdent q.table with
  | error e =>
    rw [h1] at h
    cases h
  | ok u =>
    cases h2 : validateIdent q.timeCol with
    | error e =>
      rw [h1, h2] at h
      cases h
    | ok u =>
      cases h3 : validateIdent q.idCol with
      | error e =>
        rw [h1, h2, h3] at h
        cases h
      | ok u =>
        rw [h1, h2, h3] at h
        exact (Except.ok.inj h).symm

theorem selects_iff {st : RangeStatement} {low high : OffsetDateTime} (hlow : st.low = fmtTime low)
    (hhigh : st.high = fmtTime high) (ts : Int) :
    st.selects ts = (st.lower.holds ts low.cut && st.upper.holds ts high.cut) := by
  rw [RangeStatement.selects, hlow, hhigh, readTime_fmtTime, readTime_fmtTime]
  rfl

/-- The two sides agree on a row exactly when its time is not the upper end cut to whole seconds,
or lies before the lower end so cut. -/
theorem readers_agree_iff {t : TieredTable} {q : ClickhouseColdQuery} {low high : OffsetDateTime}
    {params : List Value} {limit offset : Nat} {hot cold : RangeStatement}
    (hhot : hotStatement t low high limit offset = .ok hot)
    (hcold : q.statement t.name low high params limit offset = .ok cold) (ts : Int) :
    (hot.selects ts = true ↔ cold.selects ts = true) ↔ ¬ (ts = high.cut ∧ low.cut ≤ ts) := by
  have hhot := hotStatement_ok hhot
  have hcold := clickhouse_ok hcold
  rw [selects_iff (by rw [hhot]) (by rw [hhot]), selects_iff (by rw [hcold]) (by rw [hcold]), hhot, hcold]
  simp only [Cmp.holds, Bool.and_eq_true, decide_eq_true_eq]
  omega

def events : TieredTable := ⟨"events", "ts", "id", 180⟩

def coldEvents : ClickhouseColdQuery := ⟨"events", "ts", "id"⟩

def newYear : OffsetDateTime := ⟨1767225600250000000, by decide, by decide⟩

def newYearNext : OffsetDateTime := ⟨1767225601250000000, by decide, by decide⟩

theorem readers_agree_newYear : ∃ hot cold, hotStatement events newYear newYearNext 10 0 = .ok hot ∧
    coldEvents.statement "events" newYear newYearNext [] 10 0 = .ok cold ∧
    (hot.selects 1767225600500000000 = true ↔ cold.selects 1767225600500000000 = true) := by
  have hhot : hotStatement events newYear newYearNext 10 0 = .ok _ := rfl
  have hcold : coldEvents.statement events.name newYear newYearNext [] 10 0 = .ok _ := rfl
  exact ⟨_, _, hhot, hcold, (readers_agree_iff hhot hcold 1767225600500000000).2 (by decide +kernel)⟩

/-- A row at the upper end is found in the hot store and not in the cold one. -/
theorem readers_disagree : ¬ ∀ (low high : OffsetDateTime) (hot cold : RangeStatement) (ts : Int),
    hotStatement events low high 10 0 = .ok hot → coldEvents.statement "events" low high [] 10 0 = .ok cold →
    (hot.selects ts = true ↔ cold.selects ts = true) := by
  intro h
  have hcold := (h newYear newYearNext _ _ 1767225601000000000 rfl rfl).1 (by decide +kernel)
  exact absurd hcold (by decide +kernel)

end Ecat.Tier
