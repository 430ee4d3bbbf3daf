import Ecat.TierInterval
import Ecat.TierMerge

/-! `query_range` against the page of all rows in the interval. The boundary decides which store
is asked, so the answer is complete when each row is where the boundary says it is. -/

namespace Ecat.Tier

open Json
open Archive (TieringError validateIdent)

/-! ### Sorted entries -/

def keyRank (t : TieredTable) (e : Entry) : Lex (ℤ ⊕ String) := rank (e.key t.idCol)

def sortEntries (t : TieredTable) (entries : List Entry) : List Entry :=
  entries.insertionSort fun a b => keyRank t a ≤ keyRank t b

/-- A logical table: plain primary keys, each of them once. -/
structure Keyed (t : TieredTable) (all : List Entry) : Prop where
  plain : ∀ e ∈ all, Plain (e.key t.idCol)
  unique : ∀ e ∈ all, ∀ e' ∈ all, keyRank t e = keyRank t e' → e = e'

variable {t : TieredTable} {all entries entries' : List Entry}

theorem mem_sortEntries {e : Entry} : e ∈ sortEntries t entries ↔ e ∈ entries := List.mem_insertionSort _

theorem sortEntries_strict (h : Keyed t all) (hsub : ∀ e ∈ entries, e ∈ all) (hnodup : entries.Nodup) :
    (sortEntries t entries).Pairwise fun a b => keyRank t a < keyRank t b :=
  strict_insertionSort (fun a ha b hb => h.unique a (hsub a ha) b (hsub b hb)) hnodup

theorem sortEntries_congr (h : Keyed t all) (hsub : ∀ e ∈ entries, e ∈ all) (hnodup : entries.Nodup)
    (hnodup' : entries'.Nodup) (hmem : ∀ e, e ∈ entries ↔ e ∈ entries') :
    sortEntries t entries = sortEntries t entries' := by
  refine strict_ext (sortEntries_strict h hsub hnodup)
    (sortEntries_strict h (fun e he => hsub e ((hmem e).2 he)) hnodup') ?_
  intro e
  rw [mem_sortEntries, mem_sortEntries, hmem]

/-! ### Pages -/

/-- The order of primary keys that the stores and the merge share. -/
def pkLe (a b : Value) : Bool := (cmpPk a b).isLE

theorem page_eq {le : Value → Value → Bool} (h : Keyed t all) (hsub : ∀ e ∈ entries, e ∈ all)
    (hle : ∀ a ∈ all, ∀ b ∈ all, le (a.key t.idCol) (b.key t.idCol) = pkLe (a.key t.idCol) (b.key t.idCol))
    (limit offset : Nat) : page le t.idCol limit offset entries =
      (((sortEntries t entries).drop offset).take limit).map (·.row) := by
  have hsort : entries.insertionSort (fun a b => le (a.key t.idCol) (b.key t.idCol) = true) =
      sortEntries t entries := by
    refine insertionSort_congr ?_
    intro a ha b hb
    rw [hle a (hsub a ha) b (hsub b hb), pkLe]
    exact cmpPk_isLE (h.plain a (hsub a ha)) (h.plain b (hsub b hb))
  rw [page, hsort]

/-! ### Merging two pages -/

def pair (t : TieredTable) (e : Entry) : Value × Row := (e.key t.idCol, e.row)

theorem keyed_ok (h : Keyed t all) (hsub : ∀ e ∈ entries, e ∈ all) :
    keyed t (entries.map (·.row)) = .ok (entries.map (pair t)) := by
  have hkeys : ∀ row ∈ entries.map (·.row), ∃ key, row.get t.idCol = some key ∧ key.isNull = false := by
    intro row hrow
    obtain ⟨e, he, rfl⟩ := List.mem_map.1 hrow
    have hplain : Plain ((e.row.get t.idCol).getD .null) := h.plain e (hsub e he)
    cases hget : e.row.get t.idCol with
    | none =>
      rw [hget] at hplain
      exact hplain.elim
    | some key =>
      rw [hget] at hplain
      refine ⟨key, rfl, ?_⟩
      cases key <;> first | rfl | exact hplain.elim
  rw [keyed_rows hkeys, List.map_map]
  rfl

def merged (t : TieredTable) (entries : List Entry) : List Entry :=
  dedupBy (fun a b => keyRank t a = keyRank t b) (sortEntries t entries)

theorem merged_strict (t : TieredTable) (entries : List Entry) :
    (merged t entries).Pairwise fun a b => keyRank t a < keyRank t b := by
  have hsorted : (sortEntries t entries).Pairwise fun a b => keyRank t a ≤ keyRank t b :=
    List.pairwise_insertionSort _ _
  have hstrict := pairwise_dedupBy (fun a b => keyRank t a ≤ keyRank t b)
    (fun a b => keyRank t a = keyRank t b) (fun a b c => le_trans)
    (fun a b hab => by
      rw [decide_eq_true_eq]
      exact ⟨fun he => he.le, fun hle => le_antisymm hle hab⟩) hsorted
  exact hstrict.imp fun hab => lt_of_le_not_ge hab.1 hab.2

theorem mem_merged (h : Keyed t all) (hsub : ∀ e ∈ entries, e ∈ all) {e : Entry} :
    e ∈ merged t entries ↔ e ∈ entries := by
  have hdown : ∀ a, a ∈ merged t entries → a ∈ entries := fun a ha =>
    mem_sortEntries.1 ((dedupBy_sublist _ _).subset ha)
  refine ⟨hdown e, fun he => ?_⟩
  obtain ⟨b, hb, heq⟩ := exists_mem_dedupBy (fun a b : Entry => decide (keyRank t a = keyRank t b)) (by simp)
    (mem_sortEntries.2 he)
  rw [h.unique e (hsub e he) b (hsub b (hdown b hb)) (of_decide_eq_true heq)]
  exact hb

theorem sortDedupePaginate_eq (h : Keyed t all) (hsub : ∀ e ∈ entries, e ∈ all) (limit offset : Nat) :
    sortDedupePaginate t (entries.map (·.row)) limit offset =
      .ok ((((merged t entries).drop offset).take limit).map (·.row)) := by
  have hsort : (entries.map (pair t)).insertionSort (fun a b => (cmpPk a.1 b.1).isLE = true) =
      (sortEntries t entries).map (pair t) := by
    refine (List.map_insertionSort _ _ (pair t) entries ?_).symm
    intro a ha b hb
    exact (cmpPk_isLE (h.plain a (hsub a ha)) (h.plain b (hsub b hb))).symm
  have hdedup : dedupBy (fun a b => decide (cmpPk a.1 b.1 = .eq)) ((sortEntries t entries).map (pair t)) =
      (merged t entries).map (pair t) := by
    rw [dedupBy_map, merged]
    congr 1
    refine dedupBy_congr ?_
    intro a ha b hb
    have ha' := hsub a (mem_sortEntries.1 ha)
    have hb' := hsub b (mem_sortEntries.1 hb)
    exact decide_eq_decide.2 (cmpPk_eq (h.plain a ha') (h.plain b hb'))
  rw [sortDedupePaginate, keyed_ok h hsub]
  show Except.ok _ = _
  rw [hsort, hdedup, ← List.map_drop, ← List.map_take, List.map_map]
  rfl

theorem merge_pages {part part' : List Entry} (h : Keyed t all) (hnodup : all.Nodup) (hpart : part.Nodup)
    (hpart' : part'.Nodup) (hsub : ∀ e ∈ part, e ∈ all) (hsub' : ∀ e ∈ part', e ∈ all)
    (hcover : ∀ e ∈ all, e ∈ part ∨ e ∈ part') (limit offset : Nat) :
    let first := (sortEntries t part).take (limit + offset) ++ (sortEntries t part').take (limit + offset)
    ((merged t first).drop offset).take limit = ((sortEntries t all).drop offset).take limit := by
  intro first
  have hfirst : ∀ e ∈ first, e ∈ all := by
    intro e he
    rcases List.mem_append.1 he with he | he
    · exact hsub e (mem_sortEntries.1 (List.mem_of_mem_take he))
    · exact hsub' e (mem_sortEntries.1 (List.mem_of_mem_take he))
  have hall : (sortEntries t all).Pairwise fun a b => keyRank t a < keyRank t b :=
    sortEntries_strict h (fun e he => he) hnodup
  have hmerged : (merged t first).Sublist (sortEntries t all) := by
    refine strict_sublist (merged_strict t first) hall ?_
    intro e he
    exact mem_sortEntries.2 (hfirst e ((mem_merged h hfirst).1 he))
  have hholds : ∀ e ∈ (sortEntries t all).take (limit + offset), e ∈ merged t first := by
    intro e he
    have hin := mem_sortEntries.1 (List.mem_of_mem_take he)
    refine (mem_merged h hfirst).2 (List.mem_append.2 ?_)
    have hfront : ∀ {part : List Entry}, part.Nodup → (∀ e ∈ part, e ∈ all) → e ∈ part →
        e ∈ (sortEntries t part).take (limit + offset) := by
      intro part hpart hsub hmem
      refine mem_take_of_sublist ?_ hall.nodup (mem_sortEntries.2 hmem) he
      refine strict_sublist (sortEntries_strict h hsub hpart) hall ?_
      intro e' he'
      exact mem_sortEntries.2 (hsub e' (mem_sortEntries.1 he'))
    exact (hcover e hin).imp (hfront hpart hsub) (hfront hpart' hsub')
  have htake := take_eq_of_sublist hmerged hall.nodup hholds
  have hdrop := congrArg (List.drop offset) htake
  rwa [List.drop_take, List.drop_take, Nat.add_sub_cancel] at hdrop

/-! ### The boundary -/

/-- The rows of a logical table in its two stores. A row may be in both while archiving lags; it
must be in the store that the boundary assigns it to. -/
structure Placed (boundary : Int) (all hot cold : List Entry) : Prop where
  nodup : all.Nodup
  hotNodup : hot.Nodup
  coldNodup : cold.Nodup
  hotSub : ∀ e ∈ hot, e ∈ all
  coldSub : ∀ e ∈ cold, e ∈ all
  recent : ∀ e ∈ all, boundary ≤ e.ts → e ∈ hot
  old : ∀ e ∈ all, e.ts < boundary → e ∈ cold

def inRange (low high : Int) (e : Entry) : Bool := low ≤ e.ts ∧ e.ts ≤ high

theorem mem_inRange {low high : Int} {l : List Entry} {e : Entry} :
    e ∈ l.filter (inRange low high) ↔ e ∈ l ∧ low ≤ e.ts ∧ e.ts ≤ high := by
  rw [List.mem_filter, inRange, decide_eq_true_eq]

/-- A cold store that does what `ColdQuery` asks for: the page of its rows in the closed interval,
by primary key. -/
def ReadsClosed (q : ColdQuery) (t : TieredTable) (cold : List Entry) : Prop :=
  ∀ low high limit offset, q t.name low high [] limit offset =
    .ok (page pkLe t.idCol limit offset (cold.filter (inRange low.nanos high.nanos)))

theorem cut_le (t : OffsetDateTime) : t.cut ≤ t.nanos := by
  rw [OffsetDateTime.cut, second]
  omega

theorem cut_mono {t t' : OffsetDateTime} (h : t.nanos ≤ t'.nanos) : t.cut ≤ t'.cut := by
  rw [OffsetDateTime.cut, OffsetDateTime.cut, second]
  omega

theorem selects_inRange {st : RangeStatement} {low high : OffsetDateTime} (hlow : st.low = fmtTime low)
    (hhigh : st.high = fmtTime high) (hge : st.lower = .ge) (hle : st.upper = .le) (e : Entry) :
    st.selects e.ts = inRange low.cut high.cut e := by
  rw [selects_iff hlow hhigh, hge, hle, inRange, Bool.decide_and]
  rfl

theorem hotRange_eq {q : TieredQuery} {low high : OffsetDateTime} {limit offset : Nat}
    (hlimit : (limit : Int) ≤ i64Max) (hoffset : (offset : Int) ≤ i64Max) :
    q.hotRange t low high limit offset =
      .ok (page q.hot.le t.idCol limit offset (q.hot.entries.filter (inRange low.cut high.cut))) := by
  let st : RangeStatement := ⟨t.name, t.timeCol, t.idCol, .ge, fmtTime low, .le, fmtTime high, limit, offset⟩
  have hst : hotStatement t low high limit offset = .ok st := by
    rw [hotStatement, asI64, asI64, if_pos hlimit, if_pos hoffset]
    rfl
  have hfilter : (q.hot.entries.filter fun e => st.selects e.ts) = q.hot.entries.filter (inRange low.cut high.cut) :=
    List.filter_congr fun e _ => @selects_inRange st low high rfl rfl rfl rfl e
  rw [TieredQuery.hotRange, hst, ← hfilter]
  rfl

section

variable {q : TieredQuery} {boundary low high : OffsetDateTime} {cold : List Entry} {limit offset : Nat}

def within (all : List Entry) (low high : OffsetDateTime) : List Entry :=
  all.filter (inRange low.nanos high.nanos)

theorem mem_within {low high : OffsetDateTime} {e : Entry} :
    e ∈ within all low high ↔ e ∈ all ∧ low.nanos ≤ e.ts ∧ e.ts ≤ high.nanos := mem_inRange

/-- The hot store sorts the keys of the table as the merge does. -/
def SameOrder (hot : HotStore) (t : TieredTable) (all : List Entry) : Prop :=
  ∀ a ∈ all, ∀ b ∈ all, hot.le (a.key t.idCol) (b.key t.idCol) = pkLe (a.key t.idCol) (b.key t.idCol)

/-- No row of the table lies in the part of a second that is cut from the ends of the interval. -/
structure WholeSeconds (all : List Entry) (low high : OffsetDateTime) : Prop where
  low : ∀ e ∈ all, low.cut ≤ e.ts → low.nanos ≤ e.ts
  high : ∀ e ∈ all, e.ts ≤ high.nanos → e.ts ≤ high.cut

theorem hot_page (hkeys : Keyed t all) (hplaced : Placed boundary.nanos all q.hot.entries cold)
    (horder : SameOrder q.hot t all) (hends : WholeSeconds all low high) (hhot : boundary.nanos ≤ low.nanos) :
    page q.hot.le t.idCol limit offset (q.hot.entries.filter (inRange low.cut high.cut)) =
      (((sortEntries t (within all low high)).drop offset).take limit).map (·.row) := by
  have hlowCut := cut_le low
  have hhighCut := cut_le high
  have hsub : ∀ e ∈ q.hot.entries.filter (inRange low.cut high.cut), e ∈ all := fun e he =>
    hplaced.hotSub e (mem_inRange.1 he).1
  rw [page_eq hkeys hsub horder, sortEntries_congr hkeys hsub (hplaced.hotNodup.filter _)
    (hplaced.nodup.filter (inRange low.nanos high.nanos)), within]
  intro e
  rw [mem_inRange, mem_inRange]
  constructor
  · intro he
    have hall := hplaced.hotSub e he.1
    exact ⟨hall, hends.low e hall he.2.1, by omega⟩
  · intro he
    exact ⟨hplaced.recent e he.1 (by omega), by omega, hends.high e he.1 he.2.2⟩

theorem cold_page (hkeys : Keyed t all) (hplaced : Placed boundary.nanos all q.hot.entries cold)
    (hcold : high.nanos < boundary.nanos) :
    page pkLe t.idCol limit offset (cold.filter (inRange low.nanos high.nanos)) =
      (((sortEntries t (within all low high)).drop offset).take limit).map (·.row) := by
  have hsub : ∀ e ∈ cold.filter (inRange low.nanos high.nanos), e ∈ all := fun e he =>
    hplaced.coldSub e (mem_inRange.1 he).1
  rw [page_eq hkeys hsub (fun _ _ _ _ => rfl), sortEntries_congr hkeys hsub (hplaced.coldNodup.filter _)
    (hplaced.nodup.filter (inRange low.nanos high.nanos)), within]
  intro e
  rw [mem_inRange, mem_inRange]
  constructor
  · intro he
    exact ⟨hplaced.coldSub e he.1, he.2⟩
  · intro he
    exact ⟨hplaced.old e he.1 (by omega), he.2⟩

theorem crossing_page (hkeys : Keyed t all) (hplaced : Placed boundary.nanos all q.hot.entries cold)
    (horder : SameOrder q.hot t all) (hends : WholeSeconds all low high) (hlow : low.nanos < boundary.nanos)
    (hhigh : boundary.nanos ≤ high.nanos) :
    sortDedupePaginate t
      (page q.hot.le t.idCol (limit + offset) 0 (q.hot.entries.filter (inRange boundary.cut high.cut)) ++
        page pkLe t.idCol (limit + offset) 0 (cold.filter (inRange low.nanos boundary.nanos))) limit offset =
      .ok ((((sortEntries t (within all low high)).drop offset).take limit).map (·.row)) := by
  have hhighCut := cut_le high
  have hboundaryCut := cut_le boundary
  have hin : ∀ e ∈ within all low high, e ∈ all := fun e he => (mem_within.1 he).1
  have hkeysIn : Keyed t (within all low high) :=
    ⟨fun e he => hkeys.plain e (hin e he), fun e he e' he' => hkeys.unique e (hin e he) e' (hin e' he')⟩
  have hhotIn : ∀ e ∈ q.hot.entries.filter (inRange boundary.cut high.cut), e ∈ within all low high := by
    intro e he
    have he := mem_inRange.1 he
    have hall := hplaced.hotSub e he.1
    have hcut : low.cut ≤ boundary.cut := cut_mono (by omega)
    exact mem_within.2 ⟨hall, hends.low e hall (by omega), by omega⟩
  have hcoldIn : ∀ e ∈ cold.filter (inRange low.nanos boundary.nanos), e ∈ within all low high := by
    intro e he
    have he := mem_inRange.1 he
    exact mem_within.2 ⟨hplaced.coldSub e he.1, by omega, by omega⟩
  have hcover : ∀ e ∈ within all low high, e ∈ q.hot.entries.filter (inRange boundary.cut high.cut) ∨
      e ∈ cold.filter (inRange low.nanos boundary.nanos) := by
    intro e he
    have he := mem_within.1 he
    by_cases hts : boundary.nanos ≤ e.ts
    · exact .inl (mem_inRange.2 ⟨hplaced.recent e he.1 hts, by omega, hends.high e he.1 he.2.2⟩)
    · exact .inr (mem_inRange.2 ⟨hplaced.old e he.1 (by omega), by omega, by omega⟩)
  rw [page_eq hkeys (fun e he => hin e (hhotIn e he)) horder,
    page_eq hkeys (fun e he => hin e (hcoldIn e he)) (fun _ _ _ _ => rfl), ← List.map_append,
    List.drop_zero, List.drop_zero, sortDedupePaginate_eq hkeysIn]
  · rw [merge_pages hkeysIn (hplaced.nodup.filter _) (hplaced.hotNodup.filter _)
      (hplaced.coldNodup.filter _) hhotIn hcoldIn hcover]
  · intro e he
    rcases List.mem_append.1 he with he | he
    · exact hhotIn e (mem_sortEntries.1 (List.mem_of_mem_take he))
    · exact hcoldIn e (mem_sortEntries.1 (List.mem_of_mem_take he))

theorem queryAround_eq (hkeys : Keyed t all) (hplaced : Placed boundary.nanos all q.hot.entries cold)
    (horder : SameOrder q.hot t all) (hcold : ReadsClosed q.cold t cold)
    (hbound : ((limit + offset : Nat) : Int) ≤ i64Max) (hends : WholeSeconds all low high) :
    q.queryAround t boundary low high [] limit offset =
      .ok ((((sortEntries t (within all low high)).drop offset).take limit).map (·.row)) := by
  rw [TieredQuery.queryAround, if_neg fun h => h.2 rfl]
  by_cases hhot : boundary.nanos ≤ low.nanos
  · rw [if_pos hhot, hotRange_eq (by omega) (by omega), hot_page hkeys hplaced horder hends hhot]
  rw [if_neg hhot]
  by_cases hcoldOnly : high.nanos < boundary.nanos
  · rw [if_pos hcoldOnly, hcold, cold_page hkeys hplaced hcoldOnly]
  rw [if_neg hcoldOnly]
  have hpush : Archive.saturatingAdd limit offset = limit + offset := by
    rw [Archive.saturatingAdd, Nat.min_eq_left]
    rw [i64Max] at hbound
    rw [Archive.u64Max]
    omega
  rw [hpush]
  show (do
    let hot ← q.hotRange t boundary high (limit + offset) 0
    let cold ← q.cold t.name low boundary [] (limit + offset) 0
    sortDedupePaginate t (hot ++ cold) limit offset) = _
  rw [hotRange_eq hbound (by decide), hcold]
  exact crossing_page hkeys hplaced horder hends (by omega) (by omega)

end

/-- Each row in the store that the boundary assigns it to: the answer is the page of all rows in
the interval, in the order of their primary keys and each of them once. -/
theorem query_complete {q : TieredQuery} {t : TieredTable} {now boundary : OffsetDateTime} {all cold : List Entry}
    (hdialect : q.mySql = true) (hfind : q.tables.find? (·.name = t.name) = some t)
    (hident : (do validateIdent t.name; validateIdent t.timeCol; validateIdent t.idCol) = .ok ())
    (hboundary : now.sub (t.hotDays * day) = some boundary) (hkeys : Keyed t all)
    (hplaced : Placed boundary.nanos all q.hot.entries cold) (horder : SameOrder q.hot t all)
    (hcold : ReadsClosed q.cold t cold) (low high : OffsetDateTime) (hends : WholeSeconds all low high)
    (limit offset : Nat) (hbound : ((limit + offset : Nat) : Int) ≤ i64Max) :
    ∃ rows, q.queryRange now t.name low high [] limit offset = some (.ok rows) ∧
      rows = page pkLe t.idCol limit offset (within all low high) ∧
      rows.Pairwise fun a b => rank ((a.get t.idCol).getD .null) < rank ((b.get t.idCol).getD .null) := by
  have hin : ∀ e ∈ within all low high, e ∈ all := fun e he => (mem_within.1 he).1
  have hpage := page_eq hkeys hin (fun _ _ _ _ => rfl) limit offset
  refine ⟨_, ?_, rfl, ?_⟩
  · rw [TieredQuery.queryRange, if_pos hdialect, hfind]
    simp only [hident, hboundary, Option.map_some]
    rw [queryAround_eq hkeys hplaced horder hcold hbound hends, hpage]
  · rw [hpage]
    have hstrict := sortEntries_strict hkeys hin (hplaced.nodup.filter _)
    exact List.Pairwise.map _ (fun a b hab => hab)
      (hstrict.sublist ((List.take_sublist _ _).trans (List.drop_sublist _ _)))

/-- Table `events` over a hot table and a cold store with the given rows. -/
def eventStores (hot cold : List Entry) : TieredQuery :=
  ⟨true, ⟨hot, pkLe⟩, fun _ low high _ limit offset =>
    .ok (page pkLe "id" limit offset (cold.filter (inRange low.nanos high.nanos))), [events]⟩

def event (id : Nat) (h : (id : Int) < 2 ^ 64) (ts : Int) : Entry :=
  ⟨⟨["id"], [.number (.int id (le_trans (by decide) (Int.natCast_nonneg id)) h)]⟩, ts⟩

def newYearBoundary : OffsetDateTime := ⟨1751673600250000000, by decide, by decide⟩

def oldEvent : Entry := event 1 (by decide) 1700000000000000000

def recentEvent : Entry := event 2 (by decide) 1767225600000000000

def eventsLow : OffsetDateTime := ⟨1699999999000000000, by decide, by decide⟩

def eventsHigh : OffsetDateTime := ⟨1767225601000000000, by decide, by decide⟩

theorem query_complete_events : ∃ rows,
    (eventStores [oldEvent, recentEvent] [oldEvent]).queryRange newYear "events" eventsLow eventsHigh [] 10 0 =
      some (.ok rows) ∧ rows = [oldEvent.row, recentEvent.row] := by
  have hkeys : Keyed events [oldEvent, recentEvent] := by
    refine ⟨?_, ?_⟩
    · intro e he
      simp only [List.mem_cons, List.not_mem_nil, or_false] at he
      rcases he with rfl | rfl
      · show (Number.asI64 _).isSome = true
        rfl
      · show (Number.asI64 _).isSome = true
        rfl
    · intro e he e' he' h
      simp only [List.mem_cons, List.not_mem_nil, or_false] at he he'
      have hlt : keyRank events oldEvent < keyRank events recentEvent := by decide
      rcases he with rfl | rfl
      · rcases he' with rfl | rfl
        · rfl
        · exact absurd h hlt.ne
      · rcases he' with rfl | rfl
        · exact absurd h hlt.ne'
        · rfl
  have hne : oldEvent ≠ recentEvent := fun h => absurd (congrArg Entry.ts h) (by decide)
  have hplaced : Placed newYearBoundary.nanos [oldEvent, recentEvent] [oldEvent, recentEvent] [oldEvent] := by
    refine ⟨by simp [hne], by simp [hne], by simp, fun e he => he, by simp, fun e he _ => he, ?_⟩
    intro e he hts
    simp only [List.mem_cons, List.not_mem_nil, or_false] at he
    rcases he with rfl | rfl
    · simp
    · exact absurd hts (by decide)
  have hends : WholeSeconds [oldEvent, recentEvent] eventsLow eventsHigh :=
    ⟨fun e _ h => h, fun e _ h => h⟩
  have hboundary : newYear.sub (events.hotDays * day) = some newYearBoundary := rfl
  obtain ⟨rows, hrun, hrows, -⟩ := query_complete (q := eventStores [oldEvent, recentEvent] [oldEvent])
    (t := events) rfl rfl rfl hboundary hkeys hplaced (fun _ _ _ _ => rfl) (fun _ _ _ _ => rfl) eventsLow
    eventsHigh hends 10 0 (by decide)
  exact ⟨rows, hrun, hrows.trans rfl⟩

/-- A row past the boundary that has not been archived yet is not found: only the cold store is
asked for it. -/
theorem unarchived_row_missed : ¬ ∀ (all hot cold : List Entry) (low high : OffsetDateTime) (limit offset : Nat),
    (∀ e, e ∈ all ↔ e ∈ hot ∨ e ∈ cold) → low.nanos ≤ high.nanos →
    (eventStores hot cold).queryRange newYear "events" low high [] limit offset =
      some (.ok (page pkLe "id" limit offset (within all low high))) := by
  intro h
  have hmissed := h [oldEvent] [oldEvent] [] eventsLow newYearBoundary 10 0 (by simp) (by decide)
  have hrows := Except.ok.inj (Option.some.inj hmissed)
  exact absurd (congrArg List.length hrows) (by decide)

end Ecat.Tier
