import Ecat.ShardGather

/-! The order of a scatter's rows: where the comparison of the values is an order, and what every
scatter returns, in whatever order its tasks are joined. -/

namespace Ecat.Shard

open Json

/-! ### The comparison -/

theorem compare_swap {α : Type} [Ord α] [Std.OrientedOrd α] (a b : α) : compare b a = (compare a b).swap :=
  Std.OrientedCmp.eq_swap

theorem compareNumbers_swap (l r : Number) : compareNumbers r l = (compareNumbers l r).swap := by
  unfold compareNumbers
  cases l.asI64 <;> cases r.asI64 <;> exact compare_swap _ _

/-- The comparison of values of one kind. -/
def compareAlike : Value → Value → Ordering
  | .bool l, .bool r => compare l r
  | .number l, .number r => (compareNumbers l r).then (compare l.toText r.toText)
  | .string l, .string r => compare l r
  | l, r => compare l.toText r.toText

theorem compareValues_eq (l r : Value) :
    compareValues l r = (compare (valueRank l) (valueRank r)).then (compareAlike l r) := by
  cases l <;> cases r <;> rfl

theorem compareAlike_swap (l r : Value) : compareAlike r l = (compareAlike l r).swap := by
  cases l with
  | number l =>
    cases r with
    | number r => rw [compareAlike, compareAlike, Ordering.swap_then, compareNumbers_swap l r, compare_swap l.toText]
    | _ => exact compare_swap _ _
  | _ => cases r <;> exact compare_swap _ _

theorem compareValues_swap (l r : Value) : compareValues r l = (compareValues l r).swap := by
  rw [compareValues_eq, compareValues_eq, Ordering.swap_then, compareAlike_swap l r, compare_swap (valueRank l)]

theorem compare_trans {α : Type} [Ord α] [Std.TransOrd α] {a b c : α} (h : (compare a b).isLE = true)
    (h' : (compare b c).isLE = true) : (compare a c).isLE = true :=
  Std.TransCmp.isLE_trans h h'

/-- Values of one kind that are not numbers are in order. -/
theorem alike_trans {a b c : Value} (hnumber : valueRank a ≠ 2) (hab : valueRank a = valueRank b)
    (hbc : valueRank b = valueRank c) (h : (compareAlike a b).isLE = true) (h' : (compareAlike b c).isLE = true) :
    (compareAlike a c).isLE = true := by
  cases a <;> cases b <;> cases hab <;> cases c <;> cases hbc
  case null => exact h
  case bool l m n => exact compare_trans (b := m) h h'
  case number l m n => exact absurd rfl hnumber
  case string l m n => exact compare_trans (b := m) h h'
  case array l m n => exact compare_trans (b := (Value.array m).toText) h h'
  case object l m n => exact compare_trans (b := (Value.object m).toText) h h'
/-- The comparison goes by the kind of the values first. -/
theorem rank_le {l r : Value} (h : (compareValues l r).isLE = true) : valueRank l ≤ valueRank r := by
  rw [compareValues_eq, Ordering.isLE_then_iff_and] at h
  exact Nat.isLE_compare.1 h.1

/-- The comparison of the values is transitive, as far as they are in the set. -/
def TransOn (S : Value → Prop) : Prop :=
  ∀ a b c, S a → S b → S c → (compareValues a b).isLE = true → (compareValues b c).isLE = true →
    (compareValues a c).isLE = true

/-- Only three numbers can be out of order. -/
theorem trans_unless_number {a b c : Value} (h : (compareValues a b).isLE = true) (h' : (compareValues b c).isLE = true)
    (hnumber : valueRank a ≠ 2 ∨ valueRank c ≠ 2) : (compareValues a c).isLE = true := by
  have hab := rank_le h
  have hbc := rank_le h'
  rw [compareValues_eq, Ordering.isLE_then_iff_and]
  by_cases hac : valueRank a < valueRank c
  · have hlt : compare (valueRank a) (valueRank c) = .lt := Nat.compare_eq_lt.2 hac
    exact ⟨by rw [hlt]; rfl, .inl hlt⟩
  · have hab' : valueRank a = valueRank b := by omega
    have hbc' : valueRank b = valueRank c := by omega
    have halike : ∀ {l r : Value}, valueRank l = valueRank r → (compareValues l r).isLE = true →
        (compareAlike l r).isLE = true := by
      intro l r hrank hle
      rw [compareValues_eq, hrank, Nat.compare_eq_eq.2 rfl] at hle
      exact hle
    refine ⟨Nat.isLE_compare.2 (by omega), .inr ?_⟩
    exact alike_trans (by omega) hab' hbc' (halike hab' h) (halike hbc' h')

theorem total_values (a b : Value) : (compareValues a b).isLE = true ∨ (compareValues b a).isLE = true := by
  rw [compareValues_swap a b]
  cases compareValues a b <;> simp

theorem not_lt_of_le {a b : Value} (h : (compareValues b a).isLE = true) : compareValues a b ≠ .lt := by
  intro hlt
  rw [compareValues_swap a b, hlt] at h
  cases h

theorem Entry.le_iff {a b : Entry} : a.le b = true ↔
    (compareValues a.value b.value).isLE = true ∧ (compareValues a.value b.value = .lt ∨ a.shard ≤ b.shard) := by
  rw [Entry.le, Ordering.isLE_then_iff_and, Nat.isLE_compare]

theorem Entry.le_total (a b : Entry) : a.le b = true ∨ b.le a = true := by
  rw [Entry.le_iff, Entry.le_iff, compareValues_swap a.value b.value]
  cases compareValues a.value b.value
  · exact .inl ⟨rfl, .inl rfl⟩
  · rcases Nat.le_total a.shard b.shard with h | h
    · exact .inl ⟨rfl, .inr h⟩
    · exact .inr ⟨rfl, .inr h⟩
  · exact .inr ⟨rfl, .inl rfl⟩

theorem Entry.le_trans {S : Value → Prop} (hS : TransOn S) {a b c : Entry} (ha : S a.value) (hb : S b.value)
    (hc : S c.value) (h : a.le b = true) (h' : b.le c = true) : a.le c = true := by
  rw [Entry.le_iff] at h h' ⊢
  have hac := hS _ _ _ ha hb hc h.1 h'.1
  refine ⟨hac, ?_⟩
  by_cases hlt : compareValues a.value c.value = .lt
  · exact .inl hlt
  · have hca : (compareValues c.value a.value).isLE = true := by
      rw [compareValues_swap a.value c.value]
      cases hcmp : compareValues a.value c.value with
      | lt => exact absurd hcmp hlt
      | eq => rfl
      | gt =>
        rw [hcmp] at hac
        cases hac
    have hba := hS _ _ _ hb hc ha h'.1 hca
    have hcb := hS _ _ _ hc ha hb hca h.1
    have hab := h.2.resolve_left (not_lt_of_le hba)
    have hbc := h'.2.resolve_left (not_lt_of_le hcb)
    exact .inr (hab.trans hbc)

/-! ### What is merged -/

def orderValue (orderBy : String) (row : Row) : Value := (row.get orderBy).getD .null

/-- The rows ascend by the requested column. -/
def InOrder (orderBy : String) (rows : List Row) : Prop :=
  rows.Pairwise fun a b => (compareValues (orderValue orderBy a) (orderValue orderBy b)).isLE = true

/-- All that is merged, before a page of it is taken. -/
def mergeAll (orderBy pk : String) (results : List (Option (List Row))) : Except ShardError (List Row) := do
  let ordered := (← collect orderBy 0 results).insertionSort (·.le ·)
  dedupe pk [] (ordered.map (·.row))

variable {orderBy pk : String} {row : Row} {rows kept all : List Row} {results : List (Option (List Row))}
  {entries : List Entry}

theorem merge_eq (orderBy pk : String) (offset limit : Nat) (results : List (Option (List Row))) :
    merge orderBy pk offset limit results =
      (mergeAll orderBy pk results).map fun all => (all.drop offset).take limit := by
  rw [merge, mergeAll]
  cases collect orderBy 0 results with
  | error e => rfl
  | ok entries =>
    simp only [ok_bind]
    cases dedupe pk [] ((entries.insertionSort (·.le ·)).map (·.row)) <;> rfl

theorem present_some {col : String} {v : Value} (h : present row col = some v) :
    row.get col = some v ∧ v.isNull = false := by
  obtain ⟨hget, hnull⟩ := Option.filter_eq_some_iff.1 h
  exact ⟨hget, by simpa using hnull⟩

theorem dedupe_present {seen : List String} (h : dedupe pk seen rows = .ok kept) : ∀ row ∈ rows, Present pk row := by
  induction rows generalizing seen kept with
  | nil => simp
  | cons row rows ih =>
    rw [dedupe] at h
    cases hrow : present row pk with
    | none =>
      rw [hrow] at h
      cases h
    | some v =>
      rw [hrow] at h
      have hpresent : Present pk row := ⟨v, present_some hrow⟩
      refine List.forall_mem_cons.2 ⟨hpresent, ?_⟩
      simp only at h
      split_ifs at h
      · exact ih h
      · obtain ⟨rest, hrest, _⟩ := bind_eq_ok.1 h
        exact ih hrest

theorem collect_value {index : Nat} (h : collect orderBy index results = .ok entries) :
    ∀ e ∈ entries, present e.row orderBy = some e.value ∧ ∃ rows, some rows ∈ results ∧ e.row ∈ rows := by
  induction results generalizing index entries with
  | nil =>
    cases h
    simp
  | cons result results ih =>
    cases result with
    | none => cases h
    | some rows =>
      obtain ⟨first, hfirst, hjoined⟩ := bind_eq_ok.1 h
      obtain ⟨rest, hrest, hentries⟩ := bind_eq_ok.1 hjoined
      cases hentries
      intro e he
      rcases List.mem_append.1 he with he | he
      · obtain ⟨row, hrow, hentry⟩ := exists_of_mapM_ok hfirst e he
        rw [entry] at hentry
        cases hv : present row orderBy with
        | none =>
          rw [hv] at hentry
          cases hentry
        | some v =>
          rw [hv] at hentry
          cases hentry
          exact ⟨hv, rows, List.mem_cons_self, hrow⟩
      · obtain ⟨hvalue, rows', hin, hrow⟩ := ih hrest e he
        exact ⟨hvalue, rows', by simp [hin], hrow⟩

/-- The values of the column in all the rows that the shards answer with. -/
def OrderedIn (S : Value → Prop) (orderBy : String) (results : List (Option (List Row))) : Prop :=
  ∀ rows, some rows ∈ results → ∀ row ∈ rows, ∀ v, present row orderBy = some v → S v

theorem mergeAll_distinct (h : mergeAll orderBy pk results = .ok all) : (all.map (pkText pk)).Nodup := by
  obtain ⟨entries, _, hdedupe⟩ := bind_eq_ok.1 h
  obtain ⟨kept, hkept, _, hnodup, _⟩ := dedupe_ok (dedupe_present hdedupe) []
  cases hdedupe.symm.trans hkept
  exact hnodup

theorem mergeAll_inOrder {S : Value → Prop} (hS : TransOn S) (hin : OrderedIn S orderBy results)
    (h : mergeAll orderBy pk results = .ok all) : InOrder orderBy all := by
  obtain ⟨entries, hcollect, hdedupe⟩ := bind_eq_ok.1 h
  obtain ⟨kept, hkept, hsub, _⟩ := dedupe_ok (dedupe_present hdedupe) []
  cases hdedupe.symm.trans hkept
  have hvalue := collect_value hcollect
  have hmem : ∀ e ∈ entries, S e.value := by
    intro e he
    obtain ⟨hv, rows, hrows, hrow⟩ := hvalue e he
    exact hin rows hrows e.row hrow e.value hv
  have hsorted : (entries.insertionSort (·.le ·)).Pairwise (·.le ·) := by
    apply pairwise_insertionSort_on
    · intro a _ b _
      exact Entry.le_total a b
    · intro a ha b hb c hc
      exact Entry.le_trans hS (hmem a ha) (hmem b hb) (hmem c hc)
  have hrows : InOrder orderBy ((entries.insertionSort (·.le ·)).map (·.row)) := by
    rw [InOrder, List.pairwise_map]
    refine hsorted.imp_of_mem ?_
    intro a b ha hb hab
    have hget : ∀ e ∈ entries.insertionSort (·.le ·), orderValue orderBy e.row = e.value := by
      intro e he
      rw [orderValue, (present_some (hvalue e ((List.mem_insertionSort _).1 he)).1).1, Option.getD_some]
    rw [hget a ha, hget b hb]
    exact (Entry.le_iff.1 hab).1
  exact hrows.sublist hsub

/-! ### Pages -/

theorem pages_flatten {α : Type} (l : List α) (limit : Nat) (m : Nat) :
    ((List.range m).map fun k => (l.drop (k * limit)).take limit).flatten = l.take (m * limit) := by
  induction m with
  | zero => simp
  | succ m ih =>
    rw [List.range_succ, List.map_append, List.flatten_append, ih, Nat.succ_mul, List.take_add]
    simp

/-! ### Every scatter -/

/-- Every shard has answered in time. -/
def Whole (shards : List String) (joined : List (Nat × Outcome)) : Prop :=
  ∀ i < shards.length, ∃ rows, (i, .rows rows) ∈ joined

/-- What a run of `scatter` promises, whatever the tasks joined in time and their order. -/
structure Scattered (r : ShardRouter) (t : ShardTable) (req : ScatterRequest) (joined : List (Nat × Outcome)) :
    Prop where
  whole : ∀ rows, r.scatterRun req joined = .ok rows → Whole t.shardNames joined
  missing : ¬ Whole t.shardNames joined → ∃ names, r.scatterRun req joined = .error (.partialFailure names) ∧
    names.Pairwise (· < ·) ∧
    ∀ name, name ∈ names ↔ ∃ i, t.shardNames[i]? = some name ∧ ∀ rows, (i, .rows rows) ∉ joined
  unordered : ∀ joined', joined'.Perm joined → r.scatterRun req joined' = r.scatterRun req joined
  distinct : ∀ rows, r.scatterRun req joined = .ok rows → (rows.map (pkText t.pk)).Nodup
  ordered : ∀ rows, r.scatterRun req joined = .ok rows → InOrder req.orderBy rows
  pages : ∀ all limit, r.scatterRun { req with offset := 0, limit } joined = .ok all → all.length < limit →
    ∀ size m, all.length ≤ m * size → ∃ pages : List (List Row), pages.flatten = all ∧
      ((List.range m).map fun k => r.scatterRun { req with offset := k * size, limit := size } joined) =
        pages.map .ok

/-- The request passes the checks that come before any query. -/
structure Ready (r : ShardRouter) (t : ShardTable) (req : ScatterRequest) : Prop where
  table : r.catalog.table req.table = .ok t
  nodup : t.shardNames.Nodup
  clients : ∀ shard ∈ t.shardNames, shard ∈ r.clients
  concurrency : req.maxConcurrency ≠ 0

variable {r : ShardRouter} {t : ShardTable} {req : ScatterRequest} {joined : List (Nat × Outcome)} {S : Value → Prop}

theorem ready_of_build {catalog : ShardCatalog} {clients : List String}
    (hbuild : ShardRouter.build catalog clients = .ok r) (htable : catalog.table req.table = .ok t)
    (hconcurrency : req.maxConcurrency ≠ 0) : Ready r t req ∧ t.shards ≠ [] := by
  obtain ⟨⟨⟩, hvalid, hrest⟩ := bind_eq_ok.1 hbuild
  obtain ⟨⟨⟩, hclients, hr⟩ := bind_eq_ok.1 hrest
  cases hr
  have hmem := ((table_ok_iff hvalid).1 htable).1
  have ht := validate_valid hvalid hmem
  refine ⟨⟨htable, ht.nodup, ?_, hconcurrency⟩, ht.nonempty⟩
  intro shard hshard
  obtain ⟨endpoint, hin, rfl⟩ := List.mem_map.1 hshard
  exact validateClients_ok_iff.1 hclients t hmem endpoint hin

theorem unanswered_iff (hnodup : t.shardNames.Nodup) (h : Joins t.shardNames.length joined) {name : String} :
    name ∈ unanswered t.shardNames joined ↔ ∃ i, t.shardNames[i]? = some name ∧ ∀ rows, (i, .rows rows) ∉ joined := by
  rw [unanswered, List.mem_filter, Option.isNone_iff_eq_none]
  constructor
  · rintro ⟨hmem, hnone⟩
    obtain ⟨i, hi⟩ := List.getElem?_of_mem hmem
    rw [answers_getElem hnodup hi] at hnone
    refine ⟨i, hi, fun rows hrows => ?_⟩
    rw [(rowsAt_eq_some h.nodup).2 hrows] at hnone
    cases hnone
  · rintro ⟨i, hi, hrows⟩
    refine ⟨List.mem_of_getElem? hi, ?_⟩
    rw [answers_getElem hnodup hi, Option.eq_none_iff_forall_ne_some]
    exact fun rows heq => hrows rows ((rowsAt_eq_some h.nodup).1 heq)

theorem whole_iff (hnodup : t.shardNames.Nodup) (h : Joins t.shardNames.length joined) :
    Whole t.shardNames joined ↔ unanswered t.shardNames joined = [] := by
  rw [List.eq_nil_iff_forall_not_mem]
  simp only [unanswered_iff hnodup h, not_exists, not_and]
  constructor
  · rintro hwhole name i hi hnone
    obtain ⟨hlt, _⟩ := List.getElem?_eq_some_iff.1 hi
    obtain ⟨rows, hrows⟩ := hwhole i hlt
    exact hnone rows hrows
  · intro hall i hlt
    by_contra hnone
    push Not at hnone
    exact hall _ i (List.getElem?_eq_getElem hlt) hnone

theorem Ready.scatterRun_eq (hready : Ready r t req) (h : Joins t.shardNames.length joined) :
    r.scatterRun req joined = if unanswered t.shardNames joined ≠ [] then
        .error (.partialFailure ((unanswered t.shardNames joined).insertionSort (· ≤ ·)))
      else merge req.orderBy t.pk req.offset req.limit (t.shardNames.map (answers t.shardNames joined)) := by
  have hfind : t.shardNames.find? (· ∉ r.clients) = none := by
    rw [List.find?_eq_none]
    intro shard hshard
    simpa using hready.clients shard hshard
  rw [Shard.scatterRun_eq r req hready.table hready.nodup h, ShardRouter.scatter, if_neg hready.concurrency,
    hready.table, ok_bind, hfind]
  rfl

theorem Ready.scatterRun_whole (hready : Ready r t req) (h : Joins t.shardNames.length joined)
    (hwhole : Whole t.shardNames joined) : r.scatterRun req joined =
      (mergeAll req.orderBy t.pk (t.shardNames.map (answers t.shardNames joined))).map
        fun all => (all.drop req.offset).take req.limit := by
  rw [hready.scatterRun_eq h, if_neg (not_not.2 ((whole_iff hready.nodup h).1 hwhole)), merge_eq]

theorem Ready.whole_of_ok (hready : Ready r t req) (h : Joins t.shardNames.length joined) {rows : List Row}
    (hok : r.scatterRun req joined = .ok rows) : Whole t.shardNames joined := by
  rw [whole_iff hready.nodup h]
  by_contra hne
  rw [hready.scatterRun_eq h, if_pos hne] at hok
  cases hok

theorem map_ok {α β : Type} {x : Except ShardError α} {f : α → β} {b : β} (h : x.map f = .ok b) :
    ∃ a, x = .ok a ∧ f a = b := by
  cases x with
  | error e => cases h
  | ok a => exact ⟨a, rfl, Except.ok.inj h⟩

theorem Ready.merged_of_ok (hready : Ready r t req) (h : Joins t.shardNames.length joined) {rows : List Row}
    (hok : r.scatterRun req joined = .ok rows) :
    ∃ all, mergeAll req.orderBy t.pk (t.shardNames.map (answers t.shardNames joined)) = .ok all ∧
      (all.drop req.offset).take req.limit = rows := by
  rw [hready.scatterRun_whole h (hready.whole_of_ok h hok)] at hok
  exact map_ok hok

theorem page_sublist {α : Type} (l : List α) (offset limit : Nat) : ((l.drop offset).take limit).Sublist l :=
  (List.take_sublist _ _).trans (List.drop_sublist _ _)

theorem Ready.missing (hready : Ready r t req) (h : Joins t.shardNames.length joined)
    (hwhole : ¬ Whole t.shardNames joined) :
    ∃ names, r.scatterRun req joined = .error (.partialFailure names) ∧ names.Pairwise (· < ·) ∧
      ∀ name, name ∈ names ↔ ∃ i, t.shardNames[i]? = some name ∧ ∀ rows, (i, .rows rows) ∉ joined := by
  have hnodup : (unanswered t.shardNames joined).Nodup := hready.nodup.filter _
  rw [whole_iff hready.nodup h] at hwhole
  refine ⟨(unanswered t.shardNames joined).insertionSort (· ≤ ·), ?_, ?_, ?_⟩
  · rw [hready.scatterRun_eq h, if_pos hwhole]
  · have hsorted := List.pairwise_insertionSort (· ≤ ·) (unanswered t.shardNames joined)
    have hdistinct := (List.perm_insertionSort (· ≤ ·) (unanswered t.shardNames joined)).nodup_iff.2 hnodup
    exact (hsorted.and hdistinct).imp fun hab => lt_of_le_of_ne hab.1 hab.2
  · intro name
    rw [List.mem_insertionSort, unanswered_iff hready.nodup h]

theorem Ready.pages (hready : Ready r t req) (h : Joins t.shardNames.length joined) {all : List Row} {limit : Nat}
    (hok : r.scatterRun { req with offset := 0, limit } joined = .ok all) (hlimit : all.length < limit)
    {size m : Nat} (hm : all.length ≤ m * size) : ∃ pages : List (List Row), pages.flatten = all ∧
      ((List.range m).map fun k => r.scatterRun { req with offset := k * size, limit := size } joined) =
        pages.map .ok := by
  have hsame : ∀ offset limit, Ready r t { req with offset, limit } := fun offset limit =>
    ⟨hready.table, hready.nodup, hready.clients, hready.concurrency⟩
  have hwhole := (hsame 0 limit).whole_of_ok h hok
  obtain ⟨merged, hmerged, hall⟩ := (hsame 0 limit).merged_of_ok h hok
  have hfull : merged = all := by
    have hall : merged.take limit = all := hall
    rw [← hall, List.length_take] at hlimit
    rw [← hall, List.take_of_length_le (by omega)]
  subst hfull
  refine ⟨(List.range m).map fun k => (merged.drop (k * size)).take size, ?_, ?_⟩
  · rw [pages_flatten, List.take_of_length_le hm]
  · rw [List.map_map]
    apply List.map_congr_left
    intro k _
    rw [(hsame (k * size) size).scatterRun_whole h hwhole, hmerged]
    rfl

/-- All of it but the order of the rows holds of every run. -/
theorem Ready.scattered_iff (hready : Ready r t req) (h : Joins t.shardNames.length joined) :
    Scattered r t req joined ↔ ∀ rows, r.scatterRun req joined = .ok rows → InOrder req.orderBy rows := by
  refine ⟨Scattered.ordered, fun hordered => ?_⟩
  constructor
  · exact fun rows hok => hready.whole_of_ok h hok
  · exact hready.missing h
  · intro joined' hperm
    have hanswers : answers t.shardNames joined' = answers t.shardNames joined := by
      funext name
      exact rowsAt_perm h.nodup hperm
    rw [Shard.scatterRun_eq r req hready.table hready.nodup h,
      Shard.scatterRun_eq r req hready.table hready.nodup (h.perm hperm), hanswers]
  · intro rows hok
    obtain ⟨all, hall, rfl⟩ := hready.merged_of_ok h hok
    exact (mergeAll_distinct hall).sublist ((page_sublist all req.offset req.limit).map _)
  · exact hordered
  · exact fun all limit hok hlimit size m hm => hready.pages h hok hlimit hm

/-- Numbers that print alike are one number. -/
def Printed (S : Value → Prop) : Prop :=
  ∀ m n : Number, S (.number m) → S (.number n) → m.toText = n.toText → m = n

/-- The order column of every row that a shard has answered with is in the set. -/
def ColumnIn (S : Value → Prop) (orderBy : String) (joined : List (Nat × Outcome)) : Prop :=
  ∀ i rows, (i, .rows rows) ∈ joined → ∀ row ∈ rows, ∀ v, present row orderBy = some v → S v

theorem orderedIn_answers (h : (joined.map Prod.fst).Nodup) (hin : ColumnIn S orderBy joined) (shards : List String) :
    OrderedIn S orderBy (shards.map (answers shards joined)) := by
  intro rows hrows
  obtain ⟨shard, _, hanswer⟩ := List.mem_map.1 hrows
  exact hin _ rows ((rowsAt_eq_some h).1 hanswer)

theorem Ready.scattered (hready : Ready r t req) (h : Joins t.shardNames.length joined) (hS : TransOn S)
    (hin : ColumnIn S req.orderBy joined) : Scattered r t req joined := by
  rw [hready.scattered_iff h]
  intro rows hok
  obtain ⟨all, hall, rfl⟩ := hready.merged_of_ok h hok
  exact (mergeAll_inOrder hS (orderedIn_answers h.nodup hin _) hall).sublist (page_sublist all req.offset req.limit)

/-! ### Numbers out of order -/

theorem number_of_rank {v : Value} (h : valueRank v = 2) : ∃ n, v = .number n := by
  cases v with
  | number n => exact ⟨n, rfl⟩
  | _ => cases h

/-- Where the comparison is not transitive, three numbers go round in a circle. -/
theorem exists_circle (hprinted : Printed S) (hS : ¬ TransOn S) : ∃ a b c : Number, S (.number a) ∧ S (.number b) ∧
    S (.number c) ∧ compareValues (.number a) (.number b) = .lt ∧ compareValues (.number b) (.number c) = .lt ∧
    compareValues (.number c) (.number a) = .lt := by
  unfold TransOn at hS
  push Not at hS
  obtain ⟨a, b, c, ha, hb, hc, hab, hbc, hac⟩ := hS
  have hranks : valueRank a = 2 ∧ valueRank c = 2 := by
    by_contra hnot
    exact hac (trans_unless_number hab hbc (by omega))
  have hb2 : valueRank b = 2 := by
    have hle := rank_le hab
    have hle' := rank_le hbc
    omega
  obtain ⟨a, rfl⟩ := number_of_rank hranks.1
  obtain ⟨b, rfl⟩ := number_of_rank hb2
  obtain ⟨c, rfl⟩ := number_of_rank hranks.2
  have hlt : ∀ {m n : Number}, S (.number m) → S (.number n) → m ≠ n →
      (compareValues (.number m) (.number n)).isLE = true → compareValues (.number m) (.number n) = .lt := by
    intro m n hm hn hne hle
    cases hcmp : compareValues (.number m) (.number n) with
    | lt => rfl
    | gt =>
      rw [hcmp] at hle
      cases hle
    | eq =>
      rw [compareValues, Ordering.then_eq_eq] at hcmp
      exact absurd (hprinted m n hm hn (Std.LawfulEqCmp.eq_of_compare hcmp.2)) hne
  have hne : a ≠ b := by
    rintro rfl
    exact hac hbc
  have hne' : b ≠ c := by
    rintro rfl
    exact hac hab
  refine ⟨a, b, c, ha, hb, hc, hlt ha hb hne hab, hlt hb hc hne' hbc, ?_⟩
  rw [compareValues_swap (.number a) (.number c)]
  cases hcmp : compareValues (.number a) (.number c) with
  | gt => rfl
  | _ =>
    rw [hcmp] at hac
    exact absurd rfl hac

theorem not_inOrder_circle {a b c : Row} (ha : a ∈ rows) (hb : b ∈ rows) (hc : c ∈ rows)
    (hab : compareValues (orderValue orderBy a) (orderValue orderBy b) = .lt)
    (hbc : compareValues (orderValue orderBy b) (orderValue orderBy c) = .lt)
    (hca : compareValues (orderValue orderBy c) (orderValue orderBy a) = .lt) : ¬ InOrder orderBy rows := by
  intro h
  -- Of two rows in strict order, the lesser one comes first.
  have hbefore : ∀ {i j : Nat} {x y : Row}, rows[i]? = some x → rows[j]? = some y →
      compareValues (orderValue orderBy x) (orderValue orderBy y) = .lt → i < j := by
    intro i j x y hx hy hxy
    obtain ⟨hi, rfl⟩ := List.getElem?_eq_some_iff.1 hx
    obtain ⟨hj, rfl⟩ := List.getElem?_eq_some_iff.1 hy
    by_contra hle
    have hji : (compareValues (orderValue orderBy rows[j]) (orderValue orderBy rows[i])).isLE = true := by
      rcases Nat.lt_or_eq_of_le (not_lt.1 hle) with hlt | heq
      · exact List.pairwise_iff_getElem.1 h j i hj hi hlt
      · subst heq
        rw [hxy]
        rfl
    exact not_lt_of_le hji hxy
  obtain ⟨i, hi⟩ := List.getElem?_of_mem ha
  obtain ⟨j, hj⟩ := List.getElem?_of_mem hb
  obtain ⟨k, hk⟩ := List.getElem?_of_mem hc
  have hij := hbefore hi hj hab
  have hjk := hbefore hj hk hbc
  have hki := hbefore hk hi hca
  omega

/-- A row whose one column holds the number. -/
def numberRow (col : String) (n : Number) : Row := ⟨[col], [.number n]⟩

theorem get_numberRow (col : String) (n : Number) : (numberRow col n).get col = some (.number n) := by
  simp [numberRow, Row.get]

theorem pkText_numberRow (col : String) (n : Number) : pkText col (numberRow col n) = n.toText := by
  rw [pkText, get_numberRow, Option.getD_some, Value.toText]
  show String.ofList n.toText.toList = n.toText
  exact String.ofList_toList

/-- The first shard answers with the rows, the others with none. -/
def firstAnswers (shards : Nat) (rows : List Row) : List (Nat × Outcome) :=
  (List.range shards).map fun i => (i, .rows (if i = 0 then rows else []))

theorem joins_firstAnswers (n : Nat) (rows : List Row) : Joins n (firstAnswers n rows) := by
  refine ⟨?_, ?_, ?_⟩
  · have hfst : (firstAnswers n rows).map Prod.fst = List.range n := by
      rw [firstAnswers, List.map_map]
      exact List.map_id' _
    rw [hfst]
    exact List.nodup_range
  · intro j hj
    obtain ⟨i, hi, rfl⟩ := List.mem_map.1 hj
    exact List.mem_range.1 hi
  · intro j hj message
    obtain ⟨i, _, rfl⟩ := List.mem_map.1 hj
    simp

theorem firstAnswers_eq {shards : List String} (hnodup : shards.Nodup) (hne : shards ≠ []) (rows : List Row) :
    ∃ others : List (List Row), shards.map (answers shards (firstAnswers shards.length rows)) =
      (rows :: others).map some ∧ others.flatten = [] := by
  obtain ⟨shard, shards, rfl⟩ := List.exists_cons_of_ne_nil hne
  refine ⟨shards.map fun _ => [], ?_, by simp⟩
  have hnodup' := (joins_firstAnswers (shard :: shards).length rows).nodup
  apply List.ext_getElem?
  intro i
  rw [List.getElem?_map, List.getElem?_map]
  cases hi : (shard :: shards)[i]? with
  | none =>
    rw [List.getElem?_eq_none_iff] at hi
    rw [List.getElem?_eq_none (by simpa using hi)]
    rfl
  | some name =>
    obtain ⟨hlt, _⟩ := List.getElem?_eq_some_iff.1 hi
    have hrows : rowsAt (firstAnswers (shard :: shards).length rows) i = some (if i = 0 then rows else []) :=
      (rowsAt_eq_some hnodup').2 (List.mem_map.2 ⟨i, List.mem_range.2 hlt, rfl⟩)
    rw [Option.map_some, answers_getElem hnodup hi, hrows]
    cases i with
    | zero => rfl
    | succ i =>
      have hi' : i < shards.length := Nat.lt_of_succ_lt_succ hlt
      simp [hi']

/-- Rows that answer with numbers of one circle come back out of order. -/
theorem Ready.not_scattered (hready : Ready r t req) (hne : t.shards ≠ []) (horder : req.orderBy = t.pk)
    (hoffset : req.offset = 0) (hlimit : req.limit = 3) {a b c : Number}
    (hab : compareValues (.number a) (.number b) = .lt) (hbc : compareValues (.number b) (.number c) = .lt)
    (hca : compareValues (.number c) (.number a) = .lt)
    (hprinted : ∀ m ∈ [a, b, c], ∀ n ∈ [a, b, c], m.toText = n.toText → m = n) :
    ¬ Scattered r t req (firstAnswers t.shardNames.length ([a, b, c].map (numberRow t.pk))) := by
  intro hscattered
  have hjoins := joins_firstAnswers t.shardNames.length ([a, b, c].map (numberRow t.pk))
  have hne' : t.shardNames ≠ [] := by simpa [ShardTable.shardNames] using hne
  obtain ⟨others, hresults, hothers⟩ := firstAnswers_eq hready.nodup hne' ([a, b, c].map (numberRow t.pk))
  have hflatten : ([a, b, c].map (numberRow t.pk) :: others).flatten = [a, b, c].map (numberRow t.pk) := by
    rw [List.flatten_cons, hothers, List.append_nil]
  have hpresent : ∀ rows ∈ [a, b, c].map (numberRow t.pk) :: others, ∀ row ∈ rows, Present t.pk row := by
    intro rows hrows row hrow
    have hmem := List.mem_flatten.2 ⟨rows, hrows, hrow⟩
    rw [hflatten] at hmem
    obtain ⟨n, _, rfl⟩ := List.mem_map.1 hmem
    exact ⟨_, get_numberRow t.pk n, rfl⟩
  have hthree : ([a, b, c].map (numberRow t.pk) :: others).flatten.length ≤ 3 := by
    rw [hflatten, List.length_map]
    exact le_rfl
  obtain ⟨rows, hmerge, _, hin, hall⟩ := merge_ok hpresent hpresent hthree
  have hmem : ∀ n ∈ [a, b, c], numberRow t.pk n ∈ rows := by
    intro n hn
    obtain ⟨row, hrow, htext⟩ := hall (numberRow t.pk n) (by rw [hflatten]; exact List.mem_map_of_mem hn)
    have hrow' := hin row hrow
    rw [hflatten] at hrow'
    obtain ⟨m, hm, rfl⟩ := List.mem_map.1 hrow'
    rw [pkText_numberRow, pkText_numberRow] at htext
    rwa [← hprinted m hm n hn htext]
  have hvalue : ∀ n, orderValue t.pk (numberRow t.pk n) = .number n := by
    intro n
    rw [orderValue, get_numberRow, Option.getD_some]
  have hok : r.scatterRun req (firstAnswers t.shardNames.length ([a, b, c].map (numberRow t.pk))) = .ok rows := by
    have hwhole : unanswered t.shardNames (firstAnswers t.shardNames.length ([a, b, c].map (numberRow t.pk))) = [] := by
      rw [← whole_iff hready.nodup hjoins]
      intro i hi
      exact ⟨_, List.mem_map.2 ⟨i, List.mem_range.2 hi, rfl⟩⟩
    rw [hready.scatterRun_eq hjoins, if_neg (not_not.2 hwhole), hresults, horder, hoffset, hlimit]
    exact hmerge
  have hordered := hscattered.ordered rows hok
  rw [horder] at hordered
  refine not_inOrder_circle (hmem a (by simp)) (hmem b (by simp)) (hmem c (by simp)) ?_ ?_ ?_ hordered
  · rw [hvalue, hvalue, hab]
  · rw [hvalue, hvalue, hbc]
  · rw [hvalue, hvalue, hca]

/-- Every scatter over rows whose order column is in the set keeps all its promises, exactly where the
comparison of the set's values is transitive. -/
theorem scatters_iff {catalog : ShardCatalog} {clients : List String} {name : String}
    (hbuild : ShardRouter.build catalog clients = .ok r) (htable : catalog.table name = .ok t)
    (hprinted : Printed S) :
    (∀ req joined, req.table = name → req.maxConcurrency ≠ 0 → Joins t.shardNames.length joined →
      ColumnIn S req.orderBy joined → Scattered r t req joined) ↔ TransOn S := by
  constructor
  · intro h
    by_contra hS
    obtain ⟨a, b, c, ha, hb, hc, hab, hbc, hca⟩ := exists_circle hprinted hS
    have hnumbers : ∀ n ∈ [a, b, c], S (.number n) := by simpa using ⟨ha, hb, hc⟩
    let req : ScatterRequest := ⟨name, t.pk, 3, 0, 1⟩
    obtain ⟨hready, hne⟩ : Ready r t req ∧ t.shards ≠ [] := ready_of_build hbuild htable one_ne_zero
    refine hready.not_scattered hne rfl rfl rfl hab hbc hca ?_ (h req _ rfl one_ne_zero (joins_firstAnswers _ _) ?_)
    · intro m hm n hn
      exact hprinted m n (hnumbers m hm) (hnumbers n hn)
    · intro i rows hrows row hrow v hv
      obtain ⟨j, _, heq⟩ := List.mem_map.1 hrows
      cases heq
      split_ifs at hrow
      · obtain ⟨n, hn, rfl⟩ := List.mem_map.1 hrow
        have hget := (present_some hv).1
        rw [get_numberRow] at hget
        cases hget
        exact hnumbers n hn
      · cases hrow
  · intro hS req joined hname hconcurrency hjoins hin
    obtain ⟨hready, _⟩ := ready_of_build hbuild (hname ▸ htable) hconcurrency
    exact hready.scattered hjoins hS hin

/-! ### A circle of three numbers -/

/-- An integer below `2 ^ 53`, the double next to it, and the integer after that. -/
def lowest : Number := .int (-2 ^ 53) (by decide) (by decide)

def lowestDouble : Number := .float (-2 ^ 53) "-9007199254740992.0"

def belowLowest : Number := .int (-2 ^ 53 - 1) (by decide) (by decide)

def scores : ShardTable := ⟨"scores", "id", "id", .hashMod 1, [⟨"s0", none⟩]⟩

def scoresRouter : ShardRouter := ⟨⟨[scores]⟩, ["s0"]⟩

def scoreRow (id : String) (n : Number) : Row := ⟨["id", "score"], [.string id, .number n]⟩

theorem scores_build : ShardRouter.build ⟨[scores]⟩ ["s0"] = .ok scoresRouter := rfl

def scoreEntry (id : String) (n : Number) : Entry := ⟨.number n, 0, scoreRow id n⟩

theorem sort_scores : [scoreEntry "a" lowest, scoreEntry "b" lowestDouble, scoreEntry "c" belowLowest].insertionSort
    (·.le ·) = [scoreEntry "a" lowest, scoreEntry "b" lowestDouble, scoreEntry "c" belowLowest] := by
  have hab : (scoreEntry "a" lowest).le (scoreEntry "b" lowestDouble) = true := by decide +kernel
  have hbc : (scoreEntry "b" lowestDouble).le (scoreEntry "c" belowLowest) = true := by decide +kernel
  simp [List.insertionSort, hab, hbc]

theorem merge_scores :
    mergeAll "score" "id" [some [scoreRow "a" lowest, scoreRow "b" lowestDouble, scoreRow "c" belowLowest]] =
      .ok [scoreRow "a" lowest, scoreRow "b" lowestDouble, scoreRow "c" belowLowest] := by
  show dedupe "id" [] (([scoreEntry "a" lowest, scoreEntry "b" lowestDouble,
    scoreEntry "c" belowLowest].insertionSort (·.le ·)).map (·.row)) = _
  rw [sort_scores]
  have hid : ∀ id n, present (scoreRow id n) "id" = some (.string id) := fun _ _ => rfl
  have hb : (Value.string "b").toText ∉ [(Value.string "a").toText] := by decide +kernel
  have hc : (Value.string "c").toText ∉ [(Value.string "b").toText, (Value.string "a").toText] := by decide +kernel
  simp only [List.map_cons, List.map_nil, scoreEntry, dedupe, hid, hb, hc, List.not_mem_nil, if_false, ok_bind, pure_eq_ok]

/-- The one shard answers with three rows, and they come back with the least score last. -/
theorem scores_out_of_order :
    let rows := [scoreRow "a" lowest, scoreRow "b" lowestDouble, scoreRow "c" belowLowest]
    scoresRouter.scatterRun ⟨"scores", "score", 10, 0, 1⟩ [(0, .rows rows)] = .ok rows ∧ ¬ InOrder "score" rows := by
  constructor
  · simp [ShardRouter.scatterRun, scoresRouter, scores, ShardCatalog.table, ShardTable.shardNames, gather, merge_eq,
      merge_scores, Except.map]
  · intro h
    have hac := (List.pairwise_cons.1 h).1 (scoreRow "c" belowLowest) (by simp)
    revert hac
    decide +kernel

theorem strings_trans : TransOn fun v => ∃ text, v = .string text := by
  rintro a b c ⟨_, rfl⟩ _ _ hab hbc
  exact trans_unless_number hab hbc (.inl (by simp [valueRank]))

def labels : ShardTable := ⟨"labels", "id", "id", .hashMod 2, [⟨"s0", none⟩, ⟨"s1", none⟩]⟩

def labelsRouter : ShardRouter := ⟨⟨[labels]⟩, ["s0", "s1"]⟩

def labelRow (id label : String) : Row := ⟨["id", "label"], [.string id, .string label]⟩

/-- The second shard is the first to answer. -/
def labelsJoined : List (Nat × Outcome) :=
  [(1, .rows [labelRow "b" "y", labelRow "c" "z"]), (0, .rows [labelRow "a" "x"])]

theorem scores_by_text : TransOn (fun v => ∃ text, v = .string text) ∧
    Scattered labelsRouter labels ⟨"labels", "label", 10, 0, 1⟩ labelsJoined ∧
    labelsRouter.scatterRun ⟨"labels", "label", 10, 0, 1⟩ labelsJoined =
      .ok [labelRow "a" "x", labelRow "b" "y", labelRow "c" "z"] := by
  have hbuild : ShardRouter.build ⟨[labels]⟩ ["s0", "s1"] = .ok labelsRouter := rfl
  have htable : (⟨[labels]⟩ : ShardCatalog).table "labels" = .ok labels := by simp [ShardCatalog.table, labels]
  have hjoins : Joins labels.shardNames.length labelsJoined := by
    refine ⟨by decide, by decide, ?_⟩
    simp [labelsJoined]
  have hcolumn : ColumnIn (fun v => ∃ text, v = .string text) "label" labelsJoined := by
    have hlabel : ∀ id label v, present (labelRow id label) "label" = some v → ∃ text, v = .string text := by
      intro id label v hv
      exact ⟨label, (Option.some.inj hv).symm⟩
    intro i rows hrows row hrow v hv
    simp only [labelsJoined, List.mem_cons, Prod.mk.injEq, Outcome.rows.injEq, List.not_mem_nil, or_false] at hrows
    rcases hrows with ⟨-, rfl⟩ | ⟨-, rfl⟩
    · simp only [List.mem_cons, List.not_mem_nil, or_false] at hrow
      rcases hrow with rfl | rfl <;> exact hlabel _ _ v hv
    · obtain rfl := List.mem_singleton.1 hrow
      exact hlabel _ _ v hv
  refine ⟨strings_trans, (scatters_iff hbuild htable ?_).2 strings_trans _ _ rfl one_ne_zero hjoins hcolumn, ?_⟩
  · rintro m n ⟨_, hm⟩
    cases hm
  · rfl

end Ecat.Shard
