import Ecat.ShardMigrate

/-! Tables as the databases keep them: one row for each primary key. A row is looked up by the
position of its key, and a scan by cursor goes through the rows in the order of the positions. -/

namespace Ecat.Shard

open Json

section

variable {K : Type} [LinearOrder K] {E : Engine K} {pk : String} {rows : List Row} {row other : Row} {p : K}

def Engine.Distinct (E : Engine K) (pk : String) (rows : List Row) : Prop :=
  (rows.map (E.rowPos pk)).Nodup

def Engine.look (E : Engine K) (pk : String) (rows : List Row) (p : K) : Option Row :=
  rows.find? fun row => E.rowPos pk row = p

omit [LinearOrder K] in
theorem Engine.Distinct.nodup (h : E.Distinct pk rows) : rows.Nodup := List.Nodup.of_map _ h

omit [LinearOrder K] in
theorem Engine.Distinct.eq (h : E.Distinct pk rows) (hrow : row ∈ rows) (hother : other ∈ rows)
    (hpos : E.rowPos pk row = E.rowPos pk other) : row = other :=
  List.inj_on_of_nodup_map h hrow hother hpos

theorem look_eq_some (h : E.Distinct pk rows) :
    E.look pk rows p = some row ↔ row ∈ rows ∧ E.rowPos pk row = p := by
  constructor
  · intro hfind
    exact ⟨List.mem_of_find?_eq_some hfind, by simpa using List.find?_some hfind⟩
  · rintro ⟨hrow, rfl⟩
    cases hfind : E.look pk rows (E.rowPos pk row) with
    | none =>
      have hnone := List.find?_eq_none.1 hfind row hrow
      exact absurd (decide_eq_true rfl) hnone
    | some found =>
      have hmem := List.mem_of_find?_eq_some hfind
      have hpos : E.rowPos pk found = E.rowPos pk row := by simpa using List.find?_some hfind
      rw [h.eq hmem hrow hpos]

theorem look_pos (h : E.look pk rows p = some row) : row ∈ rows ∧ E.rowPos pk row = p :=
  ⟨List.mem_of_find?_eq_some h, by simpa using List.find?_some h⟩

theorem mem_put : other ∈ E.put pk row rows ↔ other = row ∨ other ∈ rows ∧ E.rowPos pk other ≠ E.rowPos pk row := by
  rw [Engine.put, List.mem_append, List.mem_filter, List.mem_singleton, decide_eq_true_eq]
  tauto

theorem distinct_put (h : E.Distinct pk rows) : E.Distinct pk (E.put pk row rows) := by
  rw [Engine.Distinct, Engine.put, List.map_append, List.map_singleton, List.nodup_append]
  refine ⟨List.Nodup.sublist (List.Sublist.map _ List.filter_sublist) h, List.nodup_singleton _, ?_⟩
  intro p hp q hq
  obtain ⟨a, ha, rfl⟩ := List.mem_map.1 hp
  rw [List.mem_singleton.1 hq]
  simpa using (List.mem_filter.1 ha).2

theorem look_put (h : E.Distinct pk rows) :
    E.look pk (E.put pk row rows) p = if p = E.rowPos pk row then some row else E.look pk rows p := by
  split_ifs with hp
  · exact (look_eq_some (distinct_put h)).2 ⟨mem_put.2 (.inl rfl), hp.symm⟩
  · refine Option.ext fun found => ?_
    rw [look_eq_some (distinct_put h), look_eq_some h, mem_put]
    constructor
    · rintro ⟨rfl | hfound, hpos⟩
      · exact absurd hpos.symm hp
      · exact ⟨hfound.1, hpos⟩
    · rintro ⟨hfound, rfl⟩
      exact ⟨.inr ⟨hfound, hp⟩, rfl⟩

theorem mem_put_other (hpos : E.rowPos pk other ≠ E.rowPos pk row) : other ∈ E.put pk row rows ↔ other ∈ rows := by
  rw [mem_put]
  constructor
  · rintro (rfl | hother)
    · exact absurd rfl hpos
    · exact hother.1
  · intro hother
    exact .inr ⟨hother, hpos⟩

theorem mem_put_self (h : E.Distinct pk rows) (hrow : row ∈ rows) : other ∈ E.put pk row rows ↔ other ∈ rows := by
  rw [mem_put]
  constructor
  · rintro (rfl | hother)
    · exact hrow
    · exact hother.1
  · intro hother
    by_cases hpos : E.rowPos pk other = E.rowPos pk row
    · exact .inl (h.eq hother hrow hpos)
    · exact .inr ⟨hother, hpos⟩

/-! ### Scans -/

variable {t : ShardTable} {range : Option KeyRange} {cursor : Option Value}

/-- The rows a scan has before it, in the order of their positions. -/
def Engine.rest (E : Engine K) (t : ShardTable) (range : Option KeyRange) (cursor : Option Value)
    (rows : List Row) : List Row :=
  (rows.filter fun row => cursor.all (E.pos · < E.rowPos t.pk row) && keyWithin range (row.get t.key)).insertionSort
    (E.rowPos t.pk · ≤ E.rowPos t.pk ·)

def Engine.Past (E : Engine K) (cursor : Option Value) (p : K) : Prop := ∀ v, cursor = some v → E.pos v < p

theorem select_eq (limit : Nat) : E.select t range cursor limit rows = (E.rest t range cursor rows).take limit := rfl

theorem mem_rest : row ∈ E.rest t range cursor rows ↔
    row ∈ rows ∧ E.Past cursor (E.rowPos t.pk row) ∧ keyWithin range (row.get t.key) = true := by
  rw [Engine.rest, List.mem_insertionSort, List.mem_filter, Bool.and_eq_true, Option.all_eq_true]
  simp [Engine.Past]

theorem rest_strict (h : E.Distinct t.pk rows) :
    (E.rest t range cursor rows).Pairwise fun a b => E.rowPos t.pk a < E.rowPos t.pk b :=
  strict_insertionSort (fun _ ha _ hb => h.eq (List.mem_of_mem_filter ha) (List.mem_of_mem_filter hb))
    (h.nodup.filter _)

theorem rest_put_self (h : E.Distinct t.pk rows) (hrow : row ∈ rows) :
    E.rest t range cursor (E.put t.pk row rows) = E.rest t range cursor rows := by
  refine strict_ext (rest_strict (distinct_put h)) (rest_strict h) ?_
  intro other
  rw [mem_rest, mem_rest, mem_put_self h hrow]

theorem rest_next (h : E.Distinct t.pk rows) {batch more : List Row} {last : Row} {v : Value}
    (hsplit : E.rest t range cursor rows = batch ++ more) (hlast : batch.getLast? = some last)
    (hv : last.get t.pk = some v) : E.rest t range (some v) rows = more := by
  have hpos : E.pos v = E.rowPos t.pk last := by rw [Engine.rowPos, hv, Option.getD_some]
  have hmemLast : last ∈ batch := List.mem_of_getLast? hlast
  have hsorted : (batch ++ more).Pairwise fun a b => E.rowPos t.pk a < E.rowPos t.pk b := by
    rw [← hsplit]
    exact rest_strict h
  obtain ⟨hbatch, hmore, hcross⟩ := List.pairwise_append.1 hsorted
  have hpast : E.Past cursor (E.rowPos t.pk last) :=
    (mem_rest.1 (by rw [hsplit]; exact List.mem_append_left _ hmemLast)).2.1
  refine strict_ext (rest_strict h) hmore ?_
  intro a
  have hin : a ∈ E.rest t range cursor rows ↔ a ∈ batch ∨ a ∈ more := by rw [hsplit, List.mem_append]
  rw [mem_rest] at hin ⊢
  constructor
  · rintro ⟨ha, hbehind, hwithin⟩
    have hlt := hbehind v rfl
    rw [hpos] at hlt
    rcases hin.1 ⟨ha, fun u hu => (hpast u hu).trans hlt, hwithin⟩ with hb | hm
    · exact absurd (strict_le_getLast hbatch hlast hb) (not_le.2 hlt)
    · exact hm
  · intro hm
    obtain ⟨ha, -, hwithin⟩ := hin.2 (.inr hm)
    refine ⟨ha, ?_, hwithin⟩
    intro u hu
    rw [← Option.some.inj hu, hpos]
    exact hcross last hmemLast a hm

end

end Ecat.Shard
