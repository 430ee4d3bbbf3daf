import Ecat.ShardScatter
import Ecat.SortedList

/-! A scatter as its tasks end: the results are gathered in the order the tasks are joined, until
all are or the time is up. What is returned does not depend on that order. -/

namespace Ecat.Shard

open Json

/-- How the task of a shard ends. -/
inductive Outcome
  | rows (rows : List Row)
  | failed
  | panicked (message : String)

def gather (shards : List String) : List (Nat × Outcome) → List (Option (List Row)) → List String →
    Except ShardError (List (Option (List Row)) × List String)
  | [], results, failed => .ok (results, failed)
  | (i, .rows rows) :: joined, results, failed => gather shards joined (results.set i (some rows)) failed
  | (i, .failed) :: joined, results, failed => gather shards joined results (failed ++ [shards.getD i ""])
  | (_, .panicked message) :: _, _, _ => .error (.config s!"scatter task failed: {message}")

/-- The shards without a result, when the time is up. -/
def giveUp : List (String × Option (List Row)) → List String → List String
  | [], failed => failed
  | (name, slot) :: slots, failed =>
    giveUp slots (if slot.isNone ∧ name ∉ failed then failed ++ [name] else failed)

/-- `joined` has the tasks, each with its shard's place, that were joined in time, in that order. -/
def ShardRouter.scatterRun (r : ShardRouter) (req : ScatterRequest) (joined : List (Nat × Outcome)) :
    Except ShardError (List Row) :=
  if req.maxConcurrency = 0 then .error (.config "scatter max_concurrency must be at least 1")
  else do
    let t ← r.catalog.table req.table
    match t.shardNames.find? (· ∉ r.clients) with
    | some shard => .error (.config s!"shard `{shard}` has no client")
    | none =>
      let (results, failed) ← gather t.shardNames joined (t.shardNames.map fun _ => none) []
      let failed := if joined.length < t.shardNames.length then giveUp (t.shardNames.zip results) failed else failed
      if failed ≠ [] then .error (.partialFailure (failed.insertionSort (· ≤ ·)))
      else merge req.orderBy t.pk req.offset req.limit results

/-- Each task is joined at most once; none has panicked. -/
structure Joins (shards : Nat) (joined : List (Nat × Outcome)) : Prop where
  nodup : (joined.map Prod.fst).Nodup
  bound : ∀ j ∈ joined, j.1 < shards
  calm : ∀ j ∈ joined, ∀ message, j.2 ≠ .panicked message

/-- The rows of the `i`-th shard, if it has answered in time. -/
def rowsAt (joined : List (Nat × Outcome)) (i : Nat) : Option (List Row) :=
  match joined.lookup i with
  | some (.rows rows) => some rows
  | _ => none

/-! ### Gathering -/

variable {n i : Nat} {joined : List (Nat × Outcome)} {rows : List Row}

theorem Joins.tail {j : Nat × Outcome} (h : Joins n (j :: joined)) : Joins n joined :=
  ⟨(List.nodup_cons.1 h.nodup).2, fun k hk => h.bound k (by simp [hk]), fun k hk => h.calm k (by simp [hk])⟩

theorem Joins.perm {joined' : List (Nat × Outcome)} (h : Joins n joined) (hperm : joined'.Perm joined) :
    Joins n joined' :=
  ⟨(hperm.map Prod.fst).nodup_iff.2 h.nodup, fun j hj => h.bound j (hperm.subset hj),
    fun j hj => h.calm j (hperm.subset hj)⟩

theorem rowsAt_eq_some (hnodup : (joined.map Prod.fst).Nodup) : rowsAt joined i = some rows ↔ (i, .rows rows) ∈ joined := by
  induction joined with
  | nil => simp [rowsAt]
  | cons j joined ih =>
    obtain ⟨k, outcome⟩ := j
    obtain ⟨hk, hrest⟩ := List.nodup_cons.1 hnodup
    have ih := ih hrest
    by_cases hik : i = k
    · subst hik
      have hnot : ∀ o, (i, o) ∉ joined := by
        intro o ho
        exact hk (List.mem_map.2 ⟨(i, o), ho, rfl⟩)
      cases outcome <;> simp [rowsAt, hnot]
      exact eq_comm
    · have hlookup : rowsAt ((k, outcome) :: joined) i = rowsAt joined i := by
        rw [rowsAt, rowsAt, List.lookup_cons, show (i == k) = false by simpa using hik]
      rw [hlookup, ih]
      simp [hik]

theorem rowsAt_perm {joined' : List (Nat × Outcome)} (hnodup : (joined.map Prod.fst).Nodup)
    (hperm : joined'.Perm joined) : rowsAt joined' i = rowsAt joined i := by
  apply Option.ext
  intro rows
  rw [rowsAt_eq_some hnodup, rowsAt_eq_some ((hperm.map Prod.fst).nodup_iff.2 hnodup), hperm.mem_iff]

/-- The names of the shards that failed, in the order they did. -/
def failures (shards : List String) (joined : List (Nat × Outcome)) : List String :=
  joined.filterMap fun j => match j.2 with
    | .failed => some (shards.getD j.1 "")
    | _ => none

theorem gather_eq {shards : List String} {results : List (Option (List Row))} {failed : List String}
    (h : Joins n joined) : gather shards joined results failed =
      .ok (results.mapIdx fun i old => (rowsAt joined i).or old, failed ++ failures shards joined) := by
  induction joined generalizing results failed with
  | nil =>
    have hsame : (results.mapIdx fun i old => (rowsAt [] i).or old) = results := by
      apply List.ext_getElem?
      intro i
      rw [List.getElem?_mapIdx]
      simp [rowsAt]
    rw [hsame]
    simp [gather, failures]
  | cons j joined ih =>
    obtain ⟨k, outcome⟩ := j
    have hk : k ∉ joined.map Prod.fst := (List.nodup_cons.1 h.nodup).1
    have hother : ∀ i, i ≠ k → rowsAt ((k, outcome) :: joined) i = rowsAt joined i := by
      intro i hik
      rw [rowsAt, rowsAt, List.lookup_cons, show (i == k) = false by simpa using hik]
    have hnone : rowsAt joined k = none := by
      rw [Option.eq_none_iff_forall_ne_some]
      intro rows hrows
      exact hk (List.mem_map.2 ⟨_, (rowsAt_eq_some h.tail.nodup).1 hrows, rfl⟩)
    cases outcome with
    | panicked message => exact absurd rfl (h.calm (k, .panicked message) List.mem_cons_self message)
    | rows rows =>
      have hhead : rowsAt ((k, .rows rows) :: joined) k = some rows := by rw [rowsAt, List.lookup_cons_self]
      rw [gather, ih h.tail]
      congr 2
      apply List.ext_getElem?
      intro i
      rw [List.getElem?_mapIdx, List.getElem?_mapIdx, List.getElem?_set]
      by_cases hik : k = i
      · subst hik
        by_cases hlt : k < results.length
        · simp [hlt, hnone, hhead]
        · simp [hlt]
      · rw [if_neg hik, hother i (Ne.symm hik)]
    | failed =>
      have hhead : rowsAt ((k, .failed) :: joined) k = none := by rw [rowsAt, List.lookup_cons_self]
      rw [gather, ih h.tail]
      congr 2
      · apply List.ext_getElem?
        intro i
        rw [List.getElem?_mapIdx, List.getElem?_mapIdx]
        by_cases hik : i = k
        · subst hik
          simp [hnone, hhead]
        · rw [hother i hik]
      · simp [failures]

/-- A task that panics ends the gathering with an error of its own, and no shard is named. -/
theorem gather_panicked {shards : List String} {results : List (Option (List Row))} {failed : List String}
    (h : ∃ j ∈ joined, ∃ message, j.2 = .panicked message) :
    ∃ text, gather shards joined results failed = .error (.config text) := by
  induction joined generalizing results failed with
  | nil => simp at h
  | cons j joined ih =>
    obtain ⟨i, outcome⟩ := j
    cases outcome with
    | panicked message => exact ⟨_, rfl⟩
    | rows rows => exact ih (by simpa using h)
    | failed => exact ih (by simpa using h)

/-! ### The shards without an answer -/

variable {shards : List String} {name : String}

/-- What each shard has answered in time. -/
def answers (shards : List String) (joined : List (Nat × Outcome)) (name : String) : Option (List Row) :=
  rowsAt joined (shards.idxOf name)

theorem answers_getElem (hnodup : shards.Nodup) (hi : shards[i]? = some name) :
    answers shards joined name = rowsAt joined i := by
  obtain ⟨hlt, rfl⟩ := List.getElem?_eq_some_iff.1 hi
  rw [answers, hnodup.idxOf_getElem]

theorem gathered_eq (hnodup : shards.Nodup) :
    ((shards.map fun _ => none).mapIdx fun i old => (rowsAt joined i).or old) = shards.map (answers shards joined) := by
  apply List.ext_getElem?
  intro i
  rw [List.getElem?_mapIdx, List.getElem?_map, List.getElem?_map]
  cases hi : shards[i]? with
  | none => rfl
  | some name => simp [answers_getElem hnodup hi]

theorem mem_giveUp {slots : List (String × Option (List Row))} {failed : List String} :
    name ∈ giveUp slots failed ↔ name ∈ failed ∨ (name, none) ∈ slots := by
  induction slots generalizing failed with
  | nil => simp [giveUp]
  | cons slot slots ih =>
    obtain ⟨other, slot⟩ := slot
    rw [giveUp, ih]
    by_cases hslot : slot.isNone ∧ other ∉ failed
    · rw [if_pos hslot, Option.isNone_iff_eq_none.1 hslot.1]
      simp [or_assoc]
    · rw [if_neg hslot]
      cases slot with
      | some rows => simp
      | none =>
        have hother : other ∈ failed := by simpa using hslot
        constructor
        · exact fun h => h.imp_right fun hin => List.mem_cons_of_mem _ hin
        · rintro (h | h)
          · exact .inl h
          · rcases List.mem_cons.1 h with heq | h
            · cases heq
              exact .inl hother
            · exact .inr h

theorem nodup_giveUp {slots : List (String × Option (List Row))} {failed : List String} (h : failed.Nodup) :
    (giveUp slots failed).Nodup := by
  induction slots generalizing failed with
  | nil => exact h
  | cons slot slots ih =>
    obtain ⟨other, slot⟩ := slot
    rw [giveUp]
    apply ih
    split_ifs with hslot
    · rw [List.nodup_append]
      refine ⟨h, List.nodup_singleton other, ?_⟩
      rintro a ha b hb rfl
      exact hslot.2 (List.mem_singleton.1 hb ▸ ha)
    · exact h

theorem mem_failures : name ∈ failures shards joined ↔ ∃ i, (i, .failed) ∈ joined ∧ shards.getD i "" = name := by
  rw [failures, List.mem_filterMap]
  constructor
  · rintro ⟨⟨i, outcome⟩, hj, heq⟩
    cases outcome with
    | failed => exact ⟨i, hj, Option.some.inj heq⟩
    | _ => cases heq
  · rintro ⟨i, hj, heq⟩
    exact ⟨(i, .failed), hj, congrArg some heq⟩

theorem nodup_failures (hnodup : shards.Nodup) (h : Joins shards.length joined) : (failures shards joined).Nodup := by
  have hne : joined.Pairwise fun j k => j.1 ≠ k.1 := by
    have hindices := h.nodup
    rwa [List.Nodup, List.pairwise_map] at hindices
  rw [failures, List.Nodup, List.pairwise_filterMap]
  refine hne.imp_of_mem ?_
  rintro ⟨i, o⟩ ⟨k, o'⟩ hj hk hik a ha b hb heq
  have hi := h.bound _ hj
  have hk := h.bound _ hk
  cases o <;> cases o' <;> simp only [reduceCtorEq, Option.some.injEq] at ha hb
  rw [List.getD_eq_getElem _ _ hi] at ha
  rw [List.getD_eq_getElem _ _ hk] at hb
  exact hik ((hnodup.getElem_inj_iff).1 (ha.trans (heq.trans hb.symm)))

/-- A place that is missing among distinct ones leaves fewer of them than shards. -/
theorem length_lt_of_missing (h : Joins n joined) (hi : i < n) (hmissing : i ∉ joined.map Prod.fst) :
    joined.length < n := by
  have hsub : joined.map Prod.fst ⊆ (List.range n).erase i := by
    intro k hk
    obtain ⟨j, hj, rfl⟩ := List.mem_map.1 hk
    have hne : j.1 ≠ i := by
      rintro rfl
      exact hmissing hk
    rw [List.mem_erase_of_ne hne]
    exact List.mem_range.2 (h.bound j hj)
  have hlength := (List.subperm_of_subset h.nodup hsub).length_le
  rw [List.length_map, List.length_erase_of_mem (List.mem_range.2 hi), List.length_range] at hlength
  omega

def unanswered (shards : List String) (joined : List (Nat × Outcome)) : List String :=
  shards.filter fun shard => (answers shards joined shard).isNone

def lost (shards : List String) (joined : List (Nat × Outcome)) : List String :=
  if joined.length < shards.length then
    giveUp (shards.zip (shards.map (answers shards joined))) (failures shards joined)
  else failures shards joined

theorem mem_zip_answers : (name, none) ∈ shards.zip (shards.map (answers shards joined)) ↔
    name ∈ unanswered shards joined := by
  rw [← List.map_prod_left_eq_zip, unanswered, List.mem_filter]
  simp only [List.mem_map, Prod.mk.injEq, Option.isNone_iff_eq_none]
  constructor
  · rintro ⟨_, hmem, rfl, hnone⟩
    exact ⟨hmem, hnone⟩
  · rintro ⟨hmem, hnone⟩
    exact ⟨name, hmem, rfl, hnone⟩

theorem failures_unanswered (hnodup : shards.Nodup) (h : Joins shards.length joined)
    (hname : name ∈ failures shards joined) : name ∈ unanswered shards joined := by
  obtain ⟨i, hj, rfl⟩ := mem_failures.1 hname
  have hi : i < shards.length := h.bound _ hj
  rw [List.getD_eq_getElem _ _ hi, unanswered, List.mem_filter, Option.isNone_iff_eq_none,
    answers_getElem hnodup (List.getElem?_eq_getElem hi), Option.eq_none_iff_forall_ne_some]
  refine ⟨List.getElem_mem hi, ?_⟩
  intro rows hrows
  have hrows := (rowsAt_eq_some h.nodup).1 hrows
  have heq := List.inj_on_of_nodup_map h.nodup hj hrows rfl
  cases heq

theorem unanswered_lost (h : Joins shards.length joined)
    (hname : name ∈ unanswered shards joined) :
    name ∈ failures shards joined ∨ joined.length < shards.length := by
  obtain ⟨hmem, hnone⟩ := List.mem_filter.1 hname
  have hi := List.idxOf_lt_length_of_mem hmem
  by_cases hjoined : shards.idxOf name ∈ joined.map Prod.fst
  · obtain ⟨⟨i, outcome⟩, hj, rfl⟩ := List.mem_map.1 hjoined
    left
    cases outcome with
    | panicked message => exact absurd rfl (h.calm _ hj message)
    | rows rows =>
      rw [answers, (rowsAt_eq_some h.nodup).2 hj] at hnone
      cases hnone
    | failed =>
      refine mem_failures.2 ⟨_, hj, ?_⟩
      rw [List.getD_eq_getElem _ _ hi, List.getElem_idxOf hi]
  · exact .inr (length_lt_of_missing h hi hjoined)

theorem lost_perm (hnodup : shards.Nodup) (h : Joins shards.length joined) :
    (lost shards joined).Perm (unanswered shards joined) := by
  have hunanswered : (unanswered shards joined).Nodup := hnodup.filter _
  unfold lost
  split_ifs with hlt
  · rw [List.perm_ext_iff_of_nodup (nodup_giveUp (nodup_failures hnodup h)) hunanswered]
    intro name
    rw [mem_giveUp, mem_zip_answers]
    exact or_iff_right_of_imp (failures_unanswered hnodup h)
  · rw [List.perm_ext_iff_of_nodup (nodup_failures hnodup h) hunanswered]
    intro name
    exact ⟨failures_unanswered hnodup h, fun hname => (unanswered_lost h hname).resolve_right hlt⟩

/-- The order in which the tasks are joined plays no part: a run is a scatter over what each shard has
answered in time. -/
theorem scatterRun_eq (r : ShardRouter) (req : ScatterRequest) {t : ShardTable}
    (htable : r.catalog.table req.table = .ok t) (hnodup : t.shardNames.Nodup)
    (h : Joins t.shardNames.length joined) :
    r.scatterRun req joined = r.scatter req (answers t.shardNames joined) := by
  have hperm := lost_perm hnodup h
  have hempty : lost t.shardNames joined ≠ [] ↔ unanswered t.shardNames joined ≠ [] := by
    rw [ne_eq, ne_eq, ← List.length_eq_zero_iff, hperm.length_eq, List.length_eq_zero_iff]
  have hsort : (lost t.shardNames joined).insertionSort (· ≤ ·) =
      (unanswered t.shardNames joined).insertionSort (· ≤ ·) :=
    (((List.perm_insertionSort _ _).trans hperm).trans (List.perm_insertionSort _ _).symm).eq_of_pairwise'
      (List.pairwise_insertionSort _ _) (List.pairwise_insertionSort _ _)
  unfold ShardRouter.scatterRun ShardRouter.scatter
  split
  · rfl
  · rw [htable, ok_bind, ok_bind]
    cases hfind : t.shardNames.find? (· ∉ r.clients) with
    | some shard => rfl
    | none =>
      simp only [gather_eq h, gathered_eq hnodup, List.nil_append, ok_bind]
      show (if lost t.shardNames joined ≠ [] then
          Except.error (ShardError.partialFailure ((lost t.shardNames joined).insertionSort (· ≤ ·)))
        else merge req.orderBy t.pk req.offset req.limit (t.shardNames.map (answers t.shardNames joined))) = _
      rw [hsort]
      simp only [hempty]
      rfl

end Ecat.Shard
