import Ecat.OrmBatchText

/-! The statements of a batch hold every row once, in order. Each fits the parameters of one statement,
has a placeholder for each of its values, and what the call reports is the sum of what they affect. -/

namespace Ecat.Orm

open Clause Template

variable {V W : Type}

namespace Text

/-! ### Sending -/

variable {execute : Nat → Built W → Except OrmError Nat}

theorem sendAll_prefix (k total : Nat) (builts : List (Built W)) :
    (sendAll execute k total (builts.map .ok)).1 <+: builts := by
  induction builts generalizing k total with
  | nil => exact List.prefix_refl []
  | cons built builts ih =>
    rw [List.map_cons, sendAll]
    cases execute k built with
    | error error => simp
    | ok affected => exact List.prefix_cons_inj built |>.2 (ih (k + 1) (total + affected))

theorem sendAll_of_counts {k total : Nat} {builts : List (Built W)} {counts : List Nat}
    (h : (builts.mapIdx fun i built => execute (k + i) built) = counts.map .ok) :
    sendAll execute k total (builts.map .ok) = (builts, .ok (total + counts.sum)) := by
  induction builts generalizing k total counts with
  | nil =>
    have hcounts : counts = [] := by simpa using h.symm
    rw [hcounts]
    rfl
  | cons built builts ih =>
    cases counts with
    | nil => simp at h
    | cons count counts =>
      rw [List.mapIdx_cons, List.map_cons, List.cons.injEq] at h
      have hrest : (builts.mapIdx fun i built => execute (k + 1 + i) built) = counts.map .ok := by
        rw [← h.2]
        simp [Nat.add_assoc, Nat.add_comm 1]
      have hfirst : execute k built = .ok count := h.1
      rw [List.map_cons, sendAll, hfirst]
      dsimp only
      rw [ih hrest, List.sum_cons, Nat.add_assoc]

theorem counts_of_sendAll {k total n : Nat} {builts : List (Built W)}
    (h : (sendAll execute k total (builts.map .ok)).2 = .ok n) :
    ∃ counts : List Nat, (builts.mapIdx fun i built => execute (k + i) built) = counts.map .ok := by
  induction builts generalizing k total with
  | nil => exact ⟨[], rfl⟩
  | cons built builts ih =>
    rw [List.map_cons, sendAll] at h
    cases hanswer : execute k built with
    | error error => simp [hanswer] at h
    | ok count =>
      rw [hanswer] at h
      obtain ⟨counts, hcounts⟩ := ih h
      refine ⟨count :: counts, ?_⟩
      rw [List.mapIdx_cons, List.map_cons, ← hcounts]
      simp [hanswer, Nat.add_assoc, Nat.add_comm 1]

end Text

/-- The rows are cut into slices with a statement each, which takes no more parameters than allowed and
lines up with its slice. The statements are sent in order until one fails, and if none does the call
reports the sum of what they affect. -/
structure SendsOnce {R : Type} (dialect : Dialect) (limit : Nat) (template : List R → Template W) (plain : Prop)
    (rows : List R) (execute : Nat → Built W → Except OrmError Nat) (run : List (Built W) × Except OrmError Nat)
    (slices : List (List R)) (builts : List (Built W)) : Prop where
  rows : slices.flatten = rows
  statements : List.Forall₂ (fun slice built => slice ≠ [] ∧ Text.LinesUp dialect built (template slice) plain) slices builts
  fits : ∀ built ∈ builts, built.params.length ≤ limit
  sent : run.1 <+: builts
  answered : ∀ counts : List Nat, builts.mapIdx execute = counts.map .ok → run = (builts, .ok counts.sum)
  reported : ∀ n, run.2 = .ok n → ∃ counts : List Nat, builts.mapIdx execute = counts.map .ok

theorem sendsOnce_nil {R : Type} (dialect : Dialect) (limit : Nat) (template : List R → Template W) (plain : Prop)
    (execute : Nat → Built W → Except OrmError Nat) :
    SendsOnce dialect limit template plain [] execute ([], .ok 0) [] [] where
  rows := rfl
  statements := .nil
  fits := by simp
  sent := List.prefix_refl []
  answered counts hcounts := by
    have hnil : counts = [] := by simpa using hcounts.symm
    rw [hnil]
    rfl
  reported n _ := ⟨[], rfl⟩

/-- It is enough that every slice has its statement, with as many parameters for each row. -/
theorem sendsOnce_of_render {R : Type} {dialect : Dialect} {limit perRow : Nat} {template : List R → Template W}
    {plain : Prop} {rows : List R} (execute : Nat → Built W → Except OrmError Nat)
    {render : List R → Except OrmError (Built W)} (hpos : 0 < perRow) (hfits : perRow ≤ limit)
    (hrender : ∀ slice, (∀ row ∈ slice, row ∈ rows) → ∃ built, render slice = .ok built ∧
      Text.LinesUp dialect built (template slice) plain ∧ built.params.length = slice.length * perRow) :
    ∃ slices builts, SendsOnce dialect limit template plain rows execute
      (Text.sendAll execute 0 0 ((sliceBy (splitChunks rows.length (chunkSize limit perRow)) rows).map render))
      slices builts := by
  have hsum := sum_splitChunks rows.length (chunkSize limit perRow)
  have hflatten : (sliceBy (splitChunks rows.length (chunkSize limit perRow)) rows).flatten = rows :=
    flatten_sliceBy hsum
  have hsize : ∀ slice ∈ sliceBy (splitChunks rows.length (chunkSize limit perRow)) rows,
      0 < slice.length ∧ slice.length * perRow ≤ limit := by
    intro slice hslice
    obtain ⟨hne, hle⟩ := mem_splitChunks (length_mem_of_mem_sliceBy hsum hslice)
    exact ⟨hne, mul_le_of_le_chunkSize hpos hfits hle⟩
  generalize sliceBy (splitChunks rows.length (chunkSize limit perRow)) rows = slices at hflatten hsize
  have hbuilts : ∀ slice ∈ slices, ∃ built, (render slice = .ok built ∧
      slice ≠ [] ∧ Text.LinesUp dialect built (template slice) plain) ∧ built.params.length ≤ limit := by
    intro slice hslice
    have hsub : ∀ row ∈ slice, row ∈ rows := by
      intro row hrow
      rw [← hflatten]
      exact List.mem_flatten_of_mem hslice hrow
    obtain ⟨built, hbuilt, hlines, hlength⟩ := hrender slice hsub
    obtain ⟨hne, hle⟩ := hsize slice hslice
    exact ⟨built, ⟨hbuilt, List.ne_nil_of_length_pos hne, hlines⟩, hlength ▸ hle⟩
  obtain ⟨builts, hall, hlimit⟩ := exists_forall₂_iff.2 hbuilts
  have hmap : slices.map render = builts.map .ok := by
    rw [← List.forall₂_eq_eq_eq, List.forall₂_map_left_iff, List.forall₂_map_right_iff]
    exact hall.imp fun _ _ h => h.1
  rw [hmap]
  refine ⟨slices, builts, hflatten, hall.imp fun _ _ h => h.2, hlimit, Text.sendAll_prefix 0 0 builts, ?_, ?_⟩
  · intro counts hcounts
    have hindex : (builts.mapIdx fun i built => execute (0 + i) built) = counts.map .ok := by
      simpa using hcounts
    rw [Text.sendAll_of_counts hindex, Nat.zero_add]
  · intro n hn
    simpa using Text.counts_of_sendAll hn

namespace Batch

/-! ### The calls -/

section Calls

variable (vals : Values V) (dialect : Dialect) (m : TableMeta) (limit : Nat) (now : Nat → String → V)
  (execute : Nat → Built (Option V) → Except OrmError Nat) {entities : List (Listed V m)} {listed : List String}

theorem known_of_listed {e : Listed V m} (h : e.values.map Prod.fst = listed) : ∀ c ∈ listed, c ∈ m.names := by
  intro c hc
  rw [← h] at hc
  obtain ⟨cell, hcell, rfl⟩ := List.mem_map.1 hc
  exact e.known cell hcell

theorem insertMany_sends (hlisted : ∀ e ∈ entities, e.values.map Prod.fst = listed)
    (hcols : insertColumns m listed ≠ []) (hfits : (insertColumns m listed).length ≤ limit) :
    ∃ slices builts, SendsOnce dialect limit
      (fun slice => insertTemplate dialect m (insertColumns m listed) (slice.map fun row => row.map Prod.snd))
      (PlainTable dialect m) (entities.mapIdx fun r e => insertParts m (now r) e) execute
      (insertMany dialect m limit now execute entities) slices builts := by
  cases entities with
  | nil => exact ⟨[], [], sendsOnce_nil dialect limit _ _ execute⟩
  | cons first rest =>
    have hfirst : first.values.map Prod.fst = listed := hlisted first List.mem_cons_self
    have hknown : ∀ c ∈ insertColumns m listed, c ∈ m.names := by
      intro c hc
      exact known_of_listed m hfirst c (List.mem_of_mem_filter hc)
    have hrows : ∀ row ∈ (first :: rest).mapIdx fun r e => insertParts m (now r) e,
        row.map Prod.fst = insertColumns m listed := by
      intro row hrow
      obtain ⟨r, hr, rfl⟩ := List.mem_mapIdx.1 hrow
      exact insertParts_columns m (now r) (hlisted _ (List.getElem_mem hr))
    have hsends := sendsOnce_of_render execute (List.length_pos_of_ne_nil hcols) hfits fun slice hslice =>
      insertChunk_lines_up dialect m hknown fun row hrow => hrows row (hslice row hrow)
    rw [List.length_mapIdx] at hsends
    rw [insertMany, insertParts_columns m (now 0) hfirst, if_neg (by simpa using hcols)]
    exact hsends

theorem known_whereExtra {setCols : List String} (h : ∀ c ∈ setCols, c ∈ m.names) :
    ∀ c ∈ whereExtra m setCols, c ∈ m.names := by
  intro c hc
  rw [whereExtra] at hc
  split at hc
  · split at hc
    · rename_i vc _ hany
      obtain ⟨d, hd, heq⟩ := List.any_eq_true.1 hany
      rw [List.mem_singleton.1 hc, ← of_decide_eq_true heq]
      exact h d hd
    · simp at hc
  · simp at hc

theorem updateMany_sends (hlisted : ∀ e ∈ entities, e.values.map Prod.fst = listed)
    (hcols : setColumns m listed ≠ [])
    (hfits : 1 + (setColumns m listed).length + (whereExtra m (setColumns m listed)).length ≤ limit) :
    ∃ slices builts, SendsOnce dialect limit
      (fun slice => updateTemplate dialect m.table m.pk (setColumns m listed) (whereExtra m (setColumns m listed))
        (slice.map (updateValues m (whereExtra m (setColumns m listed)))))
      (PlainTable dialect m) (entities.mapIdx fun r e => updateRow vals m (now r) e) execute
      (updateMany vals dialect m limit now execute entities) slices builts := by
  cases entities with
  | nil => exact ⟨[], [], sendsOnce_nil dialect limit _ _ execute⟩
  | cons first rest =>
    have hfirst : first.values.map Prod.fst = listed := hlisted first List.mem_cons_self
    have hknown : ∀ c ∈ setColumns m listed, c ∈ m.names := by
      intro c hc
      exact known_of_listed m hfirst c (List.mem_of_mem_filter hc)
    have hrows : ∀ row ∈ (first :: rest).mapIdx fun r e => updateRow vals m (now r) e,
        row.set.map Prod.fst = setColumns m listed := by
      intro row hrow
      obtain ⟨r, hr, rfl⟩ := List.mem_mapIdx.1 hrow
      exact updateRow_columns vals m (now r) (hlisted _ (List.getElem_mem hr))
    have hsends := sendsOnce_of_render execute (by omega) hfits fun slice hslice =>
      updateChunk_lines_up dialect m hknown (known_whereExtra m hknown) fun row hrow => hrows row (hslice row hrow)
    rw [List.length_mapIdx] at hsends
    rw [updateMany, updateRow_columns vals m (now 0) hfirst, if_neg (by simpa using hcols)]
    exact hsends

/-- The parameters of an updated row: the key, the cells to set, and the version the entity had. -/
theorem updateValues_eq (now : String → V) (e : Listed V m) (setCols : List String) :
    updateValues m (whereExtra m setCols) (updateRow vals m now e) =
      e.key :: (updateRow vals m now e).set.map Prod.snd ++
        (whereExtra m setCols).map fun vc => ((updateParts m now e).lookup vc).getD none := by
  have hkey : (updateRow vals m now e).pk = e.key := by
    rw [updateRow]
    split <;> rfl
  rw [updateValues, hkey]
  congr 1
  apply List.map_congr_left
  intro vc hvc
  have hversion : m.version = some vc := by
    rw [whereExtra] at hvc
    split at hvc
    · split at hvc
      · rename_i version heq _
        rw [heq, List.mem_singleton.1 hvc]
      · simp at hvc
    · simp at hvc
  rw [if_pos hversion, oldVersion_eq vals m now e hversion]

/-- With a column to write, every row is sent once in its place, with the values of its columns; without
one, nothing is. -/
theorem batches_send_everything_once (hlisted : ∀ e ∈ entities, e.values.map Prod.fst = listed) :
    (insertColumns m listed ≠ [] → (insertColumns m listed).length ≤ limit →
      (∀ row ∈ entities.mapIdx fun r e => insertParts m (now r) e, row.map Prod.fst = insertColumns m listed) ∧
      ∃ slices builts, SendsOnce dialect limit
        (fun slice => insertTemplate dialect m (insertColumns m listed) (slice.map fun row => row.map Prod.snd))
        (PlainTable dialect m) (entities.mapIdx fun r e => insertParts m (now r) e) execute
        (insertMany dialect m limit now execute entities) slices builts) ∧
    (setColumns m listed ≠ [] → 1 + (setColumns m listed).length + (whereExtra m (setColumns m listed)).length ≤ limit →
      (∀ r e, entities[r]? = some e →
        (updateRow vals m (now r) e).set.map Prod.fst = setColumns m listed ∧
        updateValues m (whereExtra m (setColumns m listed)) (updateRow vals m (now r) e) =
          e.key :: (updateRow vals m (now r) e).set.map Prod.snd ++
            (whereExtra m (setColumns m listed)).map fun vc => ((updateParts m (now r) e).lookup vc).getD none) ∧
      ∃ slices builts, SendsOnce dialect limit
        (fun slice => updateTemplate dialect m.table m.pk (setColumns m listed) (whereExtra m (setColumns m listed))
          (slice.map (updateValues m (whereExtra m (setColumns m listed)))))
        (PlainTable dialect m) (entities.mapIdx fun r e => updateRow vals m (now r) e) execute
        (updateMany vals dialect m limit now execute entities) slices builts) ∧
    (entities ≠ [] → insertColumns m listed = [] →
      insertMany dialect m limit now execute entities = ([], .error (.rdbms "entity has no insertable columns"))) ∧
    (entities ≠ [] → setColumns m listed = [] →
      updateMany vals dialect m limit now execute entities = ([], .error (.rdbms "entity has no updatable columns"))) := by
  refine ⟨?_, ?_, ?_, ?_⟩
  · intro hcols hfits
    refine ⟨?_, insertMany_sends dialect m limit now execute hlisted hcols hfits⟩
    intro row hrow
    obtain ⟨r, hr, rfl⟩ := List.mem_mapIdx.1 hrow
    exact insertParts_columns m (now r) (hlisted _ (List.getElem_mem hr))
  · intro hcols hfits
    refine ⟨?_, updateMany_sends vals dialect m limit now execute hlisted hcols hfits⟩
    intro r e he
    exact ⟨updateRow_columns vals m (now r) (hlisted e (List.mem_of_getElem? he)), updateValues_eq vals m (now r) e _⟩
  · intro hne hcols
    obtain ⟨first, rest, rfl⟩ := List.exists_cons_of_ne_nil hne
    rw [insertMany, insertParts_columns m (now 0) (hlisted first List.mem_cons_self), hcols]
    rfl
  · intro hne hcols
    obtain ⟨first, rest, rfl⟩ := List.exists_cons_of_ne_nil hne
    rw [updateMany, updateRow_columns vals m (now 0) (hlisted first List.mem_cons_self), hcols]
    rfl

end Calls

def widgetCells (id name : Int) : Listed Int widget := derived widget (widgetRow id name)

/-- Three rows of one parameter each, two to a statement. -/
theorem three_widgets_sent_once :
    ∃ slices builts, SendsOnce .sqlite 2
      (fun slice => insertTemplate .sqlite widget ["name"] (slice.map fun row => row.map Prod.snd))
      (PlainTable .sqlite widget)
      ([widgetCells 0 5, widgetCells 0 6, widgetCells 0 7].mapIdx fun _ e => insertParts widget (fun _ => 0) e)
      (fun _ built => .ok built.params.length)
      (insertMany .sqlite widget 2 (fun _ _ => 0) (fun _ built => .ok built.params.length)
        [widgetCells 0 5, widgetCells 0 6, widgetCells 0 7]) slices builts := by
  have hlisted : ∀ e ∈ [widgetCells 0 5, widgetCells 0 6, widgetCells 0 7], e.values.map Prod.fst = ["id", "name"] := by
    decide
  have hcolumns : insertColumns widget ["id", "name"] = ["name"] := by decide
  have hsends := (batches_send_everything_once intValues .sqlite widget 2 (fun _ _ => 0)
    (fun _ built => .ok built.params.length) hlisted).1
  rw [hcolumns] at hsends
  exact (hsends (by decide) (by decide)).2

/-- A table whose only column is its generated key. -/
def counters : TableMeta where
  softDelete := none
  table := "counters"
  pk := "id"
  columns := [⟨"id", .i64, false, true, true⟩]
  createdAt := none
  updatedAt := none
  version := none
  nodup := by decide
  key := by decide
  key_mem := by decide
  softDelete_mem := by decide

/-- A row of such a table is refused, though any statement would be executed. -/
theorem lone_key_refused :
    (insertMany .sqlite counters 999 (fun _ _ => 0) (fun _ _ => .ok 1) [derived counters (widgetRow 0 0)]).1 = [] ∧
    ¬ ∃ slices builts, SendsOnce .sqlite 999
      (fun slice => insertTemplate .sqlite counters (insertColumns counters ["id"]) (slice.map fun row => row.map Prod.snd))
      (PlainTable .sqlite counters)
      ([derived counters (widgetRow 0 0)].mapIdx fun _ e => insertParts counters (fun _ => 0) e) (fun _ _ => .ok 1)
      (insertMany .sqlite counters 999 (fun _ _ => 0) (fun _ _ => .ok 1) [derived counters (widgetRow 0 0)])
      slices builts := by
  have hrun : insertMany .sqlite counters 999 (fun _ _ => 0) (fun _ _ => .ok 1) [derived counters (widgetRow 0 0)] =
      ([], .error (.rdbms "entity has no insertable columns")) := rfl
  refine ⟨by rw [hrun], ?_⟩
  rintro ⟨slices, builts, h⟩
  have hanswer := h.answered (builts.map fun _ => 1) (by apply List.ext_getElem <;> simp)
  rw [hrun] at hanswer
  cases hanswer

end Batch

end Ecat.Orm
