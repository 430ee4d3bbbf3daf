import Ecat.Numerals
import Ecat.ShardJobs
import Ecat.ShardPlanExact

/-! The ids of the moves of a plan: when two moves of one plan have the same id, and so one job row. -/

namespace Ecat.Shard

/-! ### The text of an id -/

/-- The text between the separators of an id. -/
def pieces (text : String) : List (List Char) := text.toList.splitOn '|'

def namePieces (mv : ShardMove) : List (List Char) := pieces mv.table ++ pieces mv.fromShard ++ pieces mv.toShard

def rangeText (range : Option KeyRange) : String :=
  range.elim "none" fun r => s!"{boundText r.low}:{boundText r.high}"

theorem moveId_toList (mv : ShardMove) : (moveId mv).toList =
    mv.table.toList ++ '|' :: (mv.fromShard.toList ++ '|' ::
      (mv.toShard.toList ++ '|' :: (rangeText mv.keyRange).toList)) := by
  have heq : moveId mv = mv.table ++ "|" ++ mv.fromShard ++ "|" ++ mv.toShard ++ "|" ++ rangeText mv.keyRange := rfl
  simp [heq, String.toList_append]

theorem not_mem_boundText {bound : Option Int} {c : Char} (hne : c ≠ '-') (hdigit : c.isDigit = false)
    (hstar : c ≠ '*') :
    c ∉ (boundText bound).toList := by
  cases bound with
  | none => simpa [boundText] using hstar
  | some n => exact not_mem_int_text hne hdigit

theorem boundText_inj {a b : Option Int} (h : boundText a = boundText b) : a = b := by
  have hstar : ∀ n : Int, "*" ≠ toString n := by
    intro n heq
    apply @not_mem_int_text n '*' (by decide) (by decide)
    rw [← heq]
    simp
  cases a with
  | none =>
    cases b with
    | none => rfl
    | some n => exact absurd h (hstar n)
  | some m =>
    cases b with
    | none => exact absurd h.symm (hstar m)
    | some n => exact congrArg some (Int.repr_injective h)

theorem rangeText_some (r : KeyRange) :
    (rangeText (some r)).toList = (boundText r.low).toList ++ ':' :: (boundText r.high).toList := by
  have heq : rangeText (some r) = boundText r.low ++ ":" ++ boundText r.high := rfl
  simp [heq, String.toList_append]

theorem splitOn_rangeText (r : KeyRange) :
    (rangeText (some r)).toList.splitOn ':' = [(boundText r.low).toList, (boundText r.high).toList] := by
  have hlow := @not_mem_boundText r.low ':' (by decide) (by decide) (by decide)
  have hhigh := @not_mem_boundText r.high ':' (by decide) (by decide) (by decide)
  rw [rangeText_some, List.splitOn_append_cons_self_of_not_mem hlow, List.splitOn_eq_singleton hhigh]

theorem rangeText_ne_none (r : KeyRange) : rangeText (some r) ≠ rangeText none := by
  intro h
  have hnone : (rangeText none).toList.splitOn ':' = ["none".toList] := List.splitOn_eq_singleton (by decide)
  rw [← h, splitOn_rangeText] at hnone
  exact absurd (List.cons.inj hnone).2 (List.cons_ne_nil _ _)

theorem rangeText_inj {a b : Option KeyRange} (h : rangeText a = rangeText b) : a = b := by
  cases a with
  | none =>
    cases b with
    | none => rfl
    | some s => exact absurd h.symm (rangeText_ne_none s)
  | some r =>
    cases b with
    | none => exact absurd h (rangeText_ne_none r)
    | some s =>
      have hsplit := splitOn_rangeText r
      rw [h, splitOn_rangeText s] at hsplit
      simp only [List.cons.injEq, String.toList_inj, and_true] at hsplit
      have hlow := boundText_inj hsplit.1.symm
      have hhigh := boundText_inj hsplit.2.symm
      obtain ⟨rl, rh⟩ := r
      obtain ⟨sl, sh⟩ := s
      obtain rfl : rl = sl := hlow
      obtain rfl : rh = sh := hhigh
      rfl

theorem not_mem_rangeText (range : Option KeyRange) : '|' ∉ (rangeText range).toList := by
  cases range with
  | none => decide
  | some r =>
    have hlow := @not_mem_boundText r.low '|' (by decide) (by decide) (by decide)
    have hhigh := @not_mem_boundText r.high '|' (by decide) (by decide) (by decide)
    simp [rangeText_some, hlow, hhigh]

/-- An id is cut into the pieces of its names and the text of its range. -/
theorem pieces_moveId (mv : ShardMove) : pieces (moveId mv) = namePieces mv ++ [(rangeText mv.keyRange).toList] := by
  rw [pieces, moveId_toList, List.splitOn_append_cons_self, List.splitOn_append_cons_self,
    List.splitOn_append_cons_self, List.splitOn_eq_singleton (not_mem_rangeText _)]
  simp [namePieces, pieces]

theorem pieces_inj {s t : String} (h : pieces s = pieces t) : s = t := by
  have hs : List.intercalate ['|'] (s.toList.splitOn '|') = s.toList := List.intercalate_splitOn '|'
  have ht : List.intercalate ['|'] (t.toList.splitOn '|') = t.toList := List.intercalate_splitOn '|'
  rw [pieces, pieces] at h
  rw [h, ht] at hs
  exact String.toList_inj.1 hs.symm

/-- The moves are over one range, and their names give the same pieces. -/
def SamePieces (mv mv' : ShardMove) : Prop := mv.keyRange = mv'.keyRange ∧ namePieces mv = namePieces mv'

theorem moveId_eq_iff {mv mv' : ShardMove} : moveId mv = moveId mv' ↔ SamePieces mv mv' := by
  constructor
  · intro h
    have hpieces := pieces_moveId mv
    rw [h, pieces_moveId mv'] at hpieces
    obtain ⟨hnames, hrange⟩ := List.append_inj' hpieces rfl
    exact ⟨rangeText_inj (String.toList_inj.1 (List.cons.inj hrange).1).symm, hnames.symm⟩
  · intro ⟨hrange, hnames⟩
    apply pieces_inj
    rw [pieces_moveId, pieces_moveId, hrange, hnames]

/-- The names hold no separator. -/
def ShardMove.Plain (mv : ShardMove) : Prop :=
  '|' ∉ mv.table.toList ∧ '|' ∉ mv.fromShard.toList ∧ '|' ∉ mv.toShard.toList

theorem samePieces_plain {mv mv' : ShardMove} (h : mv.Plain) (h' : mv'.Plain) (hsame : SamePieces mv mv') :
    mv = mv' := by
  have hpieces : ∀ {mv : ShardMove}, mv.Plain →
      namePieces mv = [mv.table.toList, mv.fromShard.toList, mv.toShard.toList] := by
    intro mv hmv
    simp [namePieces, pieces, List.splitOn_eq_singleton, hmv.1, hmv.2.1, hmv.2.2]
  obtain ⟨hrange, hnames⟩ := hsame
  rw [hpieces h, hpieces h'] at hnames
  simp only [List.cons.injEq, String.toList_inj, and_true] at hnames
  obtain ⟨table, source, target, range⟩ := mv
  obtain ⟨table', source', target', range'⟩ := mv'
  obtain ⟨rfl, rfl, rfl⟩ := hnames
  obtain rfl := hrange
  rfl

/-! ### No move twice -/

/-- The range holds a key. -/
def KeyRange.Inhabited (r : KeyRange) : Prop := ∀ low high, r.low = some low → r.high = some high → low < high

theorem KeyRange.Inhabited.covers {r : KeyRange} (h : r.Inhabited) : ∃ k, r.covers k = true := by
  cases hlow : r.low with
  | none =>
    cases hhigh : r.high with
    | none => exact ⟨0, by simp [KeyRange.covers, hlow, hhigh]⟩
    | some high => exact ⟨high - 1, by simp [KeyRange.covers, hlow, hhigh]⟩
  | some low =>
    refine ⟨low, covers_iff.2 ⟨fun low' hlow' => ?_, fun high hhigh => h low high hlow hhigh⟩⟩
    rw [hlow] at hlow'
    exact (Option.some.inj hlow').ge

def Inhabited (moves : List ShardMove) : Prop := ∀ mv ∈ moves, ∀ r, mv.keyRange = some r → r.Inhabited

variable {old new : ShardTable} {moves moves' : List ShardMove}

theorem inhabited_intervals {low : Option Int} {bs : List Int} (hsorted : bs.Pairwise (· < ·))
    (hlow : ∀ l, low = some l → ∀ b ∈ bs, l < b) : ∀ i ∈ intervals low bs, i.range.Inhabited := by
  induction bs generalizing low with
  | nil =>
    intro i hi
    rw [intervals, List.mem_singleton] at hi
    subst hi
    intro _ high _ hhigh
    cases hhigh
  | cons b bs ih =>
    obtain ⟨hbelow, hsorted'⟩ := List.pairwise_cons.1 hsorted
    intro i hi
    rw [intervals] at hi
    rcases List.mem_append.1 hi with hi | hi
    · split_ifs at hi
      · rw [List.mem_singleton] at hi
        subst hi
        intro l high hl hhigh
        cases hhigh
        exact hlow l hl b (by simp)
      · cases hi
    · apply ih hsorted' _ i hi
      intro l hl
      cases hl
      exact hbelow

theorem low_intervals {l : Int} {bs : List Int} : ∀ i ∈ intervals (some l) bs, i.range.low ≠ none := by
  induction bs generalizing l with
  | nil => simp [intervals]
  | cons b bs ih =>
    intro i hi
    rw [intervals] at hi
    rcases List.mem_append.1 hi with hi | hi
    · split_ifs at hi
      · rw [List.mem_singleton.1 hi]
        simp
      · cases hi
    · exact ih i hi

/-- Only the first interval is open below. -/
theorem pairwise_intervals (low : Option Int) (bs : List Int) :
    (intervals low bs).Pairwise fun _ i => i.range.low ≠ none := by
  induction bs generalizing low with
  | nil => simp [intervals]
  | cons b bs ih =>
    rw [intervals, List.pairwise_append]
    refine ⟨?_, ih (some b), fun _ _ i hi => low_intervals i hi⟩
    split_ifs <;> simp

theorem inhabited_addMove {table source target : String} {range : KeyRange} (h : Inhabited moves)
    (hrange : range.Inhabited) (hfirst : range.low = none → moves = []) :
    Inhabited (addMove moves table source target range) := by
  have hfresh : Inhabited (moves ++ [⟨table, source, target, some range⟩]) := by
    intro mv hmv r hr
    rcases List.mem_append.1 hmv with hmv | hmv
    · exact h mv hmv r hr
    · rw [List.mem_singleton.1 hmv] at hr
      cases hr
      exact hrange
  unfold addMove
  cases hlast : moves.getLast? with
  | none => exact hfresh
  | some last =>
    have hmem := List.mem_of_getLast? hlast
    cases hr : last.keyRange with
    | none => simpa only [hr] using hfresh
    | some r =>
      simp only [hr]
      by_cases hjoin : last.fromShard = source ∧ last.toShard = target ∧ r.high = range.low
      · rw [if_pos hjoin]
        intro mv hmv r' hr'
        rcases List.mem_append.1 hmv with hmv | hmv
        · exact h mv (List.mem_of_mem_dropLast hmv) r' hr'
        · rw [List.mem_singleton.1 hmv] at hr'
          cases hr'
          intro low high hlow hhigh
          cases hmid : range.low with
          | none =>
            rw [hfirst hmid] at hmem
            cases hmem
          | some b => exact (h last hmem r hr low b hlow (hjoin.2.2.trans hmid)).trans (hrange b high hmid hhigh)
      · rw [if_neg hjoin]
        exact hfresh

theorem inhabited_sweep {is : List Interval} (hmoves : Inhabited moves) (his : ∀ i ∈ is, i.range.Inhabited)
    (hlow : is.Pairwise fun _ i => i.range.low ≠ none) (hfirst : moves ≠ [] → ∀ i ∈ is, i.range.low ≠ none)
    (h : sweep old new moves is = .ok moves') : Inhabited moves' := by
  induction is generalizing moves with
  | nil =>
    cases h
    exact hmoves
  | cons i is ih =>
    obtain ⟨hlow', hrest⟩ := List.pairwise_cons.1 hlow
    have his' : ∀ j ∈ is, j.range.Inhabited := fun j hj => his j (by simp [hj])
    obtain ⟨source, _, h⟩ := bind_eq_ok.1 h
    obtain ⟨target, _, h⟩ := bind_eq_ok.1 h
    split_ifs at h
    · apply ih hmoves his' hrest _ h
      intro hne j hj
      exact hfirst hne j (by simp [hj])
    · apply ih _ his' hrest (fun _ => hlow') h
      apply inhabited_addMove hmoves (his i (by simp))
      intro hnone
      by_contra hne
      exact hfirst hne i (by simp) hnone

/-- A move that stood twice in the list would move each of its keys twice. -/
theorem Swept.nodup {swept : Int → Prop} (h : Swept old new swept moves) (hin : Inhabited moves) : moves.Nodup := by
  rw [List.nodup_iff_sublist]
  intro mv hsub
  have hmem : mv ∈ moves := hsub.subset (by simp)
  obtain ⟨-, r, hr, -⟩ := h.ranged mv hmem
  obtain ⟨k, hk⟩ := (hin mv hmem r hr).covers
  have hcover : mv.coversInt k = true := by simpa [ShardMove.coversInt, hr] using hk
  have htwo : [mv, mv].countP (·.coversInt k) = 2 := by simp [hcover]
  have hle := hsub.countP_le (p := (·.coversInt k))
  by_cases hs : swept k ∧ Changes old new k
  · have hone := h.once k hs.1 hs.2
    omega
  · have hzero := h.never k hs
    omega

theorem nodup_rangeMoves (hold : old.Valid ∧ old.IsRange) (hnew : new.Valid ∧ new.IsRange)
    (h : rangeMoves old new = .ok moves) : moves.Nodup ∧ ∀ mv ∈ moves, mv.table = old.name := by
  obtain ⟨moves', swept, hrun, hswept, -⟩ := rangeMoves_spec hold hnew
  obtain rfl : moves' = moves := Except.ok.inj (hrun.symm.trans h)
  obtain ⟨bs, fits, halg⟩ := hold.2
  obtain ⟨bs', fits', halg'⟩ := hnew.2
  rw [rangeMoves, halg, halg'] at h
  refine ⟨hswept.nodup ?_, fun mv hmv => (hswept.ranged mv hmv).1⟩
  apply inhabited_sweep _ _ (pairwise_intervals _ _) (fun hne => absurd rfl hne) h
  · exact fun mv hmv => absurd hmv List.not_mem_nil
  · apply inhabited_intervals (ascending_boundaries _)
    intro _ hl
    cases hl

theorem nodup_fullCopyMoves (hold : old.shardNames.Nodup) (hnew : new.shardNames.Nodup) :
    (fullCopyMoves old new).Nodup := by
  rw [fullCopyMoves, List.nodup_flatMap]
  constructor
  · intro source _
    exact hnew.map fun a b hab => congrArg ShardMove.toShard hab
  · apply hold.imp
    intro source source' hne
    rw [Function.onFun, List.disjoint_left]
    intro mv hmv hmv'
    obtain ⟨_, _, rfl⟩ := List.mem_map.1 hmv
    obtain ⟨_, _, heq⟩ := List.mem_map.1 hmv'
    exact hne (congrArg ShardMove.fromShard heq).symm

theorem table_fullCopyMoves {mv : ShardMove} (h : mv ∈ fullCopyMoves old new) : mv.table = old.name := by
  rw [fullCopyMoves, List.mem_flatMap] at h
  obtain ⟨source, _, h⟩ := h
  obtain ⟨target, _, rfl⟩ := List.mem_map.1 h
  rfl

theorem nodup_diffTable (hold : old.Valid) (hnew : new.Valid) (h : diffTable old new = .ok moves) :
    moves.Nodup ∧ ∀ mv ∈ moves, mv.table = old.name := by
  have hcopy : (fullCopyMoves old new).Nodup ∧ ∀ mv ∈ fullCopyMoves old new, mv.table = old.name :=
    ⟨nodup_fullCopyMoves hold.nodup hnew.nodup, fun mv hmv => table_fullCopyMoves hmv⟩
  rw [diffTable] at h
  by_cases hcolumns : old.key ≠ new.key ∨ old.pk ≠ new.pk
  · rw [if_pos hcolumns] at h
    cases h
  rw [if_neg hcolumns] at h
  cases halg : old.algorithm with
  | hashMod n =>
    cases halg' : new.algorithm with
    | hashMod m =>
      rw [halg, halg'] at h
      obtain rfl := Except.ok.inj h
      split_ifs
      · simp
      · exact hcopy
    | range bs fits =>
      rw [halg, halg'] at h
      obtain rfl := Except.ok.inj h
      exact hcopy
  | range bs fits =>
    cases halg' : new.algorithm with
    | hashMod m =>
      rw [halg, halg'] at h
      obtain rfl := Except.ok.inj h
      exact hcopy
    | range bs' fits' =>
      rw [halg, halg'] at h
      exact nodup_rangeMoves ⟨hold, bs, fits, halg⟩ ⟨hnew, bs', fits', halg'⟩ h

theorem nodup_diffTables {catalog : ShardCatalog} {ts : List ShardTable} (hold : ∀ t ∈ catalog.tables, t.Valid)
    (hnew : ∀ t ∈ ts, t.Valid) (hnames : (ts.map (·.name)).Nodup) (h : diffTables catalog ts = .ok moves) :
    moves.Nodup ∧ ∀ mv ∈ moves, mv.table ∈ ts.map (·.name) := by
  induction ts generalizing moves with
  | nil =>
    cases h
    simp
  | cons t ts ih =>
    obtain ⟨hfresh, hnames'⟩ := List.nodup_cons.1 hnames
    have hnew' : ∀ u ∈ ts, u.Valid := fun u hu => hnew u (by simp [hu])
    rw [diffTables] at h
    cases hfind : catalog.tables.find? (·.name = t.name) with
    | none =>
      rw [hfind] at h
      obtain ⟨hnodup, htables⟩ := ih hnew' hnames' h
      exact ⟨hnodup, fun mv hmv => List.mem_cons_of_mem _ (htables mv hmv)⟩
    | some t' =>
      rw [hfind] at h
      obtain ⟨first, hfirst, h⟩ := bind_eq_ok.1 h
      obtain ⟨rest, hrest, h⟩ := bind_eq_ok.1 h
      obtain rfl := Except.ok.inj h
      have hname : t'.name = t.name := by simpa using List.find?_some hfind
      obtain ⟨hnodup, htables⟩ := nodup_diffTable (hold t' (List.mem_of_find?_eq_some hfind)) (hnew t (by simp)) hfirst
      obtain ⟨hnodup', htables'⟩ := ih hnew' hnames' hrest
      constructor
      · apply hnodup.append hnodup'
        intro mv hmv hmv'
        have hin := htables' mv hmv'
        rw [htables mv hmv, hname] at hin
        exact hfresh hin
      · intro mv hmv
        rcases List.mem_append.1 hmv with hmv | hmv
        · simp [htables mv hmv, hname]
        · exact List.mem_cons_of_mem _ (htables' mv hmv)

/-- No move stands twice in a plan. -/
theorem nodup_diff {old new : ShardCatalog} {plan : ShardPlan} (h : ShardPlan.diff old new = .ok plan) :
    plan.moves.Nodup := by
  obtain ⟨⟨⟩, hold, h⟩ := bind_eq_ok.1 h
  obtain ⟨⟨⟩, hnew, h⟩ := bind_eq_ok.1 h
  obtain ⟨moves, hmoves, h⟩ := bind_eq_ok.1 h
  obtain rfl := Except.ok.inj h
  exact (nodup_diffTables (fun t ht => validate_valid hold ht) (fun t ht => validate_valid hnew ht)
    (validate_nodup hnew) hmoves).1

/-! ### The job rows of a plan -/

/-- The id tells the moves apart: no two share a job row, and none reads what another has saved. -/
structure Identified (moves : List ShardMove) : Prop where
  distinct : ∀ mv ∈ moves, ∀ mv' ∈ moves, moveId mv = moveId mv' → mv = mv'
  rows : (moves.map moveId).Nodup
  separate : ∀ mv ∈ moves, ∀ mv' ∈ moves, mv ≠ mv' → ∀ state jobs job jobs',
    saveJob state jobs mv job = .ok jobs' → loadJob state jobs' (moveId mv') = loadJob state jobs (moveId mv')

/-- The ids tell the moves of a plan apart exactly where no two different moves over one range have
names of the same pieces. -/
theorem identified_iff {old new : ShardCatalog} {plan : ShardPlan} (h : ShardPlan.diff old new = .ok plan) :
    Identified plan.moves ↔ ∀ mv ∈ plan.moves, ∀ mv' ∈ plan.moves, mv ≠ mv' → ¬ SamePieces mv mv' := by
  constructor
  · intro hid mv hmv mv' hmv' hne hsame
    exact hne (hid.distinct mv hmv mv' hmv' (moveId_eq_iff.2 hsame))
  · intro hpieces
    have hids : ∀ mv ∈ plan.moves, ∀ mv' ∈ plan.moves, mv ≠ mv' → moveId mv ≠ moveId mv' :=
      fun mv hmv mv' hmv' hne heq => hpieces mv hmv mv' hmv' hne (moveId_eq_iff.1 heq)
    refine ⟨?_, ?_, ?_⟩
    · intro mv hmv mv' hmv' heq
      by_contra hne
      exact hids mv hmv mv' hmv' hne heq
    · exact (List.nodup_map_iff_inj_on (nodup_diff h)).2 fun mv hmv mv' hmv' heq => by
        by_contra hne
        exact hids mv hmv mv' hmv' hne heq
    · intro mv hmv mv' hmv' hne state jobs job jobs' hsave
      rw [loadJob, loadJob, saveJob_other hsave (hids mv' hmv' mv hmv (Ne.symm hne))]

/-- Names without a separator give the same pieces only where they are the same. -/
theorem not_samePieces_plain {moves : List ShardMove} (hplain : ∀ mv ∈ moves, mv.Plain) :
    ∀ mv ∈ moves, ∀ mv' ∈ moves, mv ≠ mv' → ¬ SamePieces mv mv' :=
  fun mv hmv mv' hmv' hne hsame => hne (samePieces_plain (hplain mv hmv) (hplain mv' hmv') hsame)

def oneShard (name shard : String) : ShardTable := ⟨name, "id", "id", .hashMod 1, [⟨shard, none⟩]⟩

theorem identified_orders : ∃ plan, ShardPlan.diff ⟨[oneShard "orders" "s0"]⟩ ⟨[oneShard "orders" "s1"]⟩ = .ok plan ∧
    plan.moves = [⟨"orders", "s0", "s1", none⟩] ∧ Identified plan.moves := by
  have hplan : ShardPlan.diff ⟨[oneShard "orders" "s0"]⟩ ⟨[oneShard "orders" "s1"]⟩ =
      .ok ⟨[⟨"orders", "s0", "s1", none⟩]⟩ := rfl
  refine ⟨_, hplan, rfl, (identified_iff hplan).2 (not_samePieces_plain ?_)⟩
  intro mv hmv
  rw [List.mem_singleton.1 hmv]
  exact ⟨by decide, by decide, by decide⟩

/-- The move of table `a` from shard `b|c` and the move of table `a|b` from shard `c` have the id
`a|b|c|t|none`. -/
theorem ids_shared : ¬ ∀ (old new : ShardCatalog) (plan : ShardPlan), ShardPlan.diff old new = .ok plan →
    Identified plan.moves := by
  intro h
  have hid := h ⟨[oneShard "a" "b|c", oneShard "a|b" "c"]⟩ ⟨[oneShard "a" "t", oneShard "a|b" "t"]⟩
    ⟨[⟨"a", "b|c", "t", none⟩, ⟨"a|b", "c", "t", none⟩]⟩ rfl
  have heq := hid.distinct ⟨"a", "b|c", "t", none⟩ (by simp) ⟨"a|b", "c", "t", none⟩ (by simp) (by decide)
  exact absurd (congrArg ShardMove.table heq) (by decide)

end Ecat.Shard
