import Ecat.ShardPlan

/-! The plan is exact: it moves what changes its owner, from the old one to the new one, and
for range tables it moves nothing else and nothing twice. -/

namespace Ecat.Shard

open Json

/-! ### Keys between the same boundaries -/

theorem partitionPoint_congr {p q : Int → Bool} {l : List Int} (h : ∀ b ∈ l, p b = q b) :
    partitionPoint p l = partitionPoint q l := by
  rw [partitionPoint, partitionPoint]
  congr 1
  induction l with
  | nil => rfl
  | cons b l ih =>
    rw [List.takeWhile_cons, List.takeWhile_cons, h b (by simp), ih fun c hc => h c (by simp [hc])]

def ShardTable.boundaries (t : ShardTable) : List Int :=
  match t.algorithm with
  | .range boundaries _ => boundaries
  | .hashMod _ => []

def ShardTable.IsRange (t : ShardTable) : Prop := ∃ boundaries fits, t.algorithm = .range boundaries fits

theorem rangeIndex_eq {t : ShardTable} (h : t.IsRange) (k : Int) :
    rangeIndex t.algorithm k = .ok (partitionPoint (· ≤ k) t.boundaries) := by
  obtain ⟨boundaries, fits, halg⟩ := h
  rw [ShardTable.boundaries, halg]
  rfl

theorem shardAt_congr {t : ShardTable} (h : t.IsRange) {k k' : Int}
    (hk : ∀ b ∈ t.boundaries, b ≤ k ↔ b ≤ k') : shardAt t k = shardAt t k' := by
  have hpoint : partitionPoint (· ≤ k) t.boundaries = partitionPoint (· ≤ k') t.boundaries :=
    partitionPoint_congr fun b hb => by simp only [hk b hb]
  rw [shardAt, shardAt, rangeIndex_eq h, rangeIndex_eq h, hpoint]

theorem shardAt_ok {t : ShardTable} (hvalid : t.Valid) (h : t.IsRange) (k : Int) :
    ∃ name, shardAt t k = .ok name := by
  have hlen : t.boundaries.length + 1 = t.shards.length := by
    have hcheck := hvalid.algorithm
    obtain ⟨boundaries, fits, halg⟩ := h
    rw [halg, checkAlgorithm] at hcheck
    rw [ShardTable.boundaries, halg]
    by_contra hne
    rw [if_pos hne] at hcheck
    cases hcheck
  have hlt : partitionPoint (· ≤ k) t.boundaries < t.shardNames.length := by
    have hle := (List.takeWhile_sublist (· ≤ k) (l := t.boundaries)).length_le
    rw [ShardTable.shardNames, List.length_map, ← hlen, partitionPoint]
    omega
  refine ⟨t.shardNames[partitionPoint (· ≤ k) t.boundaries], ?_⟩
  rw [shardAt, rangeIndex_eq h]
  exact shardName_ok_iff.2 (List.getElem?_eq_getElem hlt)

theorem owner_eq_shardAt {t : ShardTable} (hvalid : t.Valid) (h : t.IsRange) {key : Value} {k : Int}
    (hkey : key.asI64 = some k) : t.owner key = shardAt t k := by
  have hindex := rangeIndex_eq h k
  obtain ⟨boundaries, fits, halg⟩ := h
  have hroute := shardFor_range hvalid halg hkey
  rw [ShardTable.boundaries, halg] at hindex
  rw [ShardTable.owner, shardAt, hroute, halg, hindex]

/-- The keys of an interval lie between the same boundaries as its representative. -/
def Interval.Uniform (i : Interval) (all : List Int) : Prop :=
  ∀ k, i.range.covers k = true → ∀ b ∈ all, b ≤ k ↔ b ≤ i.representative

theorem covers_iff {r : KeyRange} {k : Int} :
    r.covers k = true ↔ (∀ low, r.low = some low → low ≤ k) ∧ ∀ high, r.high = some high → k < high := by
  cases r with
  | mk low high => cases low <;> cases high <;> simp [KeyRange.covers]

theorem uniform_between {all before after : List Int} {b : Int} (hall : all = before ++ b :: after)
    (hsorted : all.Pairwise (· < ·)) {low : Option Int} (hlow : low = before.getLast?) :
    Interval.Uniform ⟨⟨low, some b⟩, b - 1⟩ all := by
  intro k hk c hc
  obtain ⟨hge, hlt⟩ := covers_iff.1 hk
  have hkb := hlt b rfl
  subst hall
  obtain ⟨hbefore, hafter, hcross⟩ := List.pairwise_append.1 hsorted
  rcases List.mem_append.1 hc with hc | hc
  · obtain ⟨last, hlast⟩ : ∃ last, before.getLast? = some last :=
      ⟨before.getLast (List.ne_nil_of_mem hc), List.getLast?_eq_some_getLast _⟩
    obtain ⟨init, rfl⟩ := List.getLast?_eq_some_iff.1 hlast
    have hle : c ≤ last := by
      rcases List.mem_append.1 hc with hc | hc
      · exact ((List.pairwise_append.1 hbefore).2.2 c hc last (by simp)).le
      · rw [List.mem_singleton.1 hc]
    have hlastk := hge last (by rw [hlow, hlast])
    have hlastb := hcross last (by simp) b (by simp)
    dsimp only
    omega
  · have hle : b ≤ c := by
      rcases List.mem_cons.1 hc with rfl | hc
      · exact le_rfl
      · exact ((List.pairwise_cons.1 hafter).1 c hc).le
    dsimp only
    omega

theorem uniform_last {all : List Int} (hsorted : all.Pairwise (· < ·)) {low : Option Int}
    (hlow : low = all.getLast?) : Interval.Uniform ⟨⟨low, none⟩, low.getD 0⟩ all := by
  intro k hk c hc
  obtain ⟨last, hlast⟩ : ∃ last, all.getLast? = some last :=
    ⟨all.getLast (List.ne_nil_of_mem hc), List.getLast?_eq_some_getLast _⟩
  obtain ⟨init, rfl⟩ := List.getLast?_eq_some_iff.1 hlast
  have hle : c ≤ last := by
    rcases List.mem_append.1 hc with hc | hc
    · exact ((List.pairwise_append.1 hsorted).2.2 c hc last (by simp)).le
    · rw [List.mem_singleton.1 hc]
  have hlastk := (covers_iff.1 hk).1 last (by rw [hlow, hlast])
  rw [hlow, hlast]
  dsimp only [Option.getD_some]
  omega

/-! ### The sweep -/

def ShardMove.coversInt (mv : ShardMove) (k : Int) : Bool := mv.keyRange.any (·.covers k)

def Changes (old new : ShardTable) (k : Int) : Prop := shardAt old k ≠ shardAt new k

instance (old new : ShardTable) (k : Int) : Decidable (Changes old new k) :=
  inferInstanceAs (Decidable (_ ≠ _))

def KeyRange.Ordered (r : KeyRange) : Prop := ∀ low high, r.low = some low → r.high = some high → low ≤ high

/-- The moves made when the keys in `swept` have been looked at. -/
structure Swept (old new : ShardTable) (swept : Int → Prop) (moves : List ShardMove) : Prop where
  ranged : ∀ mv ∈ moves, mv.table = old.name ∧ ∃ r, mv.keyRange = some r ∧ r.Ordered
  owners : ∀ mv ∈ moves, ∀ k, mv.coversInt k = true →
    shardAt old k = .ok mv.fromShard ∧ shardAt new k = .ok mv.toShard
  once : ∀ k, swept k → Changes old new k → moves.countP (·.coversInt k) = 1
  never : ∀ k, ¬ (swept k ∧ Changes old new k) → moves.countP (·.coversInt k) = 0

variable {old new : ShardTable} {swept : Int → Prop} {moves : List ShardMove} {range : KeyRange}
  {source target : String}

theorem Swept.fresh (h : Swept old new swept moves) (hordered : range.Ordered)
    (hnew : ∀ k, range.covers k = true → ¬ swept k)
    (howners : ∀ k, range.covers k = true → shardAt old k = .ok source ∧ shardAt new k = .ok target)
    (hne : source ≠ target) :
    Swept old new (fun k => swept k ∨ range.covers k = true)
      (moves ++ [⟨old.name, source, target, some range⟩]) := by
  have hchanges : ∀ k, range.covers k = true → Changes old new k := by
    intro k hk heq
    obtain ⟨hsource, htarget⟩ := howners k hk
    rw [hsource, htarget, Except.ok.injEq] at heq
    exact hne heq
  have hcount : ∀ k, (moves ++ [(⟨old.name, source, target, some range⟩ : ShardMove)]).countP
      (·.coversInt k) = moves.countP (·.coversInt k) + if range.covers k = true then 1 else 0 := by
    intro k
    simp [List.countP_append, List.countP_cons, ShardMove.coversInt]
  refine ⟨?_, ?_, ?_, ?_⟩
  · intro mv hmv
    rcases List.mem_append.1 hmv with hmv | hmv
    · exact h.ranged mv hmv
    · rw [List.mem_singleton.1 hmv]
      exact ⟨rfl, range, rfl, hordered⟩
  · intro mv hmv k hk
    rcases List.mem_append.1 hmv with hmv | hmv
    · exact h.owners mv hmv k hk
    · rw [List.mem_singleton.1 hmv] at hk ⊢
      exact howners k (by simpa [ShardMove.coversInt] using hk)
  · intro k hk hchange
    rw [hcount]
    by_cases hcover : range.covers k = true
    · rw [if_pos hcover, h.never k fun hs => hnew k hcover hs.1]
    · rw [if_neg hcover, h.once k (hk.resolve_right hcover) hchange]
  · intro k hk
    rw [hcount]
    by_cases hcover : range.covers k = true
    · exact absurd ⟨.inr hcover, hchanges k hcover⟩ hk
    · rw [if_neg hcover, h.never k fun hs => hk ⟨.inl hs.1, hs.2⟩]

theorem covers_extend {r : KeyRange} {b : Int} (hr : r.Ordered) (hordered : range.Ordered)
    (hhigh : r.high = some b) (hlow : range.low = some b) (k : Int) :
    KeyRange.covers { r with high := range.high } k = true ↔ r.covers k = true ∨ range.covers k = true := by
  rw [covers_iff, covers_iff, covers_iff]
  constructor
  · rintro ⟨h1, h2⟩
    by_cases hk : k < b
    · refine .inl ⟨h1, fun high he => ?_⟩
      rw [hhigh] at he
      cases he
      exact hk
    · refine .inr ⟨fun low he => ?_, h2⟩
      rw [hlow] at he
      cases he
      omega
  · rintro (⟨h1, h2⟩ | ⟨h1, h2⟩)
    · refine ⟨h1, fun high he => ?_⟩
      have hkb := h2 b hhigh
      have hb := hordered b high hlow he
      omega
    · refine ⟨fun low he => ?_, h2⟩
      have hkb := h1 b hlow
      have hb := hr low b he hhigh
      omega

theorem Swept.extend {last : ShardMove} {r : KeyRange} {b : Int}
    (h : Swept old new swept (moves ++ [last])) (hlast : last.keyRange = some r)
    (hhigh : r.high = some b) (hlow : range.low = some b) (hordered : range.Ordered)
    (hnew : ∀ k, range.covers k = true → ¬ swept k)
    (howners : ∀ k, range.covers k = true →
      shardAt old k = .ok last.fromShard ∧ shardAt new k = .ok last.toShard)
    (hne : last.fromShard ≠ last.toShard) :
    Swept old new (fun k => swept k ∨ range.covers k = true)
      (moves ++ [{ last with keyRange := some { r with high := range.high } }]) := by
  obtain ⟨hname, r', hr', hrordered⟩ := h.ranged last (by simp)
  rw [hlast, Option.some.injEq] at hr'
  subst hr'
  have hcovers := covers_extend hrordered hordered hhigh hlow
  have hlastCovers : ∀ k, last.coversInt k = r.covers k := by
    intro k
    rw [ShardMove.coversInt, hlast]
    rfl
  have hfresh : ∀ k, range.covers k = true → (moves ++ [last]).countP (·.coversInt k) = 0 :=
    fun k hk => h.never k fun hs => hnew k hk hs.1
  have hcount : ∀ k, (moves ++ [({ last with keyRange := some { r with high := range.high } } :
      ShardMove)]).countP (·.coversInt k) =
      (moves ++ [last]).countP (·.coversInt k) + if range.covers k = true then 1 else 0 := by
    intro k
    have hsplit := hfresh k
    have hiff := hcovers k
    simp only [List.countP_append, List.countP_singleton, hlastCovers] at hsplit ⊢
    have hext : ShardMove.coversInt { last with keyRange := some { r with high := range.high } } k =
        KeyRange.covers { r with high := range.high } k := rfl
    rw [hext]
    by_cases hcover : range.covers k = true
    · have hzero := hsplit hcover
      rw [if_pos (hiff.2 (.inr hcover)), if_pos hcover]
      omega
    · by_cases hr : r.covers k = true
      · rw [if_pos (hiff.2 (.inl hr)), if_pos hr, if_neg hcover]
      · rw [if_neg fun he => (hiff.1 he).elim hr hcover, if_neg hr, if_neg hcover]
  refine ⟨?_, ?_, ?_, ?_⟩
  · intro mv hmv
    rcases List.mem_append.1 hmv with hmv | hmv
    · exact h.ranged mv (List.mem_append_left _ hmv)
    · rw [List.mem_singleton.1 hmv]
      refine ⟨hname, _, rfl, ?_⟩
      intro low high hl hh
      exact (hrordered low b hl hhigh).trans (hordered b high hlow hh)
  · intro mv hmv k hk
    rcases List.mem_append.1 hmv with hmv | hmv
    · exact h.owners mv (List.mem_append_left _ hmv) k hk
    · rw [List.mem_singleton.1 hmv] at hk ⊢
      rcases (hcovers k).1 hk with hr | hcover
      · exact h.owners last (by simp) k (by rw [hlastCovers, hr])
      · exact howners k hcover
  · intro k hk hchange
    rw [hcount]
    by_cases hcover : range.covers k = true
    · rw [if_pos hcover, hfresh k hcover]
    · rw [if_neg hcover, h.once k (hk.resolve_right hcover) hchange]
  · intro k hk
    rw [hcount]
    by_cases hcover : range.covers k = true
    · refine absurd ⟨.inr hcover, ?_⟩ hk
      intro heq
      obtain ⟨hsource, htarget⟩ := howners k hcover
      rw [hsource, htarget, Except.ok.injEq] at heq
      exact hne heq
    · rw [if_neg hcover, h.never k fun hs => hk ⟨.inl hs.1, hs.2⟩]

theorem Swept.add (h : Swept old new swept moves) (hordered : range.Ordered)
    (hfirst : range.low = none → moves = []) (hnew : ∀ k, range.covers k = true → ¬ swept k)
    (howners : ∀ k, range.covers k = true → shardAt old k = .ok source ∧ shardAt new k = .ok target)
    (hne : source ≠ target) :
    Swept old new (fun k => swept k ∨ range.covers k = true) (addMove moves old.name source target range) := by
  have hfresh := h.fresh hordered hnew howners hne
  unfold addMove
  cases hlast : moves.getLast? with
  | none => exact hfresh
  | some last =>
    obtain ⟨init, rfl⟩ := List.getLast?_eq_some_iff.1 hlast
    cases hr : last.keyRange with
    | none => simpa only [hr] using hfresh
    | some r =>
      simp only [hr]
      by_cases hjoin : last.fromShard = source ∧ last.toShard = target ∧ r.high = range.low
      · rw [if_pos hjoin, List.dropLast_concat]
        obtain ⟨rfl, rfl, hhigh⟩ := hjoin
        cases hlow : range.low with
        | none => exact absurd (hfirst hlow) (by simp)
        | some b => exact h.extend hr (hhigh.trans hlow) hlow hordered hnew howners hne
      · rw [if_neg hjoin]
        exact hfresh

theorem Swept.skip (h : Swept old new swept moves)
    (hsame : ∀ k, range.covers k = true → ¬ Changes old new k) :
    Swept old new (fun k => swept k ∨ range.covers k = true) moves := by
  refine ⟨h.ranged, h.owners, ?_, ?_⟩
  · intro k hk hchange
    exact h.once k (hk.resolve_right fun hcover => hsame k hcover hchange) hchange
  · intro k hk
    exact h.never k fun hs => hk ⟨.inl hs.1, hs.2⟩

section Intervals

variable {i : Interval} {all : List Int} (hold : old.Valid ∧ old.IsRange) (hnew : new.Valid ∧ new.IsRange)
  (hall : ∀ b, b ∈ old.boundaries ∨ b ∈ new.boundaries → b ∈ all)

include hold hnew hall

theorem Swept.interval (h : Swept old new swept moves) (huniform : i.Uniform all)
    (hordered : i.range.Ordered) (hfirst : i.range.low = none → moves = [])
    (hfresh : ∀ k, i.range.covers k = true → ¬ swept k) (is : List Interval) :
    ∃ moves', sweep old new moves (i :: is) = sweep old new moves' is ∧
      Swept old new (fun k => swept k ∨ i.range.covers k = true) moves' := by
  obtain ⟨source, hsource⟩ := shardAt_ok hold.1 hold.2 i.representative
  obtain ⟨target, htarget⟩ := shardAt_ok hnew.1 hnew.2 i.representative
  have howners : ∀ k, i.range.covers k = true → shardAt old k = .ok source ∧ shardAt new k = .ok target := by
    intro k hk
    have hboth := huniform k hk
    exact ⟨(shardAt_congr hold.2 fun b hb => hboth b (hall b (.inl hb))).trans hsource,
      (shardAt_congr hnew.2 fun b hb => hboth b (hall b (.inr hb))).trans htarget⟩
  have hstep : sweep old new moves (i :: is) = if source = target then sweep old new moves is
      else sweep old new (addMove moves old.name source target i.range) is := by
    rw [sweep, hsource, htarget]
    rfl
  by_cases heq : source = target
  · refine ⟨moves, by rw [hstep, if_pos heq], h.skip ?_⟩
    intro k hk hchange
    obtain ⟨hs, ht⟩ := howners k hk
    exact hchange (by rw [hs, ht, heq])
  · exact ⟨_, by rw [hstep, if_neg heq], h.add hordered hfirst hfresh howners heq⟩

/-- The sweep ends with every key looked at. -/
theorem sweep_spec (hsorted : all.Pairwise (· < ·)) {before bs : List Int} (hsplit : all = before ++ bs)
    {low : Option Int} (hlow : low = before.getLast?) (h : Swept old new swept moves)
    (hfirst : low = none → moves = []) (hbelow : ∀ k, swept k → ∃ b, low = some b ∧ k < b)
    (habove : ∀ k b, i64Min ≤ k → low = some b → k < b → swept k) :
    ∃ moves' swept', sweep old new moves (intervals low bs) = .ok moves' ∧ Swept old new swept' moves' ∧
      ∀ k, i64Min ≤ k → swept' k := by
  induction bs generalizing before low moves swept with
  | nil =>
    have huniform : Interval.Uniform ⟨⟨low, none⟩, low.getD 0⟩ all :=
      uniform_last hsorted (by rw [hlow, hsplit, List.append_nil])
    have hfresh : ∀ k, KeyRange.covers ⟨low, none⟩ k = true → ¬ swept k := by
      intro k hk hs
      obtain ⟨b, hb, hkb⟩ := hbelow k hs
      have := (covers_iff.1 hk).1 b hb
      omega
    obtain ⟨moves', hrun, hswept⟩ := h.interval hold hnew hall huniform (fun _ _ _ hh => nomatch hh)
      hfirst hfresh []
    refine ⟨moves', _, hrun, hswept, ?_⟩
    intro k hk
    cases low with
    | none => exact .inr rfl
    | some b =>
      by_cases hkb : k < b
      · exact .inl (habove k b hk rfl hkb)
      · exact .inr (by simpa [KeyRange.covers] using hkb)
  | cons b bs ih =>
    have hnext : all = (before ++ [b]) ++ bs := by simpa using hsplit
    have hlast : some b = (before ++ [b]).getLast? := by simp
    have hlt : ∀ lo, low = some lo → lo < b := by
      intro lo hlo
      rw [hlow] at hlo
      have hmem := List.mem_of_getLast? hlo
      rw [hsplit] at hsorted
      exact (List.pairwise_append.1 hsorted).2.2 lo hmem b (by simp)
    by_cases hmin : i64Min < b
    · have hfresh : ∀ k, KeyRange.covers ⟨low, some b⟩ k = true → ¬ swept k := by
        intro k hk hs
        obtain ⟨lo, hlo, hklo⟩ := hbelow k hs
        have := (covers_iff.1 hk).1 lo hlo
        omega
      have hordered : KeyRange.Ordered ⟨low, some b⟩ := by
        intro lo hi hlo hhi
        cases hhi
        exact (hlt lo hlo).le
      obtain ⟨moves', hrun, hswept⟩ := h.interval (i := ⟨⟨low, some b⟩, b - 1⟩) hold hnew hall
        (uniform_between hsplit hsorted hlow) hordered hfirst hfresh (intervals (some b) bs)
      rw [intervals, if_pos hmin, List.singleton_append, hrun]
      refine ih hnext hlast hswept (fun hh => nomatch hh) ?_ ?_
      · rintro k (hs | hcover)
        · obtain ⟨lo, hlo, hklo⟩ := hbelow k hs
          exact ⟨b, rfl, hklo.trans (hlt lo hlo)⟩
        · exact ⟨b, rfl, (covers_iff.1 hcover).2 b rfl⟩
      · intro k b' hk hb' hkb
        cases hb'
        by_cases hs : ∃ lo, low = some lo ∧ k < lo
        · obtain ⟨lo, hlo, hklo⟩ := hs
          exact .inl (habove k lo hk hlo hklo)
        · refine .inr (covers_iff.2 ⟨?_, fun hi hh => ?_⟩)
          · intro lo hlo
            exact not_lt.1 fun hklo => hs ⟨lo, hlo, hklo⟩
          · cases hh
            exact hkb
    · rw [intervals, if_neg hmin, List.nil_append]
      refine ih hnext hlast h (fun hh => nomatch hh) ?_ ?_
      · intro k hs
        obtain ⟨lo, hlo, hklo⟩ := hbelow k hs
        exact ⟨b, rfl, hklo.trans (hlt lo hlo)⟩
      · intro k b' hk hb' hkb
        cases hb'
        omega

end Intervals

theorem ascending_boundaries (bs : List Int) :
    (dedupBy (fun a b => decide (a = b)) (bs.insertionSort (· ≤ ·))).Pairwise (· < ·) := by
  have hsame : ∀ a b : Int, a ≤ b → (decide (b = a) = true ↔ b ≤ a) := by
    intro a b hab
    rw [decide_eq_true_eq]
    omega
  have hpair := pairwise_dedupBy (· ≤ ·) (fun a b => decide (a = b)) (fun _ _ _ => le_trans) hsame
    (List.pairwise_insertionSort (· ≤ ·) bs)
  exact hpair.imp fun hh => lt_of_le_not_ge hh.1 hh.2

theorem rangeMoves_spec (hold : old.Valid ∧ old.IsRange) (hnew : new.Valid ∧ new.IsRange) :
    ∃ moves swept, rangeMoves old new = .ok moves ∧ Swept old new swept moves ∧
      ∀ k, i64Min ≤ k → swept k := by
  obtain ⟨oldBoundaries, oldFits, holdAlg⟩ := hold.2
  obtain ⟨newBoundaries, newFits, hnewAlg⟩ := hnew.2
  have hall : ∀ b, b ∈ old.boundaries ∨ b ∈ new.boundaries → b ∈ dedupBy (fun a b => decide (a = b))
      ((oldBoundaries ++ newBoundaries).insertionSort (· ≤ ·)) := by
    intro b hb
    rw [ShardTable.boundaries, ShardTable.boundaries, holdAlg, hnewAlg] at hb
    have hmem : b ∈ (oldBoundaries ++ newBoundaries).insertionSort (· ≤ ·) := by
      rw [List.mem_insertionSort, List.mem_append]
      exact hb
    obtain ⟨c, hc, hbc⟩ := exists_mem_dedupBy (fun a b => decide (a = b)) (by simp) hmem
    rw [decide_eq_true_eq] at hbc
    rwa [hbc]
  have hempty : Swept old new (fun _ => False) [] :=
    ⟨by simp, by simp, fun _ hk => hk.elim, fun _ _ => rfl⟩
  obtain ⟨moves, swept, hrun, hswept, hfull⟩ := sweep_spec hold hnew hall (ascending_boundaries _)
    (List.nil_append _).symm (List.getLast?_nil).symm hempty (fun _ => rfl) (fun _ hk => hk.elim) (fun _ _ _ hh => nomatch hh)
  refine ⟨moves, swept, ?_, hswept, hfull⟩
  rw [rangeMoves, holdAlg, hnewAlg]
  exact hrun

/-! ### The plan of one table -/

/-- The moves of a table that both catalogs have. -/
structure Exact (old new : ShardTable) (moves : List ShardMove) : Prop where
  table : ∀ mv ∈ moves, mv.table = old.name
  complete : ∀ key a b, old.owner key = .ok a → new.owner key = .ok b → a ≠ b →
    ∃ mv ∈ moves, mv.fromShard = a ∧ mv.toShard = b ∧ mv.covers new key = true
  once : old.IsRange → new.IsRange → ∀ key k, key.asI64 = some k → old.owner key ≠ new.owner key →
    moves.countP (·.covers new key) = 1
  never : old.IsRange → new.IsRange → ∀ key k, key.asI64 = some k → old.owner key = new.owner key →
    moves.countP (·.covers new key) = 0

theorem Swept.exact (hold : old.Valid ∧ old.IsRange) (hnew : new.Valid ∧ new.IsRange)
    (h : Swept old new swept moves) (hfull : ∀ k, i64Min ≤ k → swept k) : Exact old new moves := by
  have hcovers : ∀ key k, key.asI64 = some k → ∀ mv ∈ moves, mv.covers new key = mv.coversInt k := by
    intro key k hkey mv hmv
    obtain ⟨-, r, hr, -⟩ := h.ranged mv hmv
    rw [ShardMove.covers, ShardMove.coversInt, hr, hkey]
    rfl
  have hcount : ∀ key k, key.asI64 = some k →
      moves.countP (·.covers new key) = moves.countP (·.coversInt k) :=
    fun key k hkey => List.countP_congr fun mv hmv => by rw [hcovers key k hkey mv hmv]
  have hchanges : ∀ key k, key.asI64 = some k → (Changes old new k ↔ old.owner key ≠ new.owner key) := by
    intro key k hkey
    rw [owner_eq_shardAt hold.1 hold.2 hkey, owner_eq_shardAt hnew.1 hnew.2 hkey]
    rfl
  refine ⟨fun mv hmv => (h.ranged mv hmv).1, ?_, ?_, ?_⟩
  · intro key a b ha hb hab
    obtain ⟨i, hroute, -⟩ := owner_ok_iff.1 ha
    obtain ⟨-, -, ⟨n, hash, halg, -⟩ | ⟨bs, fits, k, -, hkey, -⟩⟩ := shardFor_cases hroute
    · obtain ⟨bs, fits, halg'⟩ := hold.2
      rw [halg] at halg'
      cases halg'
    have hchange : Changes old new k := by
      rw [hchanges key k hkey, ha, hb]
      exact fun he => hab (Except.ok.inj he)
    have hone := h.once k (hfull k (asI64_fits hkey).1) hchange
    obtain ⟨mv, hmv, hcover⟩ := List.countP_pos_iff.1 (by omega : 0 < moves.countP (·.coversInt k))
    obtain ⟨hsource, htarget⟩ := h.owners mv hmv k hcover
    rw [← owner_eq_shardAt hold.1 hold.2 hkey, ha] at hsource
    rw [← owner_eq_shardAt hnew.1 hnew.2 hkey, hb] at htarget
    exact ⟨mv, hmv, (Except.ok.inj hsource).symm, (Except.ok.inj htarget).symm, by rw [hcovers key k hkey mv hmv, hcover]⟩
  · intro _ _ key k hkey hne
    rw [hcount key k hkey]
    exact h.once k (hfull k (asI64_fits hkey).1) ((hchanges key k hkey).2 hne)
  · intro _ _ key k hkey heq
    rw [hcount key k hkey]
    exact h.never k fun hs => (hchanges key k hkey).1 hs.2 heq

theorem exact_fullCopy (hmixed : ¬ (old.IsRange ∧ new.IsRange)) : Exact old new (fullCopyMoves old new) := by
  refine ⟨?_, ?_, fun h h' => absurd ⟨h, h'⟩ hmixed, fun h h' => absurd ⟨h, h'⟩ hmixed⟩
  · intro mv hmv
    simp only [fullCopyMoves, List.mem_flatMap, List.mem_map] at hmv
    obtain ⟨source, -, target, -, rfl⟩ := hmv
    rfl
  · intro key a b ha hb _
    refine ⟨⟨old.name, a, b, none⟩, ?_, rfl, rfl, ?_⟩
    · simp only [fullCopyMoves, List.mem_flatMap, List.mem_map]
      exact ⟨a, owner_mem ha, b, owner_mem hb, rfl⟩
    · simp [ShardMove.covers, hb]

theorem isRange_hash {t : ShardTable} {n : Nat} (h : t.algorithm = .hashMod n) : ¬ t.IsRange := by
  rintro ⟨bs, fits, halg⟩
  rw [h] at halg
  cases halg

theorem shardFor_hash {t : ShardTable} (hvalid : t.Valid) {n : Nat} (halg : t.algorithm = .hashMod n)
    (key : Value) : t.shardFor key = if key.isNull then .error .missingKey
      else (stableHash64 key).map fun hash => hash.toNat % t.shards.length := by
  have hcheck := hvalid.algorithm
  have hlen : n = t.shards.length := by
    rw [halg, checkAlgorithm] at hcheck
    by_contra hne
    rw [if_pos (.inr hne)] at hcheck
    cases hcheck
  unfold ShardTable.shardFor
  rw [hcheck, halg, ← hlen]
  rfl

theorem owner_sameShardNames (hold : old.Valid) (hnew : new.Valid) {n m : Nat}
    (holdAlg : old.algorithm = .hashMod n) (hnewAlg : new.algorithm = .hashMod m)
    (hnames : old.shardNames = new.shardNames) (key : Value) : old.owner key = new.owner key := by
  have hlen : old.shards.length = new.shards.length := by
    simpa [ShardTable.shardNames] using congrArg List.length hnames
  have hname : old.shardName = new.shardName := by
    funext i
    rw [ShardTable.shardName, ShardTable.shardName, hnames]
  rw [ShardTable.owner, ShardTable.owner, shardFor_hash hold holdAlg, shardFor_hash hnew hnewAlg, hlen, hname]

theorem exact_nil (hmixed : ¬ (old.IsRange ∧ new.IsRange)) (h : ∀ key, old.owner key = new.owner key) :
    Exact old new [] := by
  refine ⟨by simp, ?_, fun h h' => absurd ⟨h, h'⟩ hmixed, fun h h' => absurd ⟨h, h'⟩ hmixed⟩
  intro key a b ha hb hab
  rw [h key, hb] at ha
  exact absurd (Except.ok.inj ha).symm hab

theorem diffTable_exact (hold : old.Valid) (hnew : new.Valid) (hkey : old.key = new.key)
    (hpk : old.pk = new.pk) : ∃ moves, diffTable old new = .ok moves ∧ Exact old new moves := by
  have hcolumns : ¬ (old.key ≠ new.key ∨ old.pk ≠ new.pk) := by simp [hkey, hpk]
  rw [diffTable, if_neg hcolumns]
  cases holdAlg : old.algorithm with
  | hashMod n =>
    have hmixed : ¬ (old.IsRange ∧ new.IsRange) := fun h => isRange_hash holdAlg h.1
    cases hnewAlg : new.algorithm with
    | hashMod m =>
      by_cases hnames : sameShardNames old new = true
      · refine ⟨[], by simp [hnames], exact_nil hmixed ?_⟩
        exact owner_sameShardNames hold hnew holdAlg hnewAlg (by simpa [sameShardNames] using hnames)
      · exact ⟨_, by simp [hnames], exact_fullCopy hmixed⟩
    | range bs fits => exact ⟨_, rfl, exact_fullCopy hmixed⟩
  | range bs fits =>
    cases hnewAlg : new.algorithm with
    | hashMod m => exact ⟨_, rfl, exact_fullCopy fun h => isRange_hash hnewAlg h.2⟩
    | range bs' fits' =>
      obtain ⟨moves, swept, hmoves, hswept, hfull⟩ :=
        rangeMoves_spec ⟨hold, bs, fits, holdAlg⟩ ⟨hnew, bs', fits', hnewAlg⟩
      exact ⟨moves, hmoves, hswept.exact ⟨hold, bs, fits, holdAlg⟩ ⟨hnew, bs', fits', hnewAlg⟩ hfull⟩

/-! ### The whole plan -/

/-- The same tables, with the same key and primary key. -/
structure SameTables (old new : ShardCatalog) : Prop where
  names : ∀ name, name ∈ old.tables.map (·.name) ↔ name ∈ new.tables.map (·.name)
  columns : ∀ t ∈ old.tables, ∀ t' ∈ new.tables, t.name = t'.name → t.key = t'.key ∧ t.pk = t'.pk

def ShardPlan.movesOf (plan : ShardPlan) (table : String) : List ShardMove :=
  plan.moves.filter (·.table = table)

theorem diffTables_spec {old : ShardCatalog} {ts : List ShardTable} (hnodup : (ts.map (·.name)).Nodup)
    (hts : ∀ t ∈ ts, ∀ t', old.tables.find? (·.name = t.name) = some t' →
      ∃ moves, diffTable t' t = .ok moves ∧ Exact t' t moves) :
    ∃ moves, diffTables old ts = .ok moves ∧ (∀ mv ∈ moves, mv.table ∈ ts.map (·.name)) ∧
      ∀ t ∈ ts, ∀ t', old.tables.find? (·.name = t.name) = some t' →
        diffTable t' t = .ok (moves.filter (·.table = t.name)) ∧
          Exact t' t (moves.filter (·.table = t.name)) := by
  induction ts with
  | nil => exact ⟨[], rfl, by simp, by simp⟩
  | cons t ts ih =>
    obtain ⟨hfresh, hrest⟩ := List.nodup_cons.1 hnodup
    obtain ⟨moves, hrun, htables, hspec⟩ := ih hrest fun u hu => hts u (by simp [hu])
    have hother : ∀ u ∈ ts, t.name ≠ u.name := fun u hu he => hfresh (List.mem_map.2 ⟨u, hu, he.symm⟩)
    cases hfind : old.tables.find? (·.name = t.name) with
    | none =>
      refine ⟨moves, by rw [diffTables, hfind, hrun], fun mv hmv => by simp [htables mv hmv], ?_⟩
      intro u hu t' ht'
      rcases List.mem_cons.1 hu with rfl | hu
      · rw [hfind] at ht'
        cases ht'
      · exact hspec u hu t' ht'
    | some t₀ =>
      obtain ⟨first, hfirst, hexact⟩ := hts t (by simp) t₀ hfind
      have hname : t₀.name = t.name := by simpa using List.find?_some hfind
      have hmine : ∀ mv ∈ first, mv.table = t.name := fun mv hmv => (hexact.table mv hmv).trans hname
      refine ⟨first ++ moves, ?_, ?_, ?_⟩
      · rw [diffTables, hfind]
        change (do return (← diffTable t₀ t) ++ (← diffTables old ts)) = _
        rw [hfirst, hrun]
        rfl
      · intro mv hmv
        rcases List.mem_append.1 hmv with hmv | hmv
        · simp [hmine mv hmv]
        · simp [htables mv hmv]
      · intro u hu t' ht'
        rw [List.filter_append]
        rcases List.mem_cons.1 hu with rfl | hu
        · have hnone : moves.filter (·.table = u.name) = [] := by
            refine List.filter_eq_nil_iff.2 fun mv hmv he => hfresh ?_
            have hin := htables mv hmv
            rwa [of_decide_eq_true he] at hin
          have hall : first.filter (·.table = u.name) = first :=
            List.filter_eq_self.2 fun mv hmv => by simp [hmine mv hmv]
          rw [hfind] at ht'
          cases ht'
          rw [hnone, hall, List.append_nil]
          exact ⟨hfirst, hexact⟩
        · have hnone : first.filter (·.table = u.name) = [] := by
            refine List.filter_eq_nil_iff.2 fun mv hmv he => hother u hu ?_
            rw [← hmine mv hmv, of_decide_eq_true he]
          rw [hnone, List.nil_append]
          exact hspec u hu t' ht'

theorem diff_spec {old new : ShardCatalog} (hold : old.validate = .ok ()) (hnew : new.validate = .ok ())
    (hsame : SameTables old new) : ∃ plan, ShardPlan.diff old new = .ok plan ∧
      (∀ mv ∈ plan.moves, mv.table ∈ new.tables.map (·.name)) ∧
      ∀ t ∈ old.tables, ∀ t' ∈ new.tables, t.name = t'.name →
        diffTable t t' = .ok (plan.movesOf t.name) ∧ Exact t t' (plan.movesOf t.name) := by
  have hfind : ∀ t ∈ old.tables, ∀ t' : ShardTable, t.name = t'.name →
      old.tables.find? (·.name = t'.name) = some t := by
    intro t ht t' hname
    rw [← hname]
    exact find_name (validate_nodup hold) ht
  have htables : ∀ t' ∈ new.tables, ∀ t, old.tables.find? (·.name = t'.name) = some t →
      ∃ moves, diffTable t t' = .ok moves ∧ Exact t t' moves := by
    intro t' ht' t ht
    have hmem := List.mem_of_find?_eq_some ht
    have hname : t.name = t'.name := by simpa using List.find?_some ht
    obtain ⟨hkey, hpk⟩ := hsame.columns t hmem t' ht' hname
    exact diffTable_exact (validate_valid hold hmem) (validate_valid hnew ht') hkey hpk
  obtain ⟨moves, hmoves, hnames, hspec⟩ := diffTables_spec (validate_nodup hnew) htables
  refine ⟨⟨moves⟩, ?_, hnames, ?_⟩
  · rw [ShardPlan.diff, hold, hnew, hmoves]
    rfl
  · intro t ht t' ht' hname
    rw [ShardPlan.movesOf, hname]
    exact hspec t' ht' t (hfind t ht t' hname)

theorem Exact.disjoint {old new : ShardTable} {moves : List ShardMove} (h : Exact old new moves)
    (hold : old.IsRange) (hnew : new.IsRange) :
    moves.Pairwise fun mv mv' => ∀ key k, key.asI64 = some k →
      ¬ (mv.covers new key = true ∧ mv'.covers new key = true) := by
  refine List.pairwise_iff_forall_sublist.2 ?_
  rintro mv mv' hsub key k hkey ⟨hmv, hmv'⟩
  have hle : moves.countP (·.covers new key) ≤ 1 := by
    by_cases hsame : old.owner key = new.owner key
    · exact (h.never hold hnew key k hkey hsame).le.trans (by omega)
    · exact (h.once hold hnew key k hkey hsame).le
  have htwo : [mv, mv'].countP (·.covers new key) = 2 := by simp [hmv, hmv']
  have hcount := hsub.countP_le (p := (·.covers new key))
  omega

/-- The plan between two valid catalogs of the same tables holds a move for every key that both
route and whose owner changes, from the old owner to the new one. For range tables exactly one
move covers an integer key whose owner changes, none covers another one, and no two overlap. -/
theorem plan_exact {old new : ShardCatalog} (hold : old.validate = .ok ()) (hnew : new.validate = .ok ())
    (hsame : SameTables old new) : ∃ plan, ShardPlan.diff old new = .ok plan ∧
      ∀ t ∈ old.tables, ∀ t' ∈ new.tables, t.name = t'.name →
        (∀ key a b, old.owner t.name key = .ok a → new.owner t.name key = .ok b → a ≠ b →
          ∃ mv ∈ plan.moves, mv.table = t.name ∧ mv.fromShard = a ∧ mv.toShard = b ∧
            mv.covers t' key = true) ∧
        (t.IsRange → t'.IsRange →
          (∀ key k, key.asI64 = some k → old.owner t.name key ≠ new.owner t.name key →
            (plan.movesOf t.name).countP (·.covers t' key) = 1) ∧
          (∀ key k, key.asI64 = some k → old.owner t.name key = new.owner t.name key →
            (plan.movesOf t.name).countP (·.covers t' key) = 0) ∧
          (plan.movesOf t.name).Pairwise fun mv mv' => ∀ key k, key.asI64 = some k →
            ¬ (mv.covers t' key = true ∧ mv'.covers t' key = true)) := by
  obtain ⟨plan, hplan, -, hspec⟩ := diff_spec hold hnew hsame
  refine ⟨plan, hplan, ?_⟩
  intro t ht t' ht' hname
  obtain ⟨-, hexact⟩ := hspec t ht t' ht' hname
  have howner : ∀ key, old.owner t.name key = t.owner key :=
    owner_catalog ((table_ok_iff hold).2 ⟨ht, rfl⟩)
  have howner' : ∀ key, new.owner t.name key = t'.owner key := by
    rw [hname]
    exact owner_catalog ((table_ok_iff hnew).2 ⟨ht', rfl⟩)
  refine ⟨?_, fun hr hr' => ⟨?_, ?_, hexact.disjoint hr hr'⟩⟩
  · intro key a b ha hb hab
    rw [howner] at ha
    rw [howner'] at hb
    obtain ⟨mv, hmv, hsource, htarget, hcover⟩ := hexact.complete key a b ha hb hab
    obtain ⟨hmem, htable⟩ := List.mem_filter.1 hmv
    exact ⟨mv, hmem, of_decide_eq_true htable, hsource, htarget, hcover⟩
  · intro key k hkey hne
    rw [howner, howner'] at hne
    exact hexact.once hr hr' key k hkey hne
  · intro key k hkey heq
    rw [howner, howner'] at heq
    exact hexact.never hr hr' key k hkey heq

def ordersTable (algorithm : ShardAlgorithm) (shards : List String) : ShardTable :=
  ⟨"orders", "id", "id", algorithm, shards.map (⟨·, none⟩)⟩

def narrowOrders : ShardCatalog := ⟨[ordersTable (.range [100] (by decide)) ["s0", "s1"]]⟩

def wideOrders : ShardCatalog := ⟨[ordersTable (.range [i64Min, 50] (by decide)) ["s2", "s0", "s1"]]⟩

theorem plan_exact_orders : ∃ plan, ShardPlan.diff narrowOrders wideOrders = .ok plan ∧
    (plan.movesOf "orders").countP
      (·.covers (ordersTable (.range [i64Min, 50] (by decide)) ["s2", "s0", "s1"])
        (Value.ofI64 70 (by decide))) = 1 := by
  have hold : narrowOrders.validate = .ok () := by decide +kernel
  have hnew : wideOrders.validate = .ok () := by decide +kernel
  obtain ⟨plan, hplan, hspec⟩ := plan_exact hold hnew ⟨fun _ => Iff.rfl, by decide⟩
  exact ⟨plan, hplan, ((hspec _ (List.mem_singleton_self _) _ (List.mem_singleton_self _) rfl).2
    ⟨_, _, rfl⟩ ⟨_, _, rfl⟩).1 _ 70 rfl (by decide +kernel)⟩

end Ecat.Shard
