import Ecat.OrmDeleteModel

/-! The statements of a split delete: each position of the filter list runs through
the pieces of its own list, independently of the others. -/

namespace Ecat.Orm

variable {V : Type} {filters : List (Expr V)} {share : Nat}

/-- `g` is `f` with one piece of its list; a filter without a list is its own only slice. -/
def Slice (share : Nat) (f g : Expr V) : Prop := ∃ c ∈ slices share f.values, f.withValues c = g

theorem slice_of_not_isIn {f g : Expr V} (hf : f.isIn = false) : Slice share f g ↔ f = g := by
  cases f <;> simp_all [Expr.isIn, Slice, slices, Expr.values, Expr.withValues]

def splitStep (filters : List (Expr V)) (share : Nat) (out : List (List (Expr V))) (idx : Nat) :
    List (List (Expr V)) :=
  out.flatMap fun base =>
    (slices share ((filters[idx]?.map Expr.values).getD [])).map fun chunk =>
      base.modify idx fun f => f.withValues chunk

def SplitAt (filters : List (Expr V)) (share : Nat) (is : List Nat) (chunk : List (Expr V)) : Prop :=
  chunk.length = filters.length ∧
    ∀ i f g, filters[i]? = some f → chunk[i]? = some g → if i ∈ is then Slice share f g else f = g

theorem splitAt_nil (chunk : List (Expr V)) : SplitAt filters share [] chunk ↔ chunk = filters := by
  constructor
  · rintro ⟨hlen, hget⟩
    refine List.ext_getElem hlen fun i h h' => ?_
    have := hget i filters[i] chunk[i] (by simp [h']) (by simp [h])
    simpa using this.symm
  · rintro rfl
    refine ⟨rfl, fun i f g hf hg => ?_⟩
    simpa [hf] using hg

theorem SplitAt.modify {is : List Nat} {base : List (Expr V)} {idx : Nat} {c : List V}
    (hidx : idx ∉ is) (hbase : SplitAt filters share is base)
    (hc : c ∈ slices share ((filters[idx]?.map Expr.values).getD [])) :
    SplitAt filters share (is ++ [idx]) (base.modify idx fun f => f.withValues c) := by
  refine ⟨by simpa using hbase.1, fun i f g hf hg => ?_⟩
  rw [List.getElem?_modify] at hg
  by_cases hi : idx = i
  · subst hi
    obtain ⟨g', hg', rfl⟩ : ∃ g', base[idx]? = some g' ∧ g'.withValues c = g := by simpa using hg
    have hfg := hbase.2 idx f g' hf hg'
    rw [if_neg hidx] at hfg
    subst hfg
    have hmem : idx ∈ is ++ [idx] := by simp
    rw [if_pos hmem]
    exact ⟨c, by simpa [hf] using hc, rfl⟩
  · have hmem : i ∈ is ++ [idx] ↔ i ∈ is := by simp [Ne.symm hi]
    rw [if_congr hmem rfl rfl]
    exact hbase.2 i f g hf (by simpa [hi] using hg)

theorem SplitAt.unmodify {is : List Nat} {chunk : List (Expr V)} {idx : Nat}
    (hidx : idx ∉ is) (hchunk : SplitAt filters share (is ++ [idx]) chunk) :
    ∃ base, SplitAt filters share is base ∧
      ∃ c ∈ slices share ((filters[idx]?.map Expr.values).getD []),
        (base.modify idx fun f => f.withValues c) = chunk := by
  have hother {i : Nat} (hi : idx ≠ i) : i ∈ is ++ [idx] ↔ i ∈ is := by simp [Ne.symm hi]
  cases hf : filters[idx]? with
  | none =>
    have hlen : chunk.length ≤ idx := by
      rw [hchunk.1]
      exact List.getElem?_eq_none_iff.1 hf
    refine ⟨chunk, ⟨hchunk.1, fun i f g hfi hg => ?_⟩, [], by simp [slices], List.modify_eq_self hlen⟩
    have hi : idx ≠ i := by rintro rfl; simp [hf] at hfi
    have := hchunk.2 i f g hfi hg
    rwa [if_congr (hother hi) rfl rfl] at this
  | some f =>
    have hlt : idx < chunk.length := by
      rw [hchunk.1]
      exact (List.getElem?_eq_some_iff.1 hf).1
    have hslice : Slice share f chunk[idx] := by
      have := hchunk.2 idx f chunk[idx] hf (by simp [hlt])
      rwa [if_pos (by simp)] at this
    obtain ⟨c, hc, hcg⟩ := hslice
    refine ⟨chunk.set idx f, ⟨by simpa using hchunk.1, fun i f' g hfi hg => ?_⟩, c, by simpa using hc, ?_⟩
    · by_cases hi : idx = i
      · subst hi
        rw [if_neg hidx]
        rw [List.getElem?_set_self hlt] at hg
        rw [← Option.some_inj, ← hfi, hf, hg]
      · rw [List.getElem?_set_ne hi] at hg
        have := hchunk.2 i f' g hfi hg
        rwa [if_congr (hother hi) rfl rfl] at this
    · refine List.ext_getElem? fun i => ?_
      rw [List.getElem?_modify, List.getElem?_set]
      by_cases hi : idx = i
      · subst hi
        simp [hlt, hcg]
      · simp [hi]

theorem mem_foldl_splitStep (is : List Nat) (his : is.Nodup) (chunk : List (Expr V)) :
    chunk ∈ is.foldl (splitStep filters share) [filters] ↔ SplitAt filters share is chunk := by
  induction is using List.reverseRecOn generalizing chunk with
  | nil => simp [splitAt_nil]
  | append_singleton is idx ih =>
    obtain ⟨hidx, his⟩ : idx ∉ is ∧ is.Nodup := by
      have h := List.nodup_append.1 his
      exact ⟨fun hmem => h.2.2 idx hmem idx (by simp) rfl, h.1⟩
    rw [List.foldl_append, List.foldl_cons, List.foldl_nil, splitStep, List.mem_flatMap]
    simp only [ih his, List.mem_map]
    constructor
    · rintro ⟨base, hbase, c, hc, rfl⟩
      exact hbase.modify hidx hc
    · intro hchunk
      exact hchunk.unmodify hidx

def inPositions (filters : List (Expr V)) : List Nat :=
  (List.range filters.length).filter fun i => (filters[i]?.map Expr.isIn).getD false

theorem splitInFilters_eq (budget : Nat) : splitInFilters filters budget =
    (inPositions filters).foldl (splitStep filters (inShare filters budget)) [filters] := by
  unfold splitInFilters inPositions splitStep
  dsimp only
  split
  · rename_i h
    rw [List.isEmpty_iff.1 h, List.foldl_nil]
  · rfl

theorem mem_splitInFilters (budget : Nat) (chunk : List (Expr V)) :
    chunk ∈ splitInFilters filters budget ↔
      List.Forall₂ (Slice (inShare filters budget)) filters chunk := by
  have hnodup : (inPositions filters).Nodup := List.nodup_range.filter _
  rw [splitInFilters_eq, mem_foldl_splitStep _ hnodup, List.forall₂_iff_get]
  refine and_congr eq_comm (forall_congr' fun i => ?_)
  constructor
  · intro h h₁ h₂
    have hi := h filters[i] chunk[i] (by simp [h₁]) (by simp [h₂])
    split at hi
    · exact hi
    · rename_i hmem
      refine (slice_of_not_isIn ?_).2 hi
      simpa [inPositions, h₁] using hmem
  · intro h f g hf hg
    obtain ⟨h₁, rfl⟩ := List.getElem?_eq_some_iff.1 hf
    obtain ⟨h₂, rfl⟩ := List.getElem?_eq_some_iff.1 hg
    split
    · exact h h₁ h₂
    · rename_i hmem
      refine (slice_of_not_isIn ?_).1 (h h₁ h₂)
      simpa [inPositions, h₁] using hmem

end Ecat.Orm
