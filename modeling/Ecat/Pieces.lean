import Mathlib

/-! A line cut at strictly increasing bounds. -/

namespace Ecat

variable {α : Type} [LinearOrder α]

/-- Piece `i` starts at the bound before it and ends before its own; the last has no end. -/
structure InPiece (bounds : List α) (t : α) (i : Nat) : Prop where
  index : i ≤ bounds.length
  low : ∀ j low, j + 1 = i → bounds[j]? = some low → low ≤ t
  high : ∀ high, bounds[i]? = some high → t < high

theorem inPiece_findIdx {bounds : List α} (t : α) : InPiece bounds t (bounds.findIdx fun b => t < b) := by
  refine ⟨List.findIdx_le_length, ?_, ?_⟩
  · intro j low hj hlow
    have hlt : j < bounds.findIdx fun b => t < b := by omega
    have hnot := List.not_of_lt_findIdx hlt
    obtain ⟨hlen, rfl⟩ := List.getElem?_eq_some_iff.1 hlow
    simpa using hnot
  · intro high hhigh
    obtain ⟨hlen, rfl⟩ := List.getElem?_eq_some_iff.1 hhigh
    simpa using List.findIdx_getElem (w := hlen)

theorem InPiece.not_before {bounds : List α} (h : bounds.Pairwise (· < ·)) {t : α} {i j : Nat}
    (hi : InPiece bounds t i) (hj : InPiece bounds t j) : ¬ i < j := by
  intro hlt
  obtain ⟨k, rfl⟩ : ∃ k, j = k + 1 := ⟨j - 1, by omega⟩
  have hk : k < bounds.length := hj.index
  have hle : bounds[i] ≤ bounds[k] := by
    rcases Nat.lt_or_ge i k with hik | hik
    · exact (List.pairwise_iff_getElem.1 h i k (by omega) hk hik).le
    · have heq : i = k := by omega
      subst heq
      exact le_refl _
  have hlow := hj.low k bounds[k] rfl (List.getElem?_eq_getElem hk)
  have hhigh := hi.high bounds[i] (List.getElem?_eq_getElem (by omega))
  exact absurd (hhigh.trans_le (hle.trans hlow)) (lt_irrefl _)

theorem existsUnique_piece {bounds : List α} (h : bounds.Pairwise (· < ·)) (t : α) :
    ∃! i, InPiece bounds t i := by
  refine ⟨_, inPiece_findIdx t, fun j hj => ?_⟩
  have h1 := hj.not_before h (inPiece_findIdx t)
  have h2 := (inPiece_findIdx t).not_before h hj
  omega

end Ecat
