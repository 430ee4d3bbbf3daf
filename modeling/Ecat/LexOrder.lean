import Mathlib

/-! Lists in lexicographic order: what lies between two lists that begin alike begins like them, and
fields of fixed widths are compared one after the other. -/

namespace Ecat

variable {α : Type*} [LT α]

theorem append_lt_append_iff {xs ys : List α} (as bs : List α) (h : xs.length = ys.length) :
    xs ++ as < ys ++ bs ↔ xs < ys ∨ xs = ys ∧ as < bs := by
  induction xs generalizing ys with
  | nil =>
    obtain rfl : ys = [] := List.eq_nil_of_length_eq_zero h.symm
    simp
  | cons x xs ih =>
    cases ys with
    | nil => simp at h
    | cons y ys =>
      have hih := @ih ys (by simpa using h)
      rw [List.cons_append, List.cons_append, List.cons_lt_cons_iff, List.cons_lt_cons_iff, hih, List.cons.injEq]
      tauto

variable [Std.Asymm fun a b : α => a < b] [Std.Trichotomous fun a b : α => a < b]

theorem exists_append_of_between {p xs ys k : List α} (hlow : p ++ xs ≤ k) (hhigh : k < p ++ ys) :
    ∃ r, k = p ++ r ∧ xs ≤ r ∧ r < ys := by
  induction p generalizing k with
  | nil => exact ⟨k, rfl, hlow, hhigh⟩
  | cons a p ih =>
    cases k with
    | nil => exact absurd hlow (by simp)
    | cons c k =>
      rw [List.cons_append, List.cons_le_cons_iff] at hlow
      rw [List.cons_append, List.cons_lt_cons_iff] at hhigh
      rcases hlow with hac | ⟨rfl, hlow⟩
      · rcases hhigh with hca | ⟨rfl, _⟩
        · exact absurd hac (Std.Asymm.asymm _ _ hca)
        · exact absurd hac (Std.Irrefl.irrefl _)
      · rcases hhigh with hca | ⟨_, hhigh⟩
        · exact absurd hca (Std.Irrefl.irrefl _)
        · obtain ⟨r, rfl, hxs, hys⟩ := ih hlow hhigh
          exact ⟨r, rfl, hxs, hys⟩

end Ecat
