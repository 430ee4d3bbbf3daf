import Mathlib

/-! Cutting a list into consecutive pieces of one length, as `slice::chunks` does,
and choosing one alternative at every position of a list. -/

namespace Ecat

def chunks {α : Type*} (n : Nat) (l : List α) : List (List α) :=
  (List.range ((l.length + n - 1) / n)).map fun k => (l.drop (k * n)).take n

variable {α β : Type*} {n : Nat} {l c : List α} {x : α}

/-- Consecutive pieces of the given lengths. -/
def sliceBy {α : Type*} : List Nat → List α → List (List α)
  | [], _ => []
  | size :: sizes, l => l.take size :: sliceBy sizes (l.drop size)

theorem lt_chunk_count (hn : 0 < n) (k m : Nat) : k < (m + n - 1) / n ↔ k * n < m := by
  rw [Nat.lt_iff_add_one_le, Nat.le_div_iff_mul_le hn, Nat.succ_mul]
  omega

theorem mem_chunks (hn : 0 < n) :
    c ∈ chunks n l ↔ ∃ k, k * n < l.length ∧ (l.drop (k * n)).take n = c := by
  simp [chunks, lt_chunk_count hn]

theorem mem_of_mem_chunks (hn : 0 < n) (hc : c ∈ chunks n l) (hx : x ∈ c) : x ∈ l := by
  obtain ⟨k, _, rfl⟩ := (mem_chunks hn).1 hc
  exact List.mem_of_mem_drop (List.mem_of_mem_take hx)

theorem ne_nil_of_mem_chunks (hn : 0 < n) (hc : c ∈ chunks n l) : c ≠ [] := by
  obtain ⟨k, hk, rfl⟩ := (mem_chunks hn).1 hc
  intro hnil
  have hlen := congrArg List.length hnil
  simp only [List.length_take, List.length_drop, List.length_nil] at hlen
  omega

theorem take_mem_chunks (hn : 0 < n) (hl : l ≠ []) : l.take n ∈ chunks n l :=
  (mem_chunks hn).2 ⟨0, by simpa using List.length_pos_of_ne_nil hl, by simp⟩

theorem exists_mem_chunks (hn : 0 < n) (hx : x ∈ l) : ∃ c ∈ chunks n l, x ∈ c := by
  obtain ⟨i, hi, rfl⟩ := List.mem_iff_getElem.1 hx
  have hmod : i % n < n := Nat.mod_lt i hn
  have hdiv : i / n * n + i % n = i := Nat.div_add_mod' i n
  have hk : i / n * n < l.length := by omega
  refine ⟨_, (mem_chunks hn).2 ⟨i / n, hk, rfl⟩, ?_⟩
  refine List.mem_iff_getElem.2 ⟨i % n, by simp only [List.length_take, List.length_drop]; omega, ?_⟩
  simp only [List.getElem_take, List.getElem_drop, hdiv]

theorem chunks_of_length_le (hn : 0 < n) (hl : l ≠ []) (hle : l.length ≤ n) : chunks n l = [l] := by
  have hpos := List.length_pos_of_ne_nil hl
  have hcount : (l.length + n - 1) / n = 1 :=
    (Nat.div_eq_iff hn).2 ⟨by omega, by omega⟩
  simp [chunks, hcount, List.take_of_length_le hle]

theorem chunks_nil (hn : 0 < n) : chunks n ([] : List α) = [] := by
  have hcount : ([] : List α).length + n - 1 < n := by
    rw [List.length_nil]
    omega
  rw [chunks, Nat.div_eq_of_lt hcount, List.range_zero, List.map_nil]

theorem chunks_cons (hn : 0 < n) (hl : l ≠ []) : chunks n l = l.take n :: chunks n (l.drop n) := by
  have hpos := List.length_pos_of_ne_nil hl
  have hcount : (l.length + n - 1) / n = ((l.drop n).length + n - 1) / n + 1 := by
    rw [List.length_drop]
    by_cases hle : l.length ≤ n
    · have hnone : (l.length - n + n - 1) / n = 0 := Nat.div_eq_of_lt (by omega)
      rw [hnone]
      exact (Nat.div_eq_iff hn).2 ⟨by omega, by omega⟩
    · rw [← Nat.add_div_right _ hn]
      congr 1
      omega
  rw [chunks, hcount, List.range_succ_eq_map, List.map_cons, List.map_map, chunks, Nat.zero_mul, List.drop_zero]
  congr 1
  apply List.map_congr_left
  intro k _
  rw [Function.comp, List.drop_drop, Nat.succ_mul, Nat.add_comm n]

theorem lt_add_of_mem_chunks_range {m a b : Nat} {c : List Nat} (hn : 0 < n)
    (hc : c ∈ chunks n (List.range m)) (ha : a ∈ c) (hb : b ∈ c) : b < a + n := by
  obtain ⟨k, _, rfl⟩ := (mem_chunks hn).1 hc
  simp only [List.mem_iff_getElem, List.length_take, List.length_drop, List.length_range,
    List.getElem_take, List.getElem_drop, List.getElem_range] at ha hb
  obtain ⟨i, hi, rfl⟩ := ha
  obtain ⟨j, hj, rfl⟩ := hb
  omega

theorem flatten_sliceBy {sizes : List Nat} (h : sizes.sum = l.length) : (sliceBy sizes l).flatten = l := by
  induction sizes generalizing l with
  | nil => exact (List.eq_nil_of_length_eq_zero h.symm).symm
  | cons size sizes ih =>
    have hrest : sizes.sum = (l.drop size).length := by
      rw [List.sum_cons] at h
      rw [List.length_drop]
      omega
    rw [sliceBy, List.flatten_cons, ih hrest, List.take_append_drop]

theorem length_mem_of_mem_sliceBy {sizes : List Nat} (h : sizes.sum = l.length) (hc : c ∈ sliceBy sizes l) :
    c.length ∈ sizes := by
  induction sizes generalizing l with
  | nil => cases hc
  | cons size sizes ih =>
    rw [List.sum_cons] at h
    rcases List.mem_cons.1 hc with rfl | hc
    · have hlength : (l.take size).length = size := by
        rw [List.length_take]
        omega
      rw [hlength]
      exact List.mem_cons_self
    · exact List.mem_cons_of_mem _ (ih (by rw [List.length_drop]; omega) hc)

theorem length_le_intercalate {sep : List β} {f : α → List β} (hf : ∀ a ∈ l, 0 < (f a).length) :
    l.length ≤ (sep.intercalate (l.map f)).length := by
  induction l with
  | nil => simp
  | cons a l ih =>
    obtain ⟨ha, hrest⟩ := List.forall_mem_cons.1 hf
    have hih := ih hrest
    cases l with
    | nil =>
      simp only [List.map_cons, List.map_nil, List.intercalate_singleton, List.length_singleton]
      omega
    | cons b l =>
      rw [List.map_cons, List.map_cons, List.intercalate_cons_cons, ← List.map_cons]
      simp only [List.length_append, List.length_cons] at hih ⊢
      omega

theorem exists_forall₂_iff {R : α → β → Prop} {P : β → Prop} {l : List α} :
    (∃ m, List.Forall₂ R l m ∧ ∀ b ∈ m, P b) ↔ ∀ a ∈ l, ∃ b, R a b ∧ P b := by
  induction l with
  | nil => simp
  | cons a l ih =>
    simp only [List.forall₂_cons_left_iff, List.mem_cons, forall_eq_or_imp, ← ih]
    constructor
    · rintro ⟨_, ⟨b, m, hab, hm, rfl⟩, hP⟩
      exact ⟨⟨b, hab, hP b (by simp)⟩, m, hm, fun y hy => hP y (by simp [hy])⟩
    · rintro ⟨⟨b, hab, hb⟩, m, hm, hP⟩
      exact ⟨b :: m, ⟨b, m, hab, hm, rfl⟩, List.forall_mem_cons.2 ⟨hb, hP⟩⟩

theorem exists_right_of_forall₂ {R : α → β → Prop} {l : List α} {m : List β} {a : α}
    (h : List.Forall₂ R l m) (ha : a ∈ l) : ∃ b ∈ m, R a b := by
  induction h with
  | nil => simp at ha
  | @cons a' b _ _ hab _ ih =>
    obtain rfl | ha := List.mem_cons.1 ha
    · exact ⟨b, by simp, hab⟩
    · obtain ⟨b', hb', hR⟩ := ih ha
      exact ⟨b', by simp [hb'], hR⟩

theorem exists_left_of_forall₂ {R : α → β → Prop} {l : List α} {m : List β} {b : β}
    (h : List.Forall₂ R l m) (hb : b ∈ m) : ∃ a ∈ l, R a b := by
  have hflip : List.Forall₂ (flip R) m l := h.flip
  exact exists_right_of_forall₂ hflip hb

end Ecat
