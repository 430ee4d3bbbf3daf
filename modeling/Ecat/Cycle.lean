import Mathlib

/-! Going round a circle of places. -/

namespace Ecat

/-- The `m` places from `start` on, round `n` of them. -/
def cycle (n start m : Nat) : List Nat := (List.range m).map fun i => (start + i) % n

theorem cycle_nodup {n : Nat} (start : Nat) : (cycle n start n).Nodup := by
  refine List.Nodup.map_on ?_ List.nodup_range
  intro i hi i' hi' heq
  have hmod : i % n = i' % n := Nat.ModEq.add_left_cancel' start heq
  rwa [Nat.mod_eq_of_lt (List.mem_range.1 hi), Nat.mod_eq_of_lt (List.mem_range.1 hi')] at hmod

theorem mem_cycle {n start j : Nat} : j ∈ cycle n start n ↔ j < n := by
  constructor
  · intro h
    obtain ⟨i, hi, rfl⟩ := List.mem_map.1 h
    exact Nat.mod_lt _ (by have := List.mem_range.1 hi; omega)
  · intro hj
    have hlt : start % n < n := Nat.mod_lt _ (by omega)
    refine List.mem_map.2 ⟨(j + n - start % n) % n, List.mem_range.2 (Nat.mod_lt _ (by omega)), ?_⟩
    have hsum : start % n + (j + n - start % n) = j + n := by omega
    rw [Nat.add_mod_mod, ← Nat.mod_add_mod, hsum, Nat.add_mod_right, Nat.mod_eq_of_lt hj]

theorem count_cycle {n j : Nat} (hj : j < n) (start k : Nat) : (cycle n start (k * n)).count j = k := by
  induction k generalizing start with
  | zero => simp [cycle]
  | succ k ih =>
    have hsplit : cycle n start ((k + 1) * n) = cycle n start n ++ cycle n (start + n) (k * n) := by
      rw [cycle, cycle, cycle, Nat.succ_mul, Nat.add_comm, List.range_add, List.map_append, List.map_map]
      congr 1
      refine List.map_congr_left fun i _ => ?_
      rw [Function.comp_apply, Nat.add_assoc]
    rw [hsplit, List.count_append, ih, List.count_eq_one_of_mem (cycle_nodup start) (mem_cycle.2 hj), Nat.add_comm]

end Ecat
