import Mathlib.Data.List.AList

/-! Rows sorted into buckets by a key, with every bucket in the order in which its rows came. -/

namespace Ecat

abbrev Buckets (K R : Type*) := AList fun _ : K => List R

variable {K R : Type*} [DecidableEq K]

namespace Buckets

def get (buckets : Buckets K R) (k : K) : List R := (buckets.lookup k).getD []

def extend (buckets : Buckets K R) (k : K) (rows : List R) : Buckets K R := buckets.insert k (buckets.get k ++ rows)

def group (pairs : List (K × R)) : Buckets K R := pairs.foldl (fun buckets (k, row) => buckets.extend k [row]) ∅

/-- The buckets of one map are moved behind those of another. -/
def append (buckets more : Buckets K R) : Buckets K R := more.foldl (fun buckets k rows => buckets.extend k rows) buckets

theorem get_empty (k : K) : (∅ : Buckets K R).get k = [] := by
  simp [get]

theorem get_extend (buckets : Buckets K R) (j k : K) (rows : List R) :
    (buckets.extend j rows).get k = if k = j then buckets.get k ++ rows else buckets.get k := by
  by_cases h : k = j
  · subst h
    simp [extend, get]
  · simp [extend, get, h, AList.lookup_insert_ne h]

theorem get_group (pairs : List (K × R)) (k : K) :
    (group pairs).get k = (pairs.filter fun p => p.1 = k).map Prod.snd := by
  have hstart : ∀ buckets : Buckets K R,
      (pairs.foldl (fun buckets (k, row) => buckets.extend k [row]) buckets).get k =
        buckets.get k ++ (pairs.filter fun p => p.1 = k).map Prod.snd := by
    induction pairs with
    | nil => simp
    | cons p pairs ih =>
      intro buckets
      rw [List.foldl_cons, ih, get_extend]
      by_cases h : k = p.1
      · simp [h]
      · simp [h, Ne.symm h]
  rw [group, hstart, get_empty, List.nil_append]

/-- The keys of a map are distinct, so the order in which its buckets are moved does not matter. -/
theorem get_foldl_extend {entries : List (Sigma fun _ : K => List R)} (h : entries.NodupKeys)
    (buckets : Buckets K R) (k : K) :
    (entries.foldl (fun buckets entry => buckets.extend entry.1 entry.2) buckets).get k =
      buckets.get k ++ (entries.dlookup k).getD [] := by
  induction entries generalizing buckets with
  | nil => simp
  | cons entry entries ih =>
    obtain ⟨j, rows⟩ := entry
    obtain ⟨hfresh, hrest⟩ := List.nodupKeys_cons.1 h
    rw [List.foldl_cons, ih hrest, get_extend]
    by_cases hk : k = j
    · subst hk
      have hnone : entries.dlookup k = none := List.dlookup_eq_none.2 hfresh
      simp [hnone, List.dlookup_cons_eq]
    · simp [hk, List.dlookup_cons_ne]

theorem get_append (buckets more : Buckets K R) (k : K) :
    (buckets.append more).get k = buckets.get k ++ more.get k :=
  get_foldl_extend more.nodupKeys buckets k

end Buckets

end Ecat
