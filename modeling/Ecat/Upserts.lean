import Mathlib.Data.List.Basic

/-! Upserts into a list of rows: the rows that conflict with the new one are updated, and where there
is none the new one is appended. -/

namespace Ecat

variable {ρ : Type} {hit other : ρ → Bool} {update : ρ → ρ} {fresh : ρ} {rows : List ρ}

def upsertRows (hit : ρ → Bool) (update : ρ → ρ) (fresh : ρ) (rows : List ρ) : List ρ :=
  if rows.any hit then rows.map fun r => if hit r then update r else r else rows ++ [fresh]

theorem mem_upsertRows {r : ρ} (h : r ∈ upsertRows hit update fresh rows) :
    r ∈ rows ∨ r = fresh ∨ ∃ r' ∈ rows, r = update r' := by
  unfold upsertRows at h
  split at h
  · obtain ⟨r', hr', rfl⟩ := List.mem_map.1 h
    split
    · exact .inr (.inr ⟨r', hr', rfl⟩)
    · exact .inl hr'
  · rcases List.mem_append.1 h with h | h
    · exact .inl h
    · exact .inr (.inl (List.mem_singleton.1 h))

/-- What conflicts with the new row is found as the update left it, or as the new row itself. -/
theorem find_upsertRows_self (hupdate : ∀ r, hit r = true → hit (update r) = true) (hfresh : hit fresh = true) :
    (upsertRows hit update fresh rows).find? hit = some ((rows.find? hit).elim fresh update) := by
  unfold upsertRows
  split
  · next hany =>
    obtain ⟨r, hr⟩ := Option.isSome_iff_exists.1 (by simpa [List.any_eq_true] using hany : (rows.find? hit).isSome)
    have hcomp : (hit ∘ fun r => if hit r then update r else r) = hit := by
      funext r
      cases hr : hit r with
      | false => simp [hr]
      | true => simp [hr, hupdate r hr]
    rw [List.find?_map, hcomp, hr, Option.map_some, if_pos (List.find?_some hr), Option.elim_some]
  · next hany =>
    have hnone : rows.find? hit = none := by simpa [List.find?_eq_none] using hany
    simp [List.find?_append, hnone, hfresh]

/-- Rows that do not conflict are found as before, when the update makes none of the others like them. -/
theorem find_upsertRows_other
    (hother : ∀ r ∈ rows, hit r = true → other r = false ∧ other (update r) = false)
    (hfresh : other fresh = false) : (upsertRows hit update fresh rows).find? other = rows.find? other := by
  unfold upsertRows
  split
  · clear * - hother
    induction rows with
    | nil => rfl
    | cons r rows ih =>
      have hrest := ih fun r' hr' => hother r' (List.mem_cons_of_mem _ hr')
      cases hhit : hit r with
      | false => simp [List.find?_cons, hhit, hrest]
      | true =>
        obtain ⟨hr, hu⟩ := hother r List.mem_cons_self hhit
        simp [hhit, hr, hu, hrest]
  · simp [List.find?_append, hfresh]

end Ecat
