import Mathlib.Logic.Function.Conjugate

/-! Updates of a value applied one after the other, and what their order does not matter for. -/

namespace Ecat

variable {V : Type} {fs gs : List (V → V)} {f : V → V} {x : V}

def applyAll (fs : List (V → V)) (x : V) : V := fs.foldl (fun x f => f x) x

@[simp] theorem applyAll_nil : applyAll [] x = x := rfl

@[simp] theorem applyAll_cons : applyAll (f :: fs) x = applyAll fs (f x) := rfl

theorem applyAll_append : applyAll (fs ++ gs) x = applyAll gs (applyAll fs x) := List.foldl_append ..

theorem applyAll_perm (hperm : fs.Perm gs) (hcomm : ∀ f ∈ fs, ∀ g ∈ fs, Function.Commute f g) :
    applyAll fs x = applyAll gs x :=
  hperm.foldl_eq' (fun f hf g hg z => hcomm g hg f hf z) x

theorem applyAll_commute (hcomm : ∀ g ∈ fs, Function.Commute f g) : applyAll fs (f x) = f (applyAll fs x) := by
  induction fs generalizing x with
  | nil => rfl
  | cons g fs ih =>
    rw [applyAll_cons, applyAll_cons, ← hcomm g List.mem_cons_self x]
    exact ih fun h hh => hcomm h (List.mem_cons_of_mem _ hh)

end Ecat
