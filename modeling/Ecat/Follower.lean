import Ecat.Runs
import Mathlib.Logic.Relation

/-! A follower of something that others write over. It looks at some moment of the history, never at an
earlier one than before, and keeps what it could read last. -/

namespace Ecat

structure Follower (α β : Type) where
  history : List α
  seen : Nat
  value : β

namespace Follower

variable {α β : Type} {read : α → Option β}

inductive Step (read : α → Option β) : Follower α β → Follower α β → Prop
  | write (f : Follower α β) (a : α) : Step read f { f with history := f.history ++ [a] }
  | observe (f : Follower α β) {n : Nat} {a : α} (later : f.seen ≤ n) (there : f.history[n]? = some a) :
      Step read f { f with seen := n, value := (read a).getD f.value }

abbrev Reach (read : α → Option β) := Relation.ReflTransGen (Step read)

/-- The value is what could be read at the moment `n` of the history. -/
def ReadAt (read : α → Option β) (history : List α) (value : β) (n : Nat) : Prop :=
  ∃ a, history[n]? = some a ∧ read a = some value

/-- The value was read at the moment `n`, which has been seen, and at the last one seen if something could be
read there. -/
structure Follows (read : α → Option β) (f : Follower α β) (n : Nat) : Prop where
  within : f.seen < f.history.length
  old : n ≤ f.seen
  was : ReadAt read f.history f.value n
  last : ∀ a b, f.history[f.seen]? = some a → read a = some b → f.value = b

/-- After a step the value was read at the same moment or a later one. -/
theorem Follows.step {f f' : Follower α β} {n : Nat} (h : Follows read f n) (hstep : Step read f f') :
    ∃ m, n ≤ m ∧ Follows read f' m := by
  obtain ⟨a, ha, hread⟩ := h.was
  cases hstep with
  | write b =>
    have hkept : ∀ i, i ≤ f.seen → (f.history ++ [b])[i]? = f.history[i]? := by
      intro i hi
      have hwithin := h.within
      exact List.getElem?_append_left (by omega)
    refine ⟨n, Nat.le_refl n, by simpa using Nat.lt_succ_of_lt h.within, h.old, ⟨a, ?_, hread⟩, fun c d hc hd => h.last c d ?_ hd⟩
    · rw [hkept n h.old, ha]
    · rw [← hkept f.seen (Nat.le_refl _), hc]
  | @observe m b later there =>
    obtain ⟨hm, -⟩ := List.getElem?_eq_some_iff.1 there
    cases hb : read b with
    | none =>
      refine ⟨n, Nat.le_refl n, hm, Nat.le_trans h.old later, ⟨a, ha, by simpa using hread⟩, fun c d hc hd => ?_⟩
      rw [there, Option.some.injEq] at hc
      rw [← hc, hb] at hd
      cases hd
    | some v =>
      refine ⟨m, Nat.le_trans h.old later, hm, Nat.le_refl m, ⟨b, there, by simpa using hb⟩, fun c d hc hd => ?_⟩
      rw [there, Option.some.injEq] at hc
      rw [← hc, hb, Option.some.injEq] at hd
      simpa using hd

theorem Follows.reach {f f' : Follower α β} {n : Nat} (h : Follows read f n) (hreach : Reach read f f') :
    ∃ m, n ≤ m ∧ Follows read f' m := by
  induction hreach with
  | refl => exact ⟨n, Nat.le_refl n, h⟩
  | tail _ hstep ih =>
    obtain ⟨m, hm, hfollows⟩ := ih
    obtain ⟨k, hk, hnext⟩ := hfollows.step hstep
    exact ⟨k, Nat.le_trans hm hk, hnext⟩

/-- A follower that starts with what it can read now. -/
theorem follows_start {history : List α} {a : α} {b : β} (hread : read a = some b) :
    Follows read ⟨history ++ [a], history.length, b⟩ history.length := by
  have ha : (history ++ [a])[history.length]? = some a := List.getElem?_concat_length
  refine ⟨by simp, Nat.le_refl _, ⟨a, ha, hread⟩, fun c d hc hd => ?_⟩
  rw [ha, Option.some.injEq] at hc
  rw [← hc, hread] at hd
  exact Option.some.inj hd

/-- Who has seen the last moment has what can be read now. -/
theorem Follows.current {f : Follower α β} {n : Nat} (h : Follows read f n) (hseen : f.seen + 1 = f.history.length) {a : α} {b : β}
    (hlast : f.history.getLast? = some a) (hread : read a = some b) : f.value = b := by
  refine h.last a b ?_ hread
  rw [List.getLast?_eq_getElem?, ← hseen] at hlast
  exact hlast

/-! ### Machines that follow -/

variable {σ A : Type} {step : σ → A → Option σ} {past : σ → List α} {shown : σ → β}

/-- Each state shows what could be read at some moment of its history, at `n` or later for the first one and
never at an earlier one than for the state before. -/
def Forward (read : α → Option β) (past : σ → List α) (shown : σ → β) (n : Nat) : List σ → Prop
  | [] => True
  | s :: states => ∃ m, n ≤ m ∧ ReadAt read (past s) (shown s) m ∧ Forward read past shown m states

/-- A machine whose steps are those of a follower moves forward in every run, and follows at its end. -/
theorem forward_run {inv : σ → Follower α β → Prop}
    (hview : ∀ s f, inv s f → f.history = past s ∧ f.value = shown s)
    (hkeep : ∀ s f a t, inv s f → step s a = some t → ∃ f', Reach read f f' ∧ inv t f')
    {s s' : σ} {f : Follower α β} {n : Nat} {as : List A} (hinv : inv s f) (hfollows : Follows read f n)
    (hrun : runFrom step s as = some s') :
    Forward read past shown n ((steps step s as).map fun e => e.2.2) ∧ ∃ f' m, inv s' f' ∧ Follows read f' m := by
  induction as generalizing s f n with
  | nil =>
    cases hrun
    exact ⟨trivial, f, n, hinv, hfollows⟩
  | cons a as ih =>
    obtain ⟨t, hstep, hrest⟩ := runFrom_cons.1 hrun
    obtain ⟨f', hreach, hinv'⟩ := hkeep s f a t hinv hstep
    obtain ⟨m, hm, hfollows'⟩ := hfollows.reach hreach
    obtain ⟨hforward, hend⟩ := ih hinv' hfollows' hrest
    obtain ⟨hpast, hshown⟩ := hview t f' hinv'
    have hread : ReadAt read (past t) (shown t) m := hpast ▸ hshown ▸ hfollows'.was
    refine ⟨?_, hend⟩
    simp only [steps, hstep, List.map_cons]
    exact ⟨m, hm, hread, hforward⟩

end Follower

end Ecat
