import Ecat.Typestate

/-! Runs with a log of their calls, and invariants of threads that keep to a typestate. The log is only
an observation: it lets a condition on a run speak of the order of its calls. -/

namespace Ecat

structure Called (T Op Choice : Type) where
  thread : T
  op : Op
  reply : Choice

namespace Host

variable {T Op : Type} {Res : Op → Type} {α σ Choice Cmd : Type}

/-- The host with a log of all calls carried out so far, the last one first. -/
def logged (H : Host T Op Res α σ Choice Cmd) :
    Host T Op Res α (σ × List (Called T Op Choice)) Choice Cmd where
  exec t o c w := ((H.exec t o c w.1).1, ((H.exec t o c w.1).2, ⟨t, o, c⟩ :: w.2))
  prog := H.prog
  admits s t c := H.admits ⟨s.world.1, s.thread⟩ t c
  crash w := (H.crash w.1, w.2)
  env next w w' := H.env next w.1 w'.1 ∧ w'.2 = w.2

/-- What holds of a run while its threads keep to their typestates: each thread's state says something
of the world that the other threads leave so, and each step relates the worlds before and after it. -/
structure Tracking (H : Host T Op Res α σ Choice Cmd) (allowed : T → Op → Choice → σ → Prop)
    (A : Typestate Op Res) where
  holds : σ → σ → Prop
  link : T → A.State → σ → Prop
  refl : ∀ w, holds w w
  trans : ∀ w w' w'', holds w w' → holds w' w'' → holds w w''
  start : ∀ t c w, ∃ q, A.Keeps (fun _ _ => True) (H.prog t c) q ∧ link t q w
  call : ∀ t o c w q, link t q w → A.may q o → allowed t o c w → holds w (H.exec t o c w).2 ∧
    A.given o (H.exec t o c w).1 ∧ link t (A.next q o (H.exec t o c w).1) (H.exec t o c w).2 ∧
    ∀ u q', u ≠ t → link u q' w → link u q' (H.exec t o c w).2
  crash : ∀ w, holds w (H.crash w)
  env : ∀ next w w', H.env next w w' → holds w w' ∧ ∀ t q, link t q w → link t q w'

variable {H : Host T Op Res α σ Choice Cmd} {allowed : T → Op → Choice → σ → Prop} {A : Typestate Op Res}

namespace Tracking

def Linked (K : H.Tracking allowed A) (s : Sys T Op Res α σ) : Prop :=
  ∀ t p, s.thread t = some p → ∃ q, A.Keeps (fun _ _ => True) p q ∧ K.link t q s.world

theorem linked_init (K : H.Tracking allowed A) (w : σ) : K.Linked ⟨w, fun _ => none⟩ := by
  intro t p h
  cases h

variable [DecidableEq T]

theorem step (K : H.Tracking allowed A) {s s' : Sys T Op Res α σ} (hs : K.Linked s) (h : H.Step allowed s s') :
    K.holds s.world s'.world ∧ K.Linked s' := by
  cases h with
  | start t c free ok =>
    refine ⟨K.refl _, ?_⟩
    intro u p hu
    by_cases he : u = t
    · subst he
      rw [put_thread_self] at hu
      cases hu
      exact K.start u c s.world
    · exact hs u p (by simpa [put, he] using hu)
  | @call t o k c at_call ok =>
    obtain ⟨q, ⟨hmay, -, hkeeps⟩, hlink⟩ := hs t _ at_call
    obtain ⟨hholds, hgiven, hnext, hothers⟩ := K.call t o c s.world q hlink hmay ok
    refine ⟨hholds, ?_⟩
    intro u p hu
    by_cases he : u = t
    · subst he
      rw [put_thread_self] at hu
      cases hu
      exact ⟨_, hkeeps _ hgiven, hnext⟩
    · obtain ⟨q', hq', hl⟩ := hs u p (by simpa [put, he] using hu)
      exact ⟨q', hq', hothers u q' he hl⟩
  | stop t =>
    refine ⟨K.refl _, ?_⟩
    intro u p hu
    by_cases he : u = t
    · subst he
      rw [put_thread_self] at hu
      cases hu
    · exact hs u p (by simpa [put, he] using hu)
  | crash => exact ⟨K.crash _, K.linked_init _⟩
  | env w ok =>
    obtain ⟨hholds, hlinks⟩ := K.env _ _ w ok
    refine ⟨hholds, ?_⟩
    intro t p ht
    obtain ⟨q, hq, hl⟩ := hs t p ht
    exact ⟨q, hq, hlinks t q hl⟩

theorem reach (K : H.Tracking allowed A) {s s' : Sys T Op Res α σ} (hs : K.Linked s)
    (h : H.Reach allowed s s') : K.holds s.world s'.world ∧ K.Linked s' := by
  induction h with
  | refl => exact ⟨K.refl _, hs⟩
  | tail _ hstep ih =>
    obtain ⟨hholds, hlinked⟩ := K.step ih.2 hstep
    exact ⟨K.trans _ _ _ ih.1 hholds, hlinked⟩

end Tracking

end Host

end Ecat
