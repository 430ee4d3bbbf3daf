import Ecat.CallTree

/-! Threads that each see a part of a shared world of their own. Where every call is answered from
the caller's part and leaves the parts of the others alone, a run of all threads is for each of them
a run of that thread alone. -/

namespace Ecat

namespace CallTree

variable {Op : Type} {Res : Op → Type} {α β : Type} {P : Op → Prop} {Q : (o : Op) → Res o → Prop}

/-- Every call the program may make is in `P`, as long as the replies before it were in `Q`. -/
def CallsGiven (P : Op → Prop) (Q : (o : Op) → Res o → Prop) : CallTree Op Res α → Prop
  | ret _ => True
  | call o k => P o ∧ ∀ r, Q o r → (k r).CallsGiven P Q

theorem callsGiven_perform {o : Op} {f : Res o → CallTree Op Res α} (ho : P o)
    (hf : ∀ r, Q o r → (f r).CallsGiven P Q) : ((perform o).bind f).CallsGiven P Q := ⟨ho, hf⟩

end CallTree

namespace Host

variable {T Op : Type} {Res : Op → Type} {α σ τ Choice Choice' Cmd : Type} [DecidableEq T]

/-- Thread `t` of the host is served as the only thread of `solo t` is. `sees t` relates the shared
world to the one of that thread alone. -/
structure Views (H : Host T Op Res α σ Choice Cmd) (allowed : T → Op → Choice → σ → Prop)
    (solo : T → Host Unit Op Res α τ Choice' Cmd) where
  sees : T → σ → τ → Prop
  makes : T → Op → Prop
  answered : (t : T) → (o : Op) → Res o → Prop
  prog : ∀ t c, (solo t).prog () c = H.prog t c
  admits : ∀ t s c, (solo t).admits s () c
  given : ∀ t c, (H.prog t c).CallsGiven (makes t) (answered t)
  served : ∀ t o c w v, makes t o → allowed t o c w → sees t w v → ∃ c',
    (H.exec t o c w).1 = ((solo t).exec () o c' v).1 ∧ answered t o (H.exec t o c w).1 ∧
      sees t (H.exec t o c w).2 ((solo t).exec () o c' v).2
  apart : ∀ t u o c w v, u ≠ t → makes u o → allowed u o c w → sees t w v → sees t (H.exec u o c w).2 v
  crash : ∀ t w v, sees t w v → sees t (H.crash w) ((solo t).crash v)
  env : ∀ t next w w' v, H.env next w w' → sees t w v → sees t w' v

variable {H : Host T Op Res α σ Choice Cmd} {allowed : T → Op → Choice → σ → Prop}
  {solo : T → Host Unit Op Res α τ Choice' Cmd}

/-- The system of a thread alone. -/
def alone (v : τ) (p : Option (CallTree Op Res α)) : Sys Unit Op Res α τ := ⟨v, fun _ => p⟩

theorem put_alone (s : Sys Unit Op Res α τ) (p : Option (CallTree Op Res α)) : put s () p = alone s.world p := by
  simp only [put, alone, Sys.mk.injEq, true_and]
  funext u
  rfl

/-- What a view says of a state of the host: the programs under way make the calls they may, and each
thread has come as far as it can alone. -/
def Views.Seen (V : Views H allowed solo) (v₀ : T → τ) (s : Sys T Op Res α σ) : Prop :=
  ∀ t, (∀ p, s.thread t = some p → p.CallsGiven (V.makes t) (V.answered t)) ∧
    ∃ v, (solo t).Reach Free (alone (v₀ t) none) (alone v (s.thread t)) ∧ V.sees t s.world v

theorem Views.seen_step (V : Views H allowed solo) {v₀ : T → τ} {s s' : Sys T Op Res α σ}
    (hs : V.Seen v₀ s) (hstep : H.Step allowed s s') : V.Seen v₀ s' := by
  intro t
  obtain ⟨hcalls, v, hreach, hsees⟩ := hs t
  cases hstep with
  | start u c free ok =>
    by_cases he : t = u
    · subst he
      have hstart : (solo t).Step Free (alone v none) (alone v (some (H.prog t c))) := by
        have h : (solo t).Step Free (alone v none) (put (alone v none) () (some ((solo t).prog () c))) :=
          .start () c rfl (V.admits t _ c)
        rwa [put_alone, V.prog] at h
      rw [put_thread_self]
      rw [free] at hreach
      refine ⟨?_, v, hreach.tail hstart, hsees⟩
      rintro p ⟨⟩
      exact V.given t c
    · simpa [put, he] using ⟨hcalls, v, hreach, hsees⟩
  | @call u o k c at_call ok =>
    by_cases he : t = u
    · subst he
      obtain ⟨ho, hk⟩ := hcalls _ at_call
      obtain ⟨c', hreply, hanswered, hsees'⟩ := V.served t o c s.world v ho ok hsees
      have hcall : (solo t).Step Free (alone v (some (.call o k)))
          (alone ((solo t).exec () o c' v).2 (some (k (H.exec t o c s.world).1))) := by
        rw [hreply, ← put_alone { alone v (some (.call o k)) with world := ((solo t).exec () o c' v).2 }]
        exact .call c' rfl trivial
      rw [put_thread_self]
      rw [at_call] at hreach
      refine ⟨?_, _, hreach.tail hcall, hsees'⟩
      rintro p ⟨⟩
      exact hk _ hanswered
    · obtain ⟨ho, -⟩ := (hs u).1 _ at_call
      have hother := V.apart t u o c s.world v (Ne.symm he) ho ok hsees
      simpa [put, he] using ⟨hcalls, v, hreach, hother⟩
  | stop u =>
    by_cases he : t = u
    · subst he
      have hstop : (solo t).Step Free (alone v (s.thread t)) (alone v none) := by
        have h : (solo t).Step Free (alone v (s.thread t)) (put (alone v (s.thread t)) () none) := .stop ()
        rwa [put_alone] at h
      rw [put_thread_self]
      exact ⟨fun p hp => (by cases hp), v, hreach.tail hstop, hsees⟩
    · simpa [put, he] using ⟨hcalls, v, hreach, hsees⟩
  | crash =>
    exact ⟨fun p hp => (by cases hp), _, hreach.tail .crash, V.crash t _ _ hsees⟩
  | env w ok => exact ⟨hcalls, v, hreach, V.env t _ _ _ _ ok hsees⟩

/-- Every run of the host is, seen by any one of its threads, a run of that thread alone. -/
theorem Views.reach (V : Views H allowed solo) {w₀ : σ} {v₀ : T → τ} (hinit : ∀ t, V.sees t w₀ (v₀ t))
    {s : Sys T Op Res α σ} (h : H.Reach allowed ⟨w₀, fun _ => none⟩ s) (t : T) :
    ∃ v, (solo t).Reach Free (alone (v₀ t) none) (alone v (s.thread t)) ∧ V.sees t s.world v := by
  have hseen : V.Seen v₀ s := by
    induction h with
    | refl => exact fun u => ⟨fun p hp => (nomatch hp), v₀ u, .refl, hinit u⟩
    | tail _ hstep ih => exact V.seen_step ih hstep
  exact (hseen t).2

end Host

end Ecat
