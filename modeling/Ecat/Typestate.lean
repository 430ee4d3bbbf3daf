import Ecat.Safety

/-! Typestates of programs, and refinement between two hosts. A typestate says which calls may come
next after the calls a program has made and their answers, and of which calls the program ignores the
answer. A host refines another one with the same programs when each call it carries out for programs that
keep to their typestates is one of the other host's. -/

namespace Ecat

structure Typestate (Op : Type) (Res : Op → Type) where
  State : Type
  may : State → Op → Prop
  blind : State → Op → Prop
  given : (o : Op) → Res o → Prop
  next : State → (o : Op) → Res o → State

namespace Typestate

variable {Op : Type} {Res : Op → Type} {α β : Type}

/-- From `q` on the program makes only calls it may make, and ends in `Q`. -/
def Keeps (A : Typestate Op Res) (Q : α → A.State → Prop) : CallTree Op Res α → A.State → Prop
  | .ret a, q => Q a q
  | .call o k, q => A.may q o ∧ (A.blind q o → ∀ r r', k r = k r') ∧
    ∀ r, A.given o r → A.Keeps Q (k r) (A.next q o r)

variable {A : Typestate Op Res} {Q Q' : α → A.State → Prop}

theorem Keeps.mono {p : CallTree Op Res α} {q : A.State} (hp : A.Keeps Q p q) (h : ∀ a q, Q a q → Q' a q) :
    A.Keeps Q' p q := by
  induction p generalizing q with
  | ret a => exact h a q hp
  | call o k ih => exact ⟨hp.1, hp.2.1, fun r hr => ih r (hp.2.2 r hr)⟩

theorem Keeps.bind {R : β → A.State → Prop} {p : CallTree Op Res α} {f : α → CallTree Op Res β} {q : A.State}
    (hp : A.Keeps Q p q) (hf : ∀ a q', Q a q' → A.Keeps R (f a) q') : A.Keeps R (p.bind f) q := by
  induction p generalizing q with
  | ret a => exact hf a q hp
  | call o k ih =>
    exact ⟨hp.1, fun hb r r' => congrArg (fun p => p.bind f) (hp.2.1 hb r r'), fun r hr => ih r (hp.2.2 r hr)⟩

theorem keeps_perform {R : α → A.State → Prop} {o : Op} {k : Res o → CallTree Op Res α} {q : A.State}
    (ho : A.may q o) (hb : A.blind q o → ∀ r r', k r = k r') (hk : ∀ r, A.given o r → A.Keeps R (k r) (A.next q o r)) :
    A.Keeps R ((CallTree.perform o).bind k) q := ⟨ho, hb, hk⟩

end Typestate

namespace Host

variable {T Op : Type} {Res : Op → Type} {α σ τ Choice Choice' Cmd : Type}

/-- What makes the host `C`, where choices in `allowed` are made, a refinement of the certified host `H`. -/
structure Refinement (C : Host T Op Res α σ Choice Cmd) (allowed : T → Op → Choice → σ → Prop)
    (H : Host T Op Res α τ Choice' Cmd) {permitted : T → Op → Choice' → τ → Prop}
    (K : H.Certificate permitted) (A : T → Typestate Op Res) where
  rel : σ → τ → Prop
  link : (t : T) → (A t).State → σ → τ → Prop
  start : ∀ s v t c, rel s.world v → K.inv v → C.admits s t c →
    C.prog t c = H.prog t c ∧ H.admits ⟨v, s.thread⟩ t c ∧
      ∃ q, (A t).Keeps (fun _ _ => True) (C.prog t c) q ∧ link t q s.world v
  call : ∀ t o c w v q, rel w v → K.inv v → link t q w v → (A t).may q o → allowed t o c w →
    ∃ d r v', permitted t o d v ∧ H.exec t o d v = (r, v') ∧ (r = (C.exec t o c w).1 ∨ (A t).blind q o) ∧
      rel (C.exec t o c w).2 v' ∧
      (A t).given o (C.exec t o c w).1 ∧ link t ((A t).next q o (C.exec t o c w).1) (C.exec t o c w).2 v' ∧
      ∀ u q', u ≠ t → K.compat t u → link u q' w v → link u q' (C.exec t o c w).2 v'
  crash : ∀ w v, rel w v → rel (C.crash w) (H.crash v)
  env : ∀ next w w' v, C.env next w w' → rel w v → rel w' v ∧ ∀ t q, link t q w v → link t q w' v

namespace Refinement

variable {C : Host T Op Res α σ Choice Cmd} {allowed : T → Op → Choice → σ → Prop} {H : Host T Op Res α τ Choice' Cmd}
  {permitted : T → Op → Choice' → τ → Prop} {K : H.Certificate permitted} {A : T → Typestate Op Res}

/-- Where every thread of a run stands. -/
def Linked (R : C.Refinement allowed H K A) (s : Sys T Op Res α σ) (v : τ) : Prop :=
  ∀ t p, s.thread t = some p → ∃ q, (A t).Keeps (fun _ _ => True) p q ∧ R.link t q s.world v

variable [DecidableEq T]

theorem Linked.stop {R : C.Refinement allowed H K A} {s : Sys T Op Res α σ} {v : τ} (h : R.Linked s v) (t : T) :
    R.Linked (put s t none) v := by
  intro u p hu
  by_cases he : u = t
  · subst he
    rw [put_thread_self] at hu
    cases hu
  · exact h u p (by simpa [put, he] using hu)

/-- Each step of the finer host is one of the other host, or none. -/
theorem step (R : C.Refinement allowed H K A) {s s' : Sys T Op Res α σ} {v : τ} (hstep : C.Step allowed s s')
    (hrel : R.rel s.world v) (hlinked : R.Linked s v) (hgood : K.Good ⟨v, s.thread⟩) :
    ∃ v', H.Reach permitted ⟨v, s.thread⟩ ⟨v', s'.thread⟩ ∧ R.rel s'.world v' ∧ R.Linked s' v' := by
  cases hstep with
  | start t c free ok =>
    obtain ⟨hprog, hadmits, q, hkeeps, hlink⟩ := R.start s v t c hrel hgood.inv ok
    refine ⟨v, ?_, hrel, ?_⟩
    · have hh : H.Step permitted ⟨v, s.thread⟩ (put ⟨v, s.thread⟩ t (some (H.prog t c))) := .start t c free hadmits
      rw [← hprog] at hh
      exact .single hh
    · intro u p hu
      by_cases he : u = t
      · subst he
        rw [put_thread_self] at hu
        cases hu
        exact ⟨q, hkeeps, hlink⟩
      · exact hlinked u p (by simpa [put, he] using hu)
  | @call t o k c at_call ok =>
    obtain ⟨q, ⟨hmay, hblind, hkeeps⟩, hlink⟩ := hlinked t _ at_call
    obtain ⟨d, r, v', hd, hexec, hanswer, hrel', hgiven, hlink', hothers⟩ :=
      R.call t o c s.world v q hrel hgood.inv hlink hmay ok
    have hnext : k r = k (C.exec t o c s.world).1 := by
      rcases hanswer with rfl | hb
      · rfl
      · exact hblind hb _ _
    refine ⟨v', ?_, hrel', ?_⟩
    · have hh : H.Step permitted ⟨v, s.thread⟩ (put ⟨(H.exec t o d v).2, s.thread⟩ t (some (k (H.exec t o d v).1))) :=
        .call d at_call hd
      rw [hexec] at hh
      simp only at hh
      rw [hnext] at hh
      exact .single hh
    · intro u p hu
      by_cases he : u = t
      · subst he
        rw [put_thread_self] at hu
        cases hu
        exact ⟨_, hkeeps _ hgiven, hlink'⟩
      · have hu' : s.thread u = some p := by simpa [put, he] using hu
        obtain ⟨q', hq', hl⟩ := hlinked u p hu'
        exact ⟨q', hq', hothers u q' he (hgood.compat t u _ p at_call hu' (Ne.symm he)) hl⟩
  | stop t => exact ⟨v, .single (.stop t), hrel, hlinked.stop t⟩
  | crash => exact ⟨H.crash v, .single .crash, R.crash _ _ hrel, fun _ _ h => by cases h⟩
  | env w ok =>
    obtain ⟨hrel', hlinks⟩ := R.env _ _ w v ok hrel
    refine ⟨v, .refl, hrel', fun t p ht => ?_⟩
    obtain ⟨q, hq, hl⟩ := hlinked t p ht
    exact ⟨q, hq, hlinks t q hl⟩

/-- Every run of the finer host has a run of the other one with the same threads beside it. -/
theorem reach (R : C.Refinement allowed H K A) {w : σ} {v : τ} {s : Sys T Op Res α σ} (hinit : R.rel w v)
    (hinv : K.inv v) (h : C.Reach allowed ⟨w, fun _ => none⟩ s) :
    ∃ v', H.Reach permitted ⟨v, fun _ => none⟩ ⟨v', s.thread⟩ ∧ R.rel s.world v' ∧ R.Linked s v' := by
  induction h with
  | refl => exact ⟨v, .refl, hinit, fun _ _ h => by cases h⟩
  | tail _ hstep ih =>
    obtain ⟨v₁, hreach, hrel, hlinked⟩ := ih
    obtain ⟨v', hstep', hrel', hlinked'⟩ := R.step hstep hrel hlinked (K.good_of_reach hinv hreach)
    exact ⟨v', hreach.trans hstep', hrel', hlinked'⟩

end Refinement

end Host

end Ecat
