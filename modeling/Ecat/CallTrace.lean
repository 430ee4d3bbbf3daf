import Ecat.CallTree

/-! Runs of a program to its end, with the calls it made and how each was answered. -/

namespace Ecat.CallTree

variable {Op : Type} {Res : Op → Type} {α β σ Choice : Type} {exec : (o : Op) → Choice → σ → Res o × σ}

/-- The program returns `a` in `s'` after these calls. -/
def Run (exec : (o : Op) → Choice → σ → Res o × σ) : CallTree Op Res α → σ → List (Op × Choice) → α → σ → Prop
  | ret b, s, calls, a, s' => calls = [] ∧ a = b ∧ s' = s
  | call o k, s, calls, a, s' => ∃ c rest, calls = (o, c) :: rest ∧
    Run exec (k (exec o c s).1) (exec o c s).2 rest a s'

theorem run_perform {o : Op} {s s' : σ} {calls : List (Op × Choice)} {r : Res o} :
    (perform o).Run exec s calls r s' ↔ ∃ c, calls = [(o, c)] ∧ r = (exec o c s).1 ∧ s' = (exec o c s).2 := by
  constructor
  · rintro ⟨c, rest, rfl, rfl, hr, hs⟩
    exact ⟨c, rfl, hr, hs⟩
  · rintro ⟨c, rfl, hr, hs⟩
    exact ⟨c, [], rfl, rfl, hr, hs⟩

theorem run_bind {p : CallTree Op Res α} {f : α → CallTree Op Res β} {s s' : σ} {calls : List (Op × Choice)} {b : β} :
    (p.bind f).Run exec s calls b s' ↔ ∃ first rest a t, calls = first ++ rest ∧
      p.Run exec s first a t ∧ (f a).Run exec t rest b s' := by
  induction p generalizing s calls with
  | ret a =>
    constructor
    · intro h
      exact ⟨[], calls, a, s, rfl, ⟨rfl, rfl, rfl⟩, h⟩
    · rintro ⟨first, rest, a', t, rfl, ⟨rfl, rfl, rfl⟩, h⟩
      exact h
  | call o k ih =>
    constructor
    · rintro ⟨c, calls, rfl, h⟩
      obtain ⟨first, rest, a, t, rfl, hp, hf⟩ := (ih _).1 h
      exact ⟨(o, c) :: first, rest, a, t, rfl, ⟨c, first, rfl, hp⟩, hf⟩
    · rintro ⟨_, rest, a, t, rfl, ⟨c, first, rfl, hp⟩, hf⟩
      exact ⟨c, first ++ rest, rfl, (ih _).2 ⟨first, rest, a, t, rfl, hp, hf⟩⟩

/-- A program that has returned after some choices has a run that makes them. -/
theorem run_of_advance {p : CallTree Op Res α} {cs : List Choice} {s : σ} {a : α}
    (h : (p.advance exec cs s).1 = ret a) : ∃ calls, p.Run exec s calls a (p.advance exec cs s).2 := by
  induction p generalizing cs s with
  | ret b => exact ⟨[], rfl, (ret.inj h).symm, rfl⟩
  | call o k ih =>
    cases cs with
    | nil => cases h
    | cons c cs =>
      obtain ⟨calls, hrun⟩ := ih _ h
      exact ⟨(o, c) :: calls, c, calls, rfl, hrun⟩

/-- Every call the program may make is in `P`, whatever it is answered. -/
def Calls (P : Op → Prop) : CallTree Op Res α → Prop
  | ret _ => True
  | call o k => P o ∧ ∀ r, (k r).Calls P

theorem calls_bind {P : Op → Prop} {p : CallTree Op Res α} {f : α → CallTree Op Res β} (hp : p.Calls P)
    (hf : ∀ a, (f a).Calls P) : (p.bind f).Calls P := by
  induction p with
  | ret a => exact hf a
  | call o k ih => exact ⟨hp.1, fun r => ih r (hp.2 r)⟩

theorem calls_of_forall {P : Op → Prop} (hP : ∀ o, P o) (p : CallTree Op Res α) : p.Calls P := by
  induction p with
  | ret a => trivial
  | call o k ih => exact ⟨hP o, ih⟩

theorem Run.calls {P : Op → Prop} {p : CallTree Op Res α} {s s' : σ} {calls : List (Op × Choice)} {a : α}
    (h : p.Run exec s calls a s') (hp : p.Calls P) : ∀ c ∈ calls, P c.1 := by
  induction p generalizing s calls with
  | ret b =>
    obtain ⟨rfl, -, -⟩ := h
    simp
  | call o k ih =>
    obtain ⟨c, rest, rfl, hrest⟩ := h
    intro d hd
    rcases List.mem_cons.1 hd with rfl | hd
    · exact hp.1
    · exact ih _ hrest (hp.2 _) d hd

/-- What each of the calls keeps is kept by the run. -/
theorem Run.keeps {P : Op → Prop} {I : σ → Prop} (hexec : ∀ o c s, P o → I s → I (exec o c s).2)
    {p : CallTree Op Res α} {s s' : σ} {calls : List (Op × Choice)} {a : α} (h : p.Run exec s calls a s')
    (hp : p.Calls P) (hs : I s) : I s' := by
  induction p generalizing s calls with
  | ret b =>
    obtain ⟨-, -, rfl⟩ := h
    exact hs
  | call o k ih =>
    obtain ⟨c, rest, -, hrest⟩ := h
    exact ih _ hrest (hp.2 _) (hexec o c s hp.1 hs)

theorem bind_bind {γ : Type} (p : CallTree Op Res α) (f : α → CallTree Op Res β) (g : β → CallTree Op Res γ) :
    (p.bind f).bind g = p.bind fun a => (f a).bind g := by
  induction p with
  | ret a => rfl
  | call o k ih => exact congrArg (call o) (funext ih)

theorem complete_bind (choose : Op → Choice) (p : CallTree Op Res α) (f : α → CallTree Op Res β) (s : σ) :
    (p.bind f).complete exec choose s =
      (f (p.complete exec choose s).1).complete exec choose (p.complete exec choose s).2 := by
  induction p generalizing s with
  | ret a => rfl
  | call o k ih => exact ih _ _

end Ecat.CallTree

namespace Ecat.Host

open CallTree

variable {T Op : Type} {Res : Op → Type} {α σ Choice Cmd : Type} [DecidableEq T]

/-- Where the programs of each thread make only calls in `P`, what these calls, crashes and outside changes
keep holds throughout a run. -/
theorem Reach.calls_inv {H : Host T Op Res α σ Choice Cmd} {allowed : T → Op → Choice → σ → Prop}
    {P : T → Op → Prop} {I : σ → Prop} (hprog : ∀ t c, (H.prog t c).Calls (P t))
    (hexec : ∀ t o c w, P t o → allowed t o c w → I w → I (H.exec t o c w).2)
    (hcrash : ∀ w, I w → I (H.crash w)) (henv : ∀ next w w', H.env next w w' → I w → I w')
    {w : σ} {s : Sys T Op Res α σ} (h : H.Reach allowed ⟨w, fun _ => none⟩ s) (hw : I w) : I s.world := by
  have hboth : I s.world ∧ ∀ t p, s.thread t = some p → p.Calls (P t) := by
    induction h with
    | refl => exact ⟨hw, fun t p hp => by cases hp⟩
    | @tail a b _ hstep ih =>
      have hthread : ∀ u q, (∀ p, q = some p → p.Calls (P u)) → ∀ t p, (put a u q).thread t = some p → p.Calls (P t) := by
        intro u q hq t p hp
        by_cases he : t = u
        · subst he
          rw [put_thread_self] at hp
          exact hq p hp
        · exact ih.2 t p (by simpa [put, he] using hp)
      cases hstep with
      | start t c free ok => exact ⟨ih.1, hthread t _ fun p hp => Option.some.inj hp ▸ hprog t c⟩
      | @call t o k c at_call ok =>
        obtain ⟨ho, hk⟩ := ih.2 t _ at_call
        exact ⟨hexec t o c _ ho ok ih.1, hthread t _ fun p hp => Option.some.inj hp ▸ hk _⟩
      | stop t => exact ⟨ih.1, hthread t none fun p hp => by cases hp⟩
      | crash => exact ⟨hcrash _ ih.1, fun t p hp => by cases hp⟩
      | env w ok => exact ⟨henv _ _ w ok ih.1, ih.2⟩
  exact hboth.1

end Ecat.Host
