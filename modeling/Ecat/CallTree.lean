import Mathlib.Logic.Relation
import Mathlib.Logic.Function.Basic

/-! Programs as finite trees of calls to their surroundings, and hosts that
interleave several of them. A call is atomic and its reply is chosen by the
surroundings, so every node of a tree is a point where the program can be
preempted, dropped or lost in a crash. -/

namespace Ecat

/-- A program that performs calls `o : Op`, each answered in `Res o`. -/
inductive CallTree (Op : Type) (Res : Op → Type) (α : Type) : Type
  | ret (a : α)
  | call (o : Op) (k : Res o → CallTree Op Res α)

namespace CallTree

variable {Op : Type} {Res : Op → Type} {α β σ Choice : Type}

def bind : CallTree Op Res α → (α → CallTree Op Res β) → CallTree Op Res β
  | ret a, f => f a
  | call o k, f => call o fun r => (k r).bind f

instance : Monad (CallTree Op Res) where
  pure := ret
  bind := bind

def perform (o : Op) : CallTree Op Res (Res o) := call o ret

def next : CallTree Op Res α → Option Op
  | ret _ => none
  | call o _ => some o

@[simp] theorem bind_eq (p : CallTree Op Res α) (f : α → CallTree Op Res β) : p >>= f = p.bind f := rfl

/-- Every value the program may return, whatever it is answered, is in `P`. -/
def Returns (P : α → Prop) : CallTree Op Res α → Prop
  | ret a => P a
  | call _ k => ∀ r, (k r).Returns P

theorem returns_bind {Q : β → Prop} (p : CallTree Op Res α) {f : α → CallTree Op Res β}
    (hf : ∀ a, (f a).Returns Q) : (p.bind f).Returns Q := by
  induction p with
  | ret a => exact hf a
  | call o k ih => exact ih

theorem bind_congr {P : α → Prop} {p : CallTree Op Res α} {f g : α → CallTree Op Res β}
    (h : p.Returns P) (hfg : ∀ a, P a → f a = g a) : p.bind f = p.bind g := by
  induction p with
  | ret a => exact hfg a h
  | call o k ih => exact congrArg (call o) (funext fun r => ih r (h r))

def advance (exec : (o : Op) → Choice → σ → Res o × σ) :
    CallTree Op Res α → List Choice → σ → CallTree Op Res α × σ
  | ret a, _, s => (ret a, s)
  | p, [], s => (p, s)
  | call o k, c :: cs, s => advance exec (k (exec o c s).1) cs (exec o c s).2

/-- Runs a program to its end with a fixed choice for each call. -/
def complete (exec : (o : Op) → Choice → σ → Res o × σ) (choose : Op → Choice) :
    CallTree Op Res α → σ → α × σ
  | ret a, s => (a, s)
  | call o k, s => complete exec choose (k (exec o (choose o) s).1) (exec o (choose o) s).2

@[simp] theorem complete_perform_bind (exec : (o : Op) → Choice → σ → Res o × σ) (choose : Op → Choice)
    (o : Op) (k : Res o → CallTree Op Res α) (s : σ) :
    ((perform o).bind k).complete exec choose s =
      (k (exec o (choose o) s).1).complete exec choose (exec o (choose o) s).2 := rfl

def Permits (exec : (o : Op) → Choice → σ → Res o × σ) (allowed : Op → Choice → σ → Prop) :
    CallTree Op Res α → List Choice → σ → Prop
  | ret _, _, _ => True
  | call _ _, [], _ => True
  | call o k, c :: cs, s => allowed o c s ∧ Permits exec allowed (k (exec o c s).1) cs (exec o c s).2

theorem permits_nil {exec : (o : Op) → Choice → σ → Res o × σ} {allowed : Op → Choice → σ → Prop}
    (p : CallTree Op Res α) (s : σ) : p.Permits exec allowed [] s := by
  cases p <;> trivial

theorem permits_of_forall {exec : (o : Op) → Choice → σ → Res o × σ} {allowed : Op → Choice → σ → Prop}
    {cs : List Choice} (h : ∀ c ∈ cs, ∀ o s, allowed o c s) (p : CallTree Op Res α) (s : σ) :
    p.Permits exec allowed cs s := by
  induction cs generalizing p s with
  | nil => exact permits_nil p s
  | cons c cs ih =>
    cases p with
    | ret a => trivial
    | call o k => exact ⟨h c (by simp) o s, ih (fun d hd => h d (by simp [hd])) _ _⟩

end CallTree

/-- A world shared by threads that are each part way through a program. -/
structure Sys (T Op : Type) (Res : Op → Type) (α σ : Type) where
  world : σ
  thread : T → Option (CallTree Op Res α)

/-- What the surroundings of the threads do: how a call is executed, which
commands a thread may start with, what a crash leaves of the world, and which
changes to the world come from outside, given the calls about to be made. -/
structure Host (T Op : Type) (Res : Op → Type) (α σ Choice Cmd : Type) where
  exec : T → (o : Op) → Choice → σ → Res o × σ
  prog : T → Cmd → CallTree Op Res α
  admits : Sys T Op Res α σ → T → Cmd → Prop
  crash : σ → σ
  env : (T → Option Op) → σ → σ → Prop

namespace Host

variable {T Op : Type} {Res : Op → Type} {α σ Choice Cmd : Type} [DecidableEq T]

def put (s : Sys T Op Res α σ) (t : T) (p : Option (CallTree Op Res α)) : Sys T Op Res α σ :=
  { s with thread := Function.update s.thread t p }

/-- One step of the host. `allowed` restricts the choices the surroundings
may make for a call; the unrestricted host has `allowed` always true. -/
inductive Step (H : Host T Op Res α σ Choice Cmd) (allowed : T → Op → Choice → σ → Prop) :
    Sys T Op Res α σ → Sys T Op Res α σ → Prop
  | start {s : Sys T Op Res α σ} (t : T) (c : Cmd) (free : s.thread t = none) (ok : H.admits s t c) :
      Step H allowed s (put s t (some (H.prog t c)))
  | call {s : Sys T Op Res α σ} {t : T} {o : Op} {k : Res o → CallTree Op Res α} (c : Choice)
      (at_call : s.thread t = some (.call o k)) (ok : allowed t o c s.world) :
      Step H allowed s (put { s with world := (H.exec t o c s.world).2 } t
        (some (k (H.exec t o c s.world).1)))
  | stop {s : Sys T Op Res α σ} (t : T) : Step H allowed s (put s t none)
  | crash {s : Sys T Op Res α σ} : Step H allowed s ⟨H.crash s.world, fun _ => none⟩
  | env {s : Sys T Op Res α σ} (w : σ)
      (ok : H.env (fun t => (s.thread t).bind CallTree.next) s.world w) :
      Step H allowed s { s with world := w }

abbrev Reach (H : Host T Op Res α σ Choice Cmd) (allowed : T → Op → Choice → σ → Prop) :=
  Relation.ReflTransGen (Step H allowed)

def Free (_ : T) (_ : Op) (_ : Choice) (_ : σ) : Prop := True

omit [DecidableEq T] in
theorem permits_free (exec : (o : Op) → Choice → σ → Res o × σ) (t : T) (p : CallTree Op Res α)
    (cs : List Choice) (s : σ) : p.Permits exec (Free t) cs s :=
  CallTree.permits_of_forall (fun _ _ _ _ => trivial) p s

theorem Step.mono {H : Host T Op Res α σ Choice Cmd} {A B : T → Op → Choice → σ → Prop}
    (hAB : ∀ t o c w, A t o c w → B t o c w) {s s' : Sys T Op Res α σ} (h : H.Step A s s') :
    H.Step B s s' := by
  cases h with
  | start t c free ok => exact .start t c free ok
  | call c ht ok => exact .call c ht (hAB _ _ _ _ ok)
  | stop t => exact .stop t
  | crash => exact .crash
  | env w ok => exact .env w ok

theorem Reach.mono {H : Host T Op Res α σ Choice Cmd} {A B : T → Op → Choice → σ → Prop}
    (hAB : ∀ t o c w, A t o c w → B t o c w) {s s' : Sys T Op Res α σ} (h : H.Reach A s s') :
    H.Reach B s s' :=
  Relation.ReflTransGen.mono (fun _ _ => Step.mono hAB) _ _ h

theorem put_thread_self (s : Sys T Op Res α σ) (t : T) (p : Option (CallTree Op Res α)) :
    (put s t p).thread t = p := Function.update_self ..

/-- What every call, crash and outside change keeps holds throughout a run, whatever the programs. -/
theorem Reach.world_inv {H : Host T Op Res α σ Choice Cmd} {allowed : T → Op → Choice → σ → Prop}
    {I : σ → Prop} (hexec : ∀ t o c w, allowed t o c w → I w → I (H.exec t o c w).2)
    (hcrash : ∀ w, I w → I (H.crash w)) (henv : ∀ next w w', H.env next w w' → I w → I w')
    {s s' : Sys T Op Res α σ} (h : H.Reach allowed s s') (hs : I s.world) : I s'.world := by
  induction h with
  | refl => exact hs
  | tail _ hstep ih =>
    cases hstep with
    | start t c _ _ => exact ih
    | call c _ ok => exact hexec _ _ c _ ok ih
    | stop t => exact ih
    | crash => exact hcrash _ ih
    | env w ok => exact henv _ _ w ok ih

theorem Reach.advance (H : Host T Op Res α σ Choice Cmd) (allowed : T → Op → Choice → σ → Prop) (t : T)
    (p : CallTree Op Res α) (cs : List Choice) (s : Sys T Op Res α σ) (hp : s.thread t = some p)
    (ok : p.Permits (H.exec t) (allowed t) cs s.world) :
    Reach H allowed s ⟨(p.advance (H.exec t) cs s.world).2,
      Function.update s.thread t (some (p.advance (H.exec t) cs s.world).1)⟩ := by
  induction cs generalizing p s with
  | nil =>
    have he : Function.update s.thread t (some p) = s.thread := by
      rw [← hp, Function.update_eq_self]
    cases p <;> simpa [CallTree.advance, he] using Relation.ReflTransGen.refl
  | cons c cs ih =>
    cases p with
    | ret a =>
      have he : Function.update s.thread t (some (.ret a)) = s.thread := by
        rw [← hp, Function.update_eq_self]
      simpa [CallTree.advance, he] using Relation.ReflTransGen.refl
    | call o k =>
      refine .head (Step.call c hp ok.1) ?_
      have hh := ih (k (H.exec t o c s.world).1)
        (put { s with world := (H.exec t o c s.world).2 } t (some (k (H.exec t o c s.world).1)))
        (put_thread_self ..) ok.2
      simpa [CallTree.advance, put] using hh

theorem Reach.launch (H : Host T Op Res α σ Choice Cmd) (allowed : T → Op → Choice → σ → Prop) (t : T)
    (cmd : Cmd) (cs : List Choice) (s : Sys T Op Res α σ) (free : s.thread t = none)
    (admitted : H.admits s t cmd) (ok : (H.prog t cmd).Permits (H.exec t) (allowed t) cs s.world) :
    Reach H allowed s ⟨((H.prog t cmd).advance (H.exec t) cs s.world).2,
      Function.update s.thread t (some ((H.prog t cmd).advance (H.exec t) cs s.world).1)⟩ := by
  refine .head (Step.start t cmd free admitted) ?_
  have hh := Reach.advance H allowed t (H.prog t cmd) cs (put s t (some (H.prog t cmd)))
    (put_thread_self ..) ok
  simpa [put] using hh

theorem Reach.launch_crash (H : Host T Op Res α σ Choice Cmd) (allowed : T → Op → Choice → σ → Prop)
    (t : T) (cmd : Cmd) (cs : List Choice) (w : σ) (admitted : H.admits ⟨w, fun _ => none⟩ t cmd)
    (ok : (H.prog t cmd).Permits (H.exec t) (allowed t) cs w) :
    Reach H allowed ⟨w, fun _ => none⟩
      ⟨H.crash ((H.prog t cmd).advance (H.exec t) cs w).2, fun _ => none⟩ :=
  (Reach.launch H allowed t cmd cs ⟨w, fun _ => none⟩ rfl admitted ok).tail Step.crash

end Host

end Ecat
