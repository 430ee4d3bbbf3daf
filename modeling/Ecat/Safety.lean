import Ecat.CallTree

/-! Safety of call trees under crashes and interference. A thread keeps an
invariant after every call it makes, relies on what others leave alone, and
guarantees what each of its own calls changes. A certificate collects these
obligations for a host and carries them over every run. -/

namespace Ecat

/-- What one thread assumes of its surroundings and owes to them. The
interference it tolerates may depend on the call it is about to make. -/
structure Duty (Op : Type) (Res : Op → Type) (σ Choice : Type) where
  exec : (o : Op) → Choice → σ → Res o × σ
  allowed : Op → Choice → σ → Prop
  inv : σ → Prop
  rely : Option Op → σ → σ → Prop
  guar : Op → σ → σ → Prop

namespace Duty

variable {Op : Type} {Res : Op → Type} {α β σ Choice : Type}

/-- From `s` the program keeps the duty at every call and ends in `Q`. -/
def Safe (D : Duty Op Res σ Choice) (Q : α → σ → Prop) : CallTree Op Res α → σ → Prop
  | .ret a, s => Q a s
  | .call o k, s => ∀ s', D.rely (some o) s s' → D.inv s' → ∀ c, D.allowed o c s' →
      D.guar o s' (D.exec o c s').2 ∧ D.inv (D.exec o c s').2 ∧
        D.Safe Q (k (D.exec o c s').1) (D.exec o c s').2

variable {D : Duty Op Res σ Choice} {Q Q' : α → σ → Prop}

theorem safe_mono (h : ∀ a s, Q a s → Q' a s) {p : CallTree Op Res α} {s : σ}
    (hp : D.Safe Q p s) : D.Safe Q' p s := by
  induction p generalizing s with
  | ret a => exact h a s hp
  | call o k ih =>
    intro s' hr hi c hc
    obtain ⟨hg, hi', hk⟩ := hp s' hr hi c hc
    exact ⟨hg, hi', ih _ hk⟩

theorem safe_bind {R : β → σ → Prop} {p : CallTree Op Res α} {f : α → CallTree Op Res β} {s : σ}
    (hp : D.Safe (fun a s' => D.Safe R (f a) s') p s) : D.Safe R (p.bind f) s := by
  induction p generalizing s with
  | ret a => exact hp
  | call o k ih =>
    intro s' hr hi c hc
    obtain ⟨hg, hi', hk⟩ := hp s' hr hi c hc
    exact ⟨hg, hi', ih _ hk⟩

theorem safe_seq {R : β → σ → Prop} {p : CallTree Op Res α} {f : α → CallTree Op Res β} {s : σ}
    (hp : D.Safe Q p s) (hf : ∀ a s', Q a s' → D.Safe R (f a) s') : D.Safe R (p.bind f) s :=
  safe_bind (safe_mono hf hp)

theorem safe_stable (trans : ∀ o a b c, D.rely o a b → D.rely o b c → D.rely o a c)
    (hQ : ∀ a s s', Q a s → D.rely none s s' → D.inv s' → Q a s') {p : CallTree Op Res α} {s s' : σ}
    (hp : D.Safe Q p s) (hr : D.rely p.next s s') (hi : D.inv s') : D.Safe Q p s' := by
  cases p with
  | ret a => exact hQ a s s' hp hr hi
  | call o k => exact fun t ht => hp t (trans _ _ _ _ hr ht)

theorem safe_inv {p : CallTree Op Res α} {s : σ} (hp : D.Safe Q p s) (hi : D.inv s) :
    D.Safe (fun a s' => Q a s' ∧ D.inv s') p s := by
  induction p generalizing s with
  | ret a => exact ⟨hp, hi⟩
  | call o k ih =>
    intro s' hr hi' c hc
    obtain ⟨hg, hi'', hk⟩ := hp s' hr hi' c hc
    exact ⟨hg, hi'', ih _ hk hi''⟩

/-- A program also ends in a state related to its start by any preorder that
contains its own calls and the interference it tolerates. -/
theorem safe_frame (G : σ → σ → Prop) (trans : ∀ a b c, G a b → G b c → G a c)
    (hr : ∀ o a b, D.rely o a b → G a b) (hg : ∀ o a b, D.guar o a b → G a b)
    {p : CallTree Op Res α} {s s₀ : σ} (hp : D.Safe Q p s) (h₀ : G s₀ s) :
    D.Safe (fun a s' => Q a s' ∧ G s₀ s') p s := by
  induction p generalizing s with
  | ret a => exact ⟨hp, h₀⟩
  | call o k ih =>
    intro s' hrely hi c hc
    obtain ⟨hguar, hi', hk⟩ := hp s' hrely hi c hc
    exact ⟨hguar, hi', ih _ hk (trans _ _ _ (trans _ _ _ h₀ (hr _ _ _ hrely)) (hg _ _ _ hguar))⟩

theorem safe_weaken (rely : Option Op → σ → σ → Prop) (guar : Op → σ → σ → Prop)
    (hr : ∀ o a b, rely o a b → D.rely o a b) (hg : ∀ o a b, D.guar o a b → guar o a b)
    {p : CallTree Op Res α} {s : σ} (hp : D.Safe Q p s) :
    Safe { D with rely, guar } Q p s := by
  induction p generalizing s with
  | ret a => exact hp
  | call o k ih =>
    intro s' hrely hi c hc
    obtain ⟨hguar, hi', hk⟩ := hp s' (hr _ _ _ hrely) hi c hc
    exact ⟨hg _ _ _ hguar, hi', ih _ hk⟩

def Triple (D : Duty Op Res σ Choice) (P : σ → Prop) (p : CallTree Op Res α) (Q : α → σ → Prop) : Prop :=
  ∀ s, D.inv s → P s → D.Safe Q p s

variable {P P' : σ → Prop}

theorem triple_ret {a : α} (h : ∀ s, D.inv s → P s → Q a s) : D.Triple P (.ret a) Q := h

theorem Triple.weaken {p : CallTree Op Res α} (h : D.Triple P p Q)
    (hP : ∀ s, D.inv s → P' s → P s) : D.Triple P' p Q :=
  fun s hi hs => h s hi (hP s hi hs)

theorem Triple.post {p : CallTree Op Res α} (h : D.Triple P p Q)
    (hQ : ∀ a s, Q a s → Q' a s) : D.Triple P p Q' :=
  fun s hi hs => safe_mono hQ (h s hi hs)

theorem triple_bind {R : β → σ → Prop} {p : CallTree Op Res α} {f : α → CallTree Op Res β}
    (hp : D.Triple P p Q) (hf : ∀ a, D.Triple (Q a) (f a) R) : D.Triple P (p.bind f) R :=
  fun s hi hs => safe_seq (safe_inv (hp s hi hs) hi) fun a s' h => hf a s' h.2 h.1

theorem triple_call {o : Op} {k : Res o → CallTree Op Res α} (R : Res o → σ → Prop)
    (stable : ∀ s s', P s → D.rely (some o) s s' → D.inv s' → P s')
    (step : ∀ s c, D.inv s → P s → D.allowed o c s →
      D.guar o s (D.exec o c s).2 ∧ D.inv (D.exec o c s).2 ∧ R (D.exec o c s).1 (D.exec o c s).2)
    (hk : ∀ r, D.Triple (R r) (k r) Q) : D.Triple P ((CallTree.perform o).bind k) Q := by
  intro s _ hP s' hr hi' c hc
  obtain ⟨hg, hinv, hR⟩ := step s' c hi' (stable s s' hP hr hi') hc
  exact ⟨hg, hinv, hk _ _ hinv hR⟩

end Duty

namespace Host

variable {T Op : Type} {Res : Op → Type} {α σ Choice Cmd : Type}

/-- Proof obligations that make a host safe: every admitted program is safe,
threads that may live together do not break each other's reliance, and
crashes and outside changes keep the invariant. -/
structure Certificate (H : Host T Op Res α σ Choice Cmd) (allowed : T → Op → Choice → σ → Prop) where
  inv : σ → Prop
  rely : T → Option Op → σ → σ → Prop
  guar : T → Op → σ → σ → Prop
  post : T → α → σ → Prop
  compat : T → T → Prop
  rely_refl : ∀ t o s, rely t o s s
  rely_trans : ∀ t o a b c, rely t o a b → rely t o b c → rely t o a c
  post_stable : ∀ t a s s', post t a s → rely t none s s' → inv s' → post t a s'
  start : ∀ s t c, inv s.world → H.admits s t c →
    Duty.Safe ⟨H.exec t, allowed t, inv, rely t, guar t⟩ (post t) (H.prog t c) s.world
  apart : ∀ s t u c p, H.admits s t c → t ≠ u → s.thread u = some p → compat t u ∧ compat u t
  peer : ∀ t u o s s', compat t u → t ≠ u → inv s → inv s' → guar t o s s' → ∀ o', rely u o' s s'
  crash : ∀ s, inv s → inv (H.crash s)
  env : ∀ next s s', H.env next s s' → inv s → inv s' ∧ ∀ t, rely t (next t) s s'

namespace Certificate

variable {H : Host T Op Res α σ Choice Cmd} {allowed : T → Op → Choice → σ → Prop}

def duty (C : H.Certificate allowed) (t : T) : Duty Op Res σ Choice :=
  ⟨H.exec t, allowed t, C.inv, C.rely t, C.guar t⟩

structure Good (C : H.Certificate allowed) (s : Sys T Op Res α σ) : Prop where
  inv : C.inv s.world
  safe : ∀ t p, s.thread t = some p → (C.duty t).Safe (C.post t) p s.world
  compat : ∀ t u p q, s.thread t = some p → s.thread u = some q → t ≠ u → C.compat t u

variable (C : H.Certificate allowed)

theorem safe_of_rely {t : T} {p : CallTree Op Res α} {w w' : σ} (hp : (C.duty t).Safe (C.post t) p w)
    (hr : C.rely t p.next w w') (hi : C.inv w') : (C.duty t).Safe (C.post t) p w' :=
  Duty.safe_stable (C.rely_trans t) (C.post_stable t) hp hr hi

theorem Good.call {C : H.Certificate allowed} {s : Sys T Op Res α σ} (hs : C.Good s) {t : T} {o : Op}
    {k : Res o → CallTree Op Res α} (ht : s.thread t = some (.call o k)) {c : Choice}
    (ok : allowed t o c s.world) :
    C.guar t o s.world (H.exec t o c s.world).2 ∧ C.inv (H.exec t o c s.world).2 ∧
      (C.duty t).Safe (C.post t) (k (H.exec t o c s.world).1) (H.exec t o c s.world).2 :=
  hs.safe t _ ht s.world (C.rely_refl ..) hs.inv c ok

theorem good_env {s : Sys T Op Res α σ} {w : σ} (hs : C.Good s)
    (ok : H.env (fun t => (s.thread t).bind CallTree.next) s.world w) : C.Good { s with world := w } := by
  obtain ⟨hi, hr⟩ := C.env _ _ _ ok hs.inv
  refine ⟨hi, ?_, hs.compat⟩
  intro t p ht
  have hn : (s.thread t).bind CallTree.next = p.next := by
    have ht' : s.thread t = some p := ht
    simp [ht']
  exact C.safe_of_rely (hs.safe t p ht) (hn ▸ hr t) hi

theorem good_init {w : σ} (h : C.inv w) : C.Good ⟨w, fun _ => none⟩ :=
  ⟨h, fun _ _ h => (nomatch h), fun _ _ _ _ h => (nomatch h)⟩

variable [DecidableEq T]

theorem good_start {s : Sys T Op Res α σ} {t : T} {c : Cmd} (hs : C.Good s) (ok : H.admits s t c) :
    C.Good (put s t (some (H.prog t c))) := by
  refine ⟨hs.inv, ?_, ?_⟩
  · intro u p hu
    by_cases he : u = t
    · subst he
      rw [put_thread_self] at hu
      cases hu
      exact C.start s u c hs.inv ok
    · exact hs.safe u p (by simpa [put, he] using hu)
  · intro u v p q hu hv hne
    by_cases hut : u = t
    · subst hut
      exact (C.apart s u v c q ok hne (by simpa [put, hne.symm] using hv)).1
    · by_cases hvt : v = t
      · subst hvt
        exact (C.apart s v u c p ok hne.symm (by simpa [put, hut] using hu)).2
      · exact hs.compat u v p q (by simpa [put, hut] using hu) (by simpa [put, hvt] using hv) hne

theorem good_stop {s : Sys T Op Res α σ} {t : T} (hs : C.Good s) : C.Good (put s t none) := by
  have live : ∀ u p, (put s t none).thread u = some p → s.thread u = some p := by
    intro u p hu
    by_cases he : u = t
    · subst he
      rw [put_thread_self] at hu
      cases hu
    · simpa [put, he] using hu
  exact ⟨hs.inv, fun u p hu => hs.safe u p (live u p hu),
    fun u v p q hu hv => hs.compat u v p q (live u p hu) (live v q hv)⟩

theorem good_call {s : Sys T Op Res α σ} (hs : C.Good s) {t : T} {o : Op}
    {k : Res o → CallTree Op Res α} (ht : s.thread t = some (.call o k)) {c : Choice}
    (ok : allowed t o c s.world) :
    C.Good (put { s with world := (H.exec t o c s.world).2 } t (some (k (H.exec t o c s.world).1))) := by
  obtain ⟨hg, hi, hk⟩ := hs.call ht ok
  refine ⟨hi, ?_, ?_⟩
  · intro u p hu
    by_cases he : u = t
    · subst he
      rw [put_thread_self] at hu
      cases hu
      exact hk
    · have hu' : s.thread u = some p := by simpa [put, he] using hu
      have hc := hs.compat t u _ p ht hu' (Ne.symm he)
      exact C.safe_of_rely (hs.safe u p hu') (C.peer t u o _ _ hc (Ne.symm he) hs.inv hi hg _) hi
  · have live : ∀ u p, (put { s with world := (H.exec t o c s.world).2 } t
        (some (k (H.exec t o c s.world).1))).thread u = some p → ∃ q, s.thread u = some q := by
      intro u p hu
      by_cases he : u = t
      · exact ⟨_, he ▸ ht⟩
      · exact ⟨p, by simpa [put, he] using hu⟩
    intro u v p q hu hv hne
    obtain ⟨p', hp⟩ := live u p hu
    obtain ⟨q', hq⟩ := live v q hv
    exact hs.compat u v p' q' hp hq hne

theorem good_step {s s' : Sys T Op Res α σ} (hs : C.Good s) (h : H.Step allowed s s') : C.Good s' := by
  cases h with
  | start t c _ ok => exact C.good_start hs ok
  | call c ht ok => exact C.good_call hs ht ok
  | stop t => exact C.good_stop hs
  | crash => exact ⟨C.crash _ hs.inv, fun _ _ h => (nomatch h), fun _ _ _ _ h => (nomatch h)⟩
  | env w ok => exact C.good_env hs ok

/-- A certified host is good in every state of every run. -/
theorem good_of_reach {w : σ} {s : Sys T Op Res α σ} (h0 : C.inv w)
    (h : H.Reach allowed ⟨w, fun _ => none⟩ s) : C.Good s := by
  induction h with
  | refl => exact C.good_init h0
  | tail _ hs ih => exact C.good_step ih hs

end Certificate

end Host

end Ecat
