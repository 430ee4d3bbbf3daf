import Ecat.EventsModel
import Mathlib

/-! One consumer for each event type: who owns the placeholder, which task may run, and why no
message is dispatched twice to a handler. -/

namespace Ecat.Events

/-! ### What a step does -/

def Bus.Running (s : Bus) (t : TaskId) : Prop := s.finished t = false

def Bus.claim (s : Bus) (c : CallId) : Bus :=
  { s.goto c (.subscribing s.published) with entry := some none }

inductive Step (s : Bus) : Act → Bus → Prop
  | subscribe : Step s .subscribe { s with calls := s.calls ++ [.registering] }
  | register (c) (hc : s.calls[c]? = some .registering) :
    Step s (.register c) { s.goto c .registered with handlers := s.handlers ++ [c] }
  | blocked (c) (hc : s.calls[c]? = some .registered)
    (h : s.entry = some none ∨ ∃ t, s.entry = some (some t) ∧ s.Running t) :
    Step s (.check c) (s.goto c (.returned s.published))
  | claims (c) (hc : s.calls[c]? = some .registered)
    (h : s.entry = none ∨ ∃ t, s.entry = some (some t) ∧ ¬ s.Running t) : Step s (.check c) (s.claim c)
  | mqOk (c since backlog) (hc : s.calls[c]? = some (.subscribing since))
    (hb : backlog.Nodup ∧ ∀ m ∈ backlog, since ≤ m ∧ m < s.published) :
    Step s (.mqOk c backlog) (s.goto c (.connected backlog))
  | mqErr (c since) (hc : s.calls[c]? = some (.subscribing since)) : Step s (.mqErr c) (s.goto c .failing)
  | spawn (c inbox) (hc : s.calls[c]? = some (.connected inbox)) :
    Step s (.spawn c) { s.goto c (.spawned s.tasks.length) with tasks := s.tasks ++ [⟨true, none, inbox⟩] }
  | bind (c t) (hc : s.calls[c]? = some (.spawned t)) :
    Step s (.bind c) { s.goto c (.returned s.published) with entry := some (some t) }
  | rollback (c) (hc : s.calls[c]? = some .failing) :
    Step s (.rollback c) { s.goto c (.returned s.published) with entry := none }
  | cancel (c p) (hc : s.calls[c]? = some p) (hp : p = .registering ∨ ∃ since, p = .subscribing since) :
    Step s (.cancel c) (s.goto c .cancelled)
  | publish : Step s .publish s.publish
  | receive (t m inbox) (ht : s.tasks[t]? = some ⟨true, none, m :: inbox⟩) :
    Step s (.receive t) (s.setTask t ⟨true, some m, inbox⟩)
  | receiveErr (t) : Step s (.receiveErr t) s
  | dispatch (t m inbox) (ht : s.tasks[t]? = some ⟨true, some m, inbox⟩) :
    Step s (.dispatch t) ((s.setTask t ⟨true, none, inbox⟩).spread m s.handlers)
  | endStream (t inbox) (ht : s.tasks[t]? = some ⟨true, none, inbox⟩) :
    Step s (.endStream t) (s.setTask t (Task.stopped ⟨true, none, inbox⟩))
  | panicHolding (t m inbox n) (ht : s.tasks[t]? = some ⟨true, some m, inbox⟩) :
    Step s (.panic t n) ((s.setTask t (Task.stopped ⟨true, some m, inbox⟩)).spread m (s.handlers.take n))
  | panicIdle (t inbox n) (ht : s.tasks[t]? = some ⟨true, none, inbox⟩) :
    Step s (.panic t n) (s.setTask t (Task.stopped ⟨true, none, inbox⟩))

variable {s s' : Bus} {c c' : CallId} {t t' : TaskId} {a : Act}

theorem step_check (hc : s.calls[c]? = some .registered) : Step s (.check c) (s.check c) := by
  unfold Bus.check
  cases he : s.entry with
  | none => exact .claims c hc (.inl he)
  | some handle =>
    cases handle with
    | none => exact .blocked c hc (.inl he)
    | some t =>
      by_cases hf : s.finished t = true
      · simp only [hf, if_true]
        exact .claims c hc (.inr ⟨t, he, by simp [Bus.Running, hf]⟩)
      · simp only [hf, Bool.false_eq_true, if_false]
        exact .blocked c hc (.inr ⟨t, he, by simpa [Bus.Running] using hf⟩)

theorem step_call {p : Pc} (hc : s.calls[c]? = some p) {backlog : List Message}
    (ha : a ∈ [.register c, .check c, .mqOk c backlog, .mqErr c, .spawn c, .bind c, .rollback c, .cancel c])
    (h : s.callStep c a (some p) = some s') : Step s a s' := by
  simp only [List.mem_cons, List.not_mem_nil, or_false] at ha
  rcases ha with rfl | rfl | rfl | rfl | rfl | rfl | rfl | rfl <;> cases p <;>
    simp only [Bus.callStep, reduceCtorEq, Option.some.injEq, Option.ite_none_right_eq_some] at h
  · subst h
    exact .register c hc
  · subst h
    exact step_check hc
  · obtain ⟨hb, rfl⟩ := h
    exact .mqOk c _ _ hc (by simpa [Bus.backlogOk] using hb)
  · subst h
    exact .mqErr c _ hc
  · subst h
    exact .spawn c _ hc
  · subst h
    exact .bind c _ hc
  · subst h
    exact .rollback c hc
  · subst h
    exact .cancel c _ hc (.inl rfl)
  · subst h
    exact .cancel c _ hc (.inr ⟨_, rfl⟩)

theorem step_task {task : Task} (ht : s.tasks[t]? = some task) {n : Nat}
    (ha : a ∈ [.receive t, .receiveErr t, .dispatch t, .endStream t, .panic t n])
    (h : s.taskStep t a (some task) = some s') : Step s a s' := by
  obtain ⟨running, hand, inbox⟩ := task
  simp only [List.mem_cons, List.not_mem_nil, or_false] at ha
  rcases ha with rfl | rfl | rfl | rfl | rfl <;> cases running <;> cases hand <;>
    simp only [Bus.taskStep, reduceCtorEq, Option.some.injEq] at h
  · cases inbox with
    | nil => cases h
    | cons m inbox =>
      cases h
      exact .receive t m inbox ht
  · subst h
    exact .receiveErr t
  · subst h
    exact .dispatch t _ _ ht
  · subst h
    exact .endStream t _ ht
  · subst h
    exact .panicIdle t _ n ht
  · subst h
    exact .panicHolding t _ _ n ht

theorem step_cases (h : s.step a = some s') : Step s a s' := by
  have hcall : ∀ c backlog, s.callStep c a s.calls[c]? = some s' →
      a ∈ [.register c, .check c, .mqOk c backlog, .mqErr c, .spawn c, .bind c, .rollback c, .cancel c] →
      Step s a s' := by
    intro c backlog hs ha
    cases hc : s.calls[c]? with
    | none =>
      rw [hc] at hs
      cases a <;> cases hs
    | some p =>
      rw [hc] at hs
      exact step_call hc ha hs
  have htask : ∀ t n, s.taskStep t a s.tasks[t]? = some s' →
      a ∈ [.receive t, .receiveErr t, .dispatch t, .endStream t, .panic t n] → Step s a s' := by
    intro t n hs ha
    cases ht : s.tasks[t]? with
    | none =>
      rw [ht] at hs
      cases a <;> cases hs
    | some task =>
      rw [ht] at hs
      exact step_task ht ha hs
  cases a with
  | subscribe =>
    cases h
    exact .subscribe
  | publish =>
    cases h
    exact .publish
  | mqOk c backlog => exact hcall c backlog h (by simp)
  | panic t n => exact htask t n h (by simp)
  | register c => exact hcall c [] h (by simp)
  | check c => exact hcall c [] h (by simp)
  | mqErr c => exact hcall c [] h (by simp)
  | spawn c => exact hcall c [] h (by simp)
  | bind c => exact hcall c [] h (by simp)
  | rollback c => exact hcall c [] h (by simp)
  | cancel c => exact hcall c [] h (by simp)
  | receive t => exact htask t 0 h (by simp)
  | receiveErr t => exact htask t 0 h (by simp)
  | dispatch t => exact htask t 0 h (by simp)
  | endStream t => exact htask t 0 h (by simp)

/-! ### Calls and tasks after a step -/

theorem goto_calls {p : Pc} (hc : s.calls[c]? = some p) (pc : Pc) (c' : CallId) :
    (s.goto c pc).calls[c']? = if c' = c then some pc else s.calls[c']? := by
  have hlt : c < s.calls.length := (List.getElem?_eq_some_iff.1 hc).1
  by_cases h : c' = c
  · subst h
    simp [Bus.goto, hlt]
  · simp [Bus.goto, List.getElem?_set_ne (Ne.symm h), h]

theorem setTask_tasks {task : Task} (ht : s.tasks[t]? = some task) (task' : Task) (t' : TaskId) :
    (s.setTask t task').tasks[t']? = if t' = t then some task' else s.tasks[t']? := by
  have hlt : t < s.tasks.length := (List.getElem?_eq_some_iff.1 ht).1
  by_cases h : t' = t
  · subst h
    simp [Bus.setTask, hlt]
  · simp [Bus.setTask, List.getElem?_set_ne (Ne.symm h), h]

theorem running_iff : s.Running t ↔ ∃ task, s.tasks[t]? = some task ∧ task.running = true := by
  unfold Bus.Running Bus.finished
  cases ht : s.tasks[t]? with
  | none => simp
  | some task => simp

theorem running_setTask {task task' : Task} (ht : s.tasks[t]? = some task) (hrun : task.running = true)
    (h : (s.setTask t task').Running t') : s.Running t' := by
  rw [running_iff] at h ⊢
  obtain ⟨task'', ht'', hr⟩ := h
  rw [setTask_tasks ht] at ht''
  split at ht''
  · rename_i heq
    subst heq
    exact ⟨task, ht, hrun⟩
  · exact ⟨task'', ht'', hr⟩

section Snoc

variable {α : Type} {l : List α} {i : Nat} {x y : α}

theorem getElem?_snoc (h : l[i]? = some x) (y : α) : (l ++ [y])[i]? = some x := by
  rw [List.getElem?_append_left (List.getElem?_eq_some_iff.1 h).1, h]

theorem of_getElem?_snoc (h : (l ++ [y])[i]? = some x) : l[i]? = some x ∨ x = y := by
  rw [List.getElem?_append] at h
  split at h
  · exact .inl h
  · rw [List.getElem?_singleton] at h
    split at h
    · exact .inr (Option.some.inj h).symm
    · cases h

end Snoc

theorem snoc_call {p : Pc} (h : (s.calls ++ [Pc.registering])[c]? = some p) (hp : p ≠ .registering) :
    s.calls[c]? = some p :=
  (of_getElem?_snoc h).resolve_right hp

theorem publish_call : s.publish.calls[c]? = (s.calls[c]?).map (Pc.deliver s.published) := by
  simp [Bus.publish]

theorem publish_task : s.publish.tasks[t]? = (s.tasks[t]?).map (Task.deliver s.published) := by
  simp [Bus.publish]

theorem deliver_running (m : Message) (task : Task) : (task.deliver m).running = task.running := by
  unfold Task.deliver
  split <;> rfl

theorem running_publish : s.publish.Running t ↔ s.Running t := by
  unfold Bus.Running Bus.finished
  rw [publish_task]
  cases s.tasks[t]? with
  | none => rfl
  | some task => simp [deliver_running]

/-! ### The owner of the placeholder -/

def Pc.owns : Pc → Bool
  | .subscribing _ | .connected _ | .failing | .spawned _ => true
  | .registering | .registered | .returned _ | .cancelled => false

structure Owned (s : Bus) : Prop where
  one : ∀ (c c' : CallId) (p p' : Pc), s.calls[c]? = some p → p.owns = true →
    s.calls[c']? = some p' → p'.owns = true → c = c'
  held : ∀ (c : CallId) (p : Pc), s.calls[c]? = some p → p.owns = true → s.entry = some none
  free : s.entry = none → ∀ t, ¬ s.Running t
  bound : ∀ t, s.entry = some (some t) → ∀ t', s.Running t' → t' = t
  spawned : s.entry = some none → ∀ t, s.Running t → ∃ c : CallId, s.calls[c]? = some (.spawned t)

theorem owned_remote : Owned remote := by
  constructor <;> simp [remote, Bus.Running, Bus.finished]

theorem Owned.eq_spawned {p : Pc} (h : Owned s) (ht : s.Running t) (hc : s.calls[c]? = some p)
    (hp : p.owns = true) : p = .spawned t := by
  obtain ⟨c', hc'⟩ := h.spawned (h.held c p hc hp) t ht
  have heq := h.one c c' p _ hc hp hc' rfl
  subst heq
  rw [hc] at hc'
  exact Option.some.inj hc'

theorem Owned.running_unique (h : Owned s) (ht : s.Running t) (ht' : s.Running t') : t = t' := by
  cases he : s.entry with
  | none => exact absurd ht (h.free he t)
  | some handle =>
    cases handle with
    | none =>
      obtain ⟨c, hc⟩ := h.spawned he t ht
      have heq := h.eq_spawned ht' hc rfl
      cases heq
      rfl
    | some u =>
      rw [h.bound u he t ht, h.bound u he t' ht']

theorem Owned.frame (h : Owned s) (hentry : s'.entry = s.entry) (hrun : ∀ t, s'.Running t → s.Running t)
    (howner : ∀ (c : CallId) (p' : Pc), s'.calls[c]? = some p' → p'.owns = true →
      ∃ p, s.calls[c]? = some p ∧ p.owns = true)
    (hspawned : ∀ (c : CallId) (t : TaskId), s.calls[c]? = some (.spawned t) →
      s'.calls[c]? = some (.spawned t)) : Owned s' := by
  constructor
  · intro c c' p p' hc hp hc' hp'
    obtain ⟨q, hq, hown⟩ := howner c p hc hp
    obtain ⟨q', hq', hown'⟩ := howner c' p' hc' hp'
    exact h.one c c' q q' hq hown hq' hown'
  · intro c p hc hp
    obtain ⟨q, hq, hown⟩ := howner c p hc hp
    rw [hentry]
    exact h.held c q hq hown
  · intro he t ht
    rw [hentry] at he
    exact h.free he t (hrun t ht)
  · intro t he t' ht'
    rw [hentry] at he
    exact h.bound t he t' (hrun t' ht')
  · intro he t ht
    rw [hentry] at he
    obtain ⟨c, hc⟩ := h.spawned he t (hrun t ht)
    exact ⟨c, hspawned c t hc⟩

theorem Owned.goto {p pc : Pc} (h : Owned s) (hc : s.calls[c]? = some p) (hp : ∀ t, p ≠ .spawned t)
    (hpc : pc.owns = true → p.owns = true) : Owned (s.goto c pc) := by
  refine @Owned.frame s (s.goto c pc) h rfl (fun _ ht => ht) ?_ ?_
  · intro c' p' hc' hp'
    rw [goto_calls hc] at hc'
    split at hc'
    · rename_i heq
      subst heq
      cases hc'
      exact ⟨p, hc, hpc hp'⟩
    · exact ⟨p', hc', hp'⟩
  · intro c' t hc'
    rw [goto_calls hc, if_neg]
    · exact hc'
    · rintro rfl
      rw [hc] at hc'
      exact hp t (Option.some.inj hc')

theorem Owned.setTask {task task' : Task} (h : Owned s) (ht : s.tasks[t]? = some task)
    (hrun : task.running = true) :
    Owned (s.setTask t task') :=
  h.frame rfl (fun _ hr => running_setTask ht hrun hr) (fun _ p hc hp => ⟨p, hc, hp⟩) fun _ _ hc => hc

theorem Owned.spread (h : Owned s) (m : Message) (hs : List CallId) : Owned (s.spread m hs) :=
  h.frame rfl (fun _ hr => hr) (fun _ p hc hp => ⟨p, hc, hp⟩) fun _ _ hc => hc

theorem Owned.no_owner (h : Owned s) (hentry : s.entry ≠ some none) {p : Pc} (hc : s.calls[c]? = some p) :
    p.owns = false := by
  cases hp : p.owns with
  | false => rfl
  | true => exact absurd (h.held c p hc hp) hentry

theorem Owned.goto_idle {p pc : Pc} (h : Owned s) (hc : s.calls[c]? = some p) (hp : p.owns = true)
    (hpc : pc.owns = false) {q : Pc} (hq : (s.goto c pc).calls[c']? = some q) : q.owns = false := by
  rw [goto_calls hc] at hq
  split at hq
  · cases hq
    exact hpc
  · rename_i hne
    cases hown : q.owns with
    | false => rfl
    | true => exact absurd (h.one c' c q p hq hown hc hp) hne

theorem Owned.claim (h : Owned s) (hc : s.calls[c]? = some .registered)
    (hentry : s.entry = none ∨ ∃ t, s.entry = some (some t) ∧ ¬ s.Running t) : Owned (s.claim c) := by
  have hfree : s.entry ≠ some none := by
    rcases hentry with he | ⟨t, he, _⟩ <;> rw [he] <;> simp
  have hstopped : ∀ t, ¬ s.Running t := by
    rcases hentry with he | ⟨t, he, ht⟩
    · exact h.free he
    · intro t' ht'
      rw [h.bound t he t' ht'] at ht'
      exact ht ht'
  have howner : ∀ (c' : CallId) (p : Pc), (s.claim c).calls[c']? = some p → p.owns = true → c' = c := by
    intro c' p hc' hp
    rw [Bus.claim, goto_calls hc] at hc'
    split at hc'
    · assumption
    · rw [h.no_owner hfree hc'] at hp
      cases hp
  constructor
  · intro a b p q ha hp hb hq
    rw [howner a p ha hp, howner b q hb hq]
  · intro _ _ _ _
    rfl
  · intro he
    cases he
  · intro _ he
    cases he
  · intro _ t ht
    exact absurd ht (hstopped t)

theorem running_snoc {task : Task} (h : ({ s with tasks := s.tasks ++ [task] } : Bus).Running t) :
    s.Running t ∨ t = s.tasks.length := by
  rw [running_iff] at h ⊢
  obtain ⟨task', ht, hr⟩ := h
  by_cases hlt : t < s.tasks.length
  · left
    exact ⟨task', by simpa [List.getElem?_append, hlt] using ht, hr⟩
  · right
    have hle := (List.getElem?_eq_some_iff.1 ht).1
    rw [List.length_append, List.length_singleton, Nat.lt_succ_iff] at hle
    exact le_antisymm hle (not_lt.1 hlt)

theorem Owned.spawn {inbox : List Message} (h : Owned s) (hc : s.calls[c]? = some (.connected inbox)) :
    Owned { s.goto c (.spawned s.tasks.length) with tasks := s.tasks ++ [⟨true, none, inbox⟩] } := by
  have hidle : ∀ t, ¬ s.Running t := by
    intro t ht
    cases h.eq_spawned ht hc rfl
  have hcalls : ∀ c', (s.goto c (.spawned s.tasks.length)).calls[c']? =
      if c' = c then some (.spawned s.tasks.length) else s.calls[c']? := goto_calls hc _
  constructor
  · intro a b p q ha hp hb hq
    rw [hcalls] at ha hb
    split at ha <;> split at hb
    · rw [‹a = c›, ‹b = c›]
    · rw [‹a = c›]
      exact h.one c b _ q hc rfl hb hq
    · rw [‹b = c›]
      exact h.one a c p _ ha hp hc rfl
    · exact h.one a b p q ha hp hb hq
  · intro _ _ _ _
    exact h.held c _ hc rfl
  · intro he
    cases (h.held c _ hc rfl).symm.trans he
  · intro t he
    cases (h.held c _ hc rfl).symm.trans he
  · intro _ t ht
    rcases running_snoc (s := s) ht with hrun | rfl
    · exact absurd hrun (hidle t)
    · refine ⟨c, ?_⟩
      rw [hcalls, if_pos rfl]

/-- No call owns the entry, so that it is no claim. -/
theorem owned_of_idle (hidle : ∀ (c : CallId) (p : Pc), s.calls[c]? = some p → p.owns = false)
    (hentry : s.entry ≠ some none) (hfree : s.entry = none → ∀ t, ¬ s.Running t)
    (hbound : ∀ t, s.entry = some (some t) → ∀ t', s.Running t' → t' = t) : Owned s := by
  constructor
  · intro a b p q ha hp
    rw [hidle a p ha] at hp
    cases hp
  · intro a p ha hp
    rw [hidle a p ha] at hp
    cases hp
  · exact hfree
  · exact hbound
  · exact fun he => absurd he hentry

theorem Owned.bind (h : Owned s) (hc : s.calls[c]? = some (.spawned t)) :
    Owned { s.goto c (.returned s.published) with entry := some (some t) } := by
  refine owned_of_idle (fun _ _ hq => h.goto_idle hc rfl rfl hq) (by simp) (fun he => by cases he) ?_
  intro u he t' ht'
  cases he
  have heq := h.eq_spawned (t := t') ht' hc rfl
  cases heq
  rfl

theorem Owned.rollback (h : Owned s) (hc : s.calls[c]? = some .failing) :
    Owned { s.goto c (.returned s.published) with entry := none } := by
  refine owned_of_idle (fun _ _ hq => h.goto_idle hc rfl rfl hq) (by simp) ?_ (fun _ he => by cases he)
  intro _ t ht
  cases h.eq_spawned (t := t) ht hc rfl

theorem deliver_owns (m : Message) (p : Pc) : (p.deliver m).owns = p.owns := by
  cases p <;> rfl

theorem Owned.publish (h : Owned s) : Owned s.publish := by
  refine h.frame rfl (fun t ht => running_publish.1 ht) ?_ ?_
  · intro c p' hc hp'
    rw [publish_call, Option.map_eq_some_iff] at hc
    obtain ⟨p, hc, rfl⟩ := hc
    rw [deliver_owns] at hp'
    exact ⟨p, hc, hp'⟩
  · intro c t hc
    rw [publish_call, hc]
    rfl

theorem Owned.subscribe (h : Owned s) : Owned { s with calls := s.calls ++ [.registering] } := by
  refine @Owned.frame s { s with calls := s.calls ++ [.registering] } h rfl (fun _ ht => ht) ?_ ?_
  · intro c p hc hp
    refine ⟨p, snoc_call hc ?_, hp⟩
    rintro rfl
    cases hp
  · intro c t hc
    exact getElem?_snoc hc _

theorem Owned.step (h : Owned s) (hstep : Step s a s') : Owned s' := by
  cases hstep with
  | subscribe => exact h.subscribe
  | register c hc =>
    have hgoto : Owned (s.goto c .registered) := h.goto hc (by simp) (by simp [Pc.owns])
    exact hgoto.frame rfl (fun _ ht => ht) (fun _ p hc' hp => ⟨p, hc', hp⟩) fun _ _ hc' => hc'
  | blocked c hc hb => exact h.goto hc (by simp) (by simp [Pc.owns])
  | claims c hc he => exact h.claim hc he
  | mqOk c since backlog hc hb => exact h.goto hc (by simp) (by simp [Pc.owns])
  | mqErr c since hc => exact h.goto hc (by simp) (by simp [Pc.owns])
  | spawn c inbox hc => exact h.spawn hc
  | bind c t hc => exact h.bind hc
  | rollback c hc => exact h.rollback hc
  | cancel c p hc hp =>
    refine h.goto hc ?_ (by simp [Pc.owns])
    rcases hp with rfl | ⟨since, rfl⟩ <;> simp
  | publish => exact h.publish
  | receive t m inbox ht => exact h.setTask ht rfl
  | receiveErr t => exact h
  | dispatch t m inbox ht => exact (h.setTask ht rfl).spread _ _
  | endStream t inbox ht => exact h.setTask ht rfl
  | panicHolding t m inbox n ht => exact (h.setTask ht rfl).spread _ _
  | panicIdle t inbox n ht => exact h.setTask ht rfl

end Ecat.Events
