import Ecat.EventsConsumers

/-! No message is dispatched twice to a handler: what waits in a stream has not been dispatched,
and there is one stream at a time. -/

namespace Ecat.Events

variable {s s' : Bus} {c c' : CallId} {t t' : TaskId} {a : Act} {l : List Message}

/-- Messages that wait in a stream, each once and none of them dispatched. -/
structure Waiting (published : Message) (dispatched : List (Message × CallId)) (l : List Message) : Prop where
  nodup : l.Nodup
  past : ∀ m ∈ l, m < published
  fresh : ∀ m ∈ l, ∀ h, (m, h) ∉ dispatched

def Task.queue (task : Task) : List Message := task.hand.toList ++ task.inbox

structure Once (s : Bus) : Prop where
  handlers : s.handlers.Nodup
  registered : ∀ c ∈ s.handlers, ∃ p, s.calls[c]? = some p ∧ p ≠ .registering
  dispatched : s.dispatched.Nodup
  past : ∀ d ∈ s.dispatched, d.1 < s.published
  since : ∀ (c : CallId) (m : Message), s.calls[c]? = some (.subscribing m) → ∀ d ∈ s.dispatched, d.1 < m
  connected : ∀ (c : CallId) (inbox : List Message), s.calls[c]? = some (.connected inbox) →
    Waiting s.published s.dispatched inbox
  queued : ∀ (t : TaskId) (task : Task), s.tasks[t]? = some task → task.running = true →
    Waiting s.published s.dispatched task.queue

theorem once_remote : Once remote := by
  constructor <;> simp [remote]

variable {n : Message} {ds : List (Message × CallId)}

theorem Waiting.sublist {l' : List Message} (h : Waiting n ds l) (hsub : l'.Sublist l) : Waiting n ds l' :=
  ⟨hsub.nodup h.nodup, fun m hm => h.past m (hsub.subset hm), fun m hm => h.fresh m (hsub.subset hm)⟩

theorem Waiting.deliver (h : Waiting n ds l) (hpast : ∀ d ∈ ds, d.1 < n) : Waiting (n + 1) ds (l ++ [n]) := by
  have hnew : n ∉ l := fun hm => lt_irrefl _ (h.past _ hm)
  constructor
  · rw [← List.concat_eq_append]
    exact h.nodup.concat hnew
  · intro m hm
    rcases List.mem_append.1 hm with hl | hl
    · exact Nat.lt_succ_of_lt (h.past m hl)
    · rw [List.mem_singleton.1 hl]
      exact Nat.lt_succ_self _
  · intro m hm k hk
    rcases List.mem_append.1 hm with hl | hl
    · exact h.fresh m hl k hk
    · rw [List.mem_singleton.1 hl] at hk
      exact lt_irrefl _ (hpast _ hk)

/-! ### What keeps the invariant -/

theorem Once.entry (h : Once s) (e : Option (Option TaskId)) : Once { s with entry := e } :=
  ⟨h.handlers, h.registered, h.dispatched, h.past, h.since, h.connected, h.queued⟩

theorem Once.goto {p pc : Pc} (h : Once s) (hc : s.calls[c]? = some p) (hreg : pc ≠ .registering)
    (hsub : ∀ m, pc = .subscribing m → ∀ d ∈ s.dispatched, d.1 < m)
    (hcon : ∀ inbox, pc = .connected inbox → Waiting s.published s.dispatched inbox) : Once (s.goto c pc) := by
  refine ⟨h.handlers, ?_, h.dispatched, h.past, ?_, ?_, h.queued⟩
  · intro c' hc'
    rw [goto_calls hc]
    split
    · exact ⟨pc, rfl, hreg⟩
    · exact h.registered c' hc'
  · intro c' m hc'
    rw [goto_calls hc] at hc'
    split at hc'
    · exact hsub m (Option.some.inj hc')
    · exact h.since c' m hc'
  · intro c' inbox hc'
    rw [goto_calls hc] at hc'
    split at hc'
    · exact hcon inbox (Option.some.inj hc')
    · exact h.connected c' inbox hc'

theorem Once.setTask {task task' : Task} (h : Once s) (ht : s.tasks[t]? = some task)
    (hq : task'.running = true → Waiting s.published s.dispatched task'.queue) : Once (s.setTask t task') := by
  refine ⟨h.handlers, h.registered, h.dispatched, h.past, h.since, h.connected, ?_⟩
  intro t' task'' ht' hrun
  rw [setTask_tasks ht] at ht'
  split at ht'
  · cases ht'
    exact hq hrun
  · exact h.queued t' task'' ht' hrun

theorem Waiting.spread {m : Message} {hs : List CallId} (h : Waiting n ds l) (hm : m ∉ l) :
    Waiting n (ds ++ hs.map fun k => (m, k)) l := by
  refine ⟨h.nodup, h.past, fun k hk j hj => ?_⟩
  rcases List.mem_append.1 hj with hd | hd
  · exact h.fresh k hk j hd
  · obtain ⟨i, _, heq⟩ := List.mem_map.1 hd
    cases heq
    exact hm hk

theorem Once.spread {m : Message} {hs : List CallId} (h : Once s) (hsub : hs.Sublist s.handlers)
    (hm : m < s.published) (hfresh : ∀ k, (m, k) ∉ s.dispatched)
    (hsince : ∀ (c : CallId) (k : Message), s.calls[c]? ≠ some (.subscribing k))
    (hcon : ∀ (c : CallId) (inbox : List Message), s.calls[c]? ≠ some (.connected inbox))
    (hq : ∀ (t : TaskId) (task : Task), s.tasks[t]? = some task → task.running = true → m ∉ task.queue) :
    Once (s.spread m hs) := by
  refine ⟨h.handlers, h.registered, ?_, ?_, ?_, ?_, ?_⟩
  · apply List.nodup_append.2
    refine ⟨h.dispatched, (hsub.nodup h.handlers).map fun _ _ heq => (Prod.mk.inj heq).2, ?_⟩
    intro d hd e he heq
    obtain ⟨k, _, rfl⟩ := List.mem_map.1 he
    subst heq
    exact hfresh k hd
  · intro d hd
    rcases List.mem_append.1 hd with hd | hd
    · exact h.past d hd
    · obtain ⟨k, _, rfl⟩ := List.mem_map.1 hd
      exact hm
  · intro c k hc
    exact absurd hc (hsince c k)
  · intro c inbox hc
    exact absurd hc (hcon c inbox)
  · intro t task ht hrun
    exact (h.queued t task ht hrun).spread (hq t task ht hrun)

theorem Once.dispatch {m : Message} {inbox : List Message} {hs : List CallId} {task' : Task} (h : Once s)
    (ho : Owned s) (ht : s.tasks[t]? = some ⟨true, some m, inbox⟩)
    (htask : task'.running = true → task'.queue = inbox) (hsub : hs.Sublist s.handlers) :
    Once ((s.setTask t task').spread m hs) := by
  have hrun : s.Running t := running_iff.2 ⟨_, ht, rfl⟩
  have hw := h.queued t _ ht rfl
  have hmem : m ∈ Task.queue ⟨true, some m, inbox⟩ := List.mem_cons_self
  have hmi : m ∉ inbox := (List.nodup_cons.1 hw.nodup).1
  have hset : Once (s.setTask t task') := by
    refine h.setTask ht fun hr => ?_
    rw [htask hr]
    exact hw.sublist (List.sublist_cons_self m inbox)
  refine hset.spread hsub (hw.past m hmem) (hw.fresh m hmem) ?_ ?_ ?_
  · intro c k hc
    cases ho.eq_spawned hrun hc rfl
  · intro c inbox hc
    cases ho.eq_spawned hrun hc rfl
  · intro t' task ht' hr
    rw [setTask_tasks ht] at ht'
    split at ht'
    · cases ht'
      rw [htask hr]
      exact hmi
    · rename_i hne
      exact absurd (ho.running_unique (running_iff.2 ⟨task, ht', hr⟩) hrun) hne

theorem Once.publish (h : Once s) : Once s.publish := by
  constructor
  · exact h.handlers
  · intro c hc
    obtain ⟨p, hp, hne⟩ := h.registered c hc
    rw [publish_call, hp]
    refine ⟨p.deliver s.published, rfl, ?_⟩
    cases p <;> simp_all [Pc.deliver]
  · exact h.dispatched
  · intro d hd
    exact Nat.lt_succ_of_lt (h.past d hd)
  · intro c m hc
    rw [publish_call, Option.map_eq_some_iff] at hc
    obtain ⟨p, hp, heq⟩ := hc
    cases p with
    | subscribing k =>
      cases heq
      exact h.since c m hp
    | _ => cases heq
  · intro c inbox hc
    rw [publish_call, Option.map_eq_some_iff] at hc
    obtain ⟨p, hp, heq⟩ := hc
    cases p with
    | connected l =>
      cases heq
      exact (h.connected c l hp).deliver h.past
    | _ => cases heq
  · intro t task ht hrun
    rw [publish_task, Option.map_eq_some_iff] at ht
    obtain ⟨old, hold, rfl⟩ := ht
    rw [deliver_running] at hrun
    have hw := (h.queued t old hold hrun).deliver h.past
    rw [Task.deliver, if_pos hrun]
    show Waiting (s.published + 1) s.dispatched _
    simpa [Task.queue] using hw

theorem Once.subscribe (h : Once s) : Once { s with calls := s.calls ++ [.registering] } := by
  refine ⟨h.handlers, ?_, h.dispatched, h.past, ?_, ?_, h.queued⟩
  · intro c hc
    obtain ⟨p, hp, hne⟩ := h.registered c hc
    exact ⟨p, getElem?_snoc hp _, hne⟩
  · intro c m hc
    exact h.since c m (snoc_call hc (by simp))
  · intro c inbox hc
    exact h.connected c inbox (snoc_call hc (by simp))

theorem Once.register (h : Once s) (hc : s.calls[c]? = some .registering) :
    Once { s.goto c .registered with handlers := s.handlers ++ [c] } := by
  have hgoto := h.goto hc (show Pc.registered ≠ .registering by simp) (by simp) (by simp)
  have hnew : c ∉ s.handlers := by
    intro hmem
    obtain ⟨p, hp, hne⟩ := h.registered c hmem
    rw [hc] at hp
    exact hne (Option.some.inj hp).symm
  refine ⟨?_, ?_, h.dispatched, h.past, hgoto.since, hgoto.connected, hgoto.queued⟩
  · rw [← List.concat_eq_append]
    exact h.handlers.concat hnew
  · intro c' hc'
    rcases List.mem_append.1 hc' with hmem | hmem
    · exact hgoto.registered c' hmem
    · rw [List.mem_singleton.1 hmem]
      exact ⟨.registered, by rw [goto_calls hc, if_pos rfl], by simp⟩

theorem Once.spawn {inbox : List Message} (h : Once s) (hc : s.calls[c]? = some (.connected inbox)) :
    Once { s.goto c (.spawned s.tasks.length) with tasks := s.tasks ++ [⟨true, none, inbox⟩] } := by
  have hgoto := h.goto hc (show Pc.spawned s.tasks.length ≠ .registering by simp) (by simp) (by simp)
  refine ⟨h.handlers, hgoto.registered, h.dispatched, h.past, hgoto.since, hgoto.connected, ?_⟩
  intro t task ht hrun
  rcases of_getElem?_snoc ht with hold | rfl
  · exact hgoto.queued t task hold hrun
  · exact h.connected c inbox hc

theorem Once.step (h : Once s) (ho : Owned s) (hstep : Step s a s') : Once s' := by
  cases hstep with
  | subscribe => exact h.subscribe
  | register c hc => exact h.register hc
  | blocked c hc hb => exact h.goto hc (by simp) (by simp) (by simp)
  | claims c hc he =>
    refine (h.goto hc (by simp) ?_ (by simp)).entry _
    rintro m ⟨⟩
    exact h.past
  | mqOk c since backlog hc hb =>
    refine h.goto hc (by simp) (by simp) ?_
    rintro inbox ⟨⟩
    refine ⟨hb.1, fun m hm => (hb.2 m hm).2, fun m hm k hk => ?_⟩
    exact absurd (h.since c since hc _ hk) (not_lt.2 (hb.2 m hm).1)
  | mqErr c since hc => exact h.goto hc (by simp) (by simp) (by simp)
  | spawn c inbox hc => exact h.spawn hc
  | bind c t hc => exact (h.goto hc (by simp) (by simp) (by simp)).entry _
  | rollback c hc => exact (h.goto hc (by simp) (by simp) (by simp)).entry _
  | cancel c p hc hp => exact h.goto hc (by simp) (by simp) (by simp)
  | publish => exact h.publish
  | receive t m inbox ht => exact h.setTask ht fun _ => h.queued t ⟨true, none, m :: inbox⟩ ht rfl
  | receiveErr t => exact h
  | dispatch t m inbox ht => exact h.dispatch ho ht (fun _ => rfl) (List.Sublist.refl _)
  | endStream t inbox ht => exact h.setTask ht fun hr => by cases hr
  | panicHolding t m inbox n ht => exact h.dispatch ho ht (fun hr => by cases hr) (List.take_sublist _ _)
  | panicIdle t inbox n ht => exact h.setTask ht fun hr => by cases hr

/-- In every run at most one consumer task of the type runs at any moment, and no message is
dispatched twice to the same handler. -/
theorem one_consumer_per_type (acts : List Act) (s : Bus) (hrun : runFrom Bus.step remote acts = some s) :
    (∀ t t', s.Running t → s.Running t' → t = t') ∧ ∀ m h, s.dispatched.count (m, h) ≤ 1 := by
  have hinv : Owned s ∧ Once s := by
    apply reach_invariant (P := fun s => Owned s ∧ Once s) ⟨owned_remote, once_remote⟩ ?_ hrun
    intro s a s' h hstep
    have hs := step_cases hstep
    exact ⟨h.1.step hs, h.2.step h.1 hs⟩
  exact ⟨fun t t' => hinv.1.running_unique, fun m h => List.nodup_iff_count_le_one.1 hinv.2.dispatched (m, h)⟩

theorem one_consumer_first_event :
    (runFrom Bus.step remote [.subscribe, .register 0, .check 0, .mqOk 0 [], .spawn 0, .bind 0, .publish,
        .receive 0, .dispatch 0]).map Bus.dispatched = some [(0, 0)] ∧
    ∀ s, runFrom Bus.step remote [.subscribe, .register 0, .check 0, .mqOk 0 [], .spawn 0, .bind 0, .publish,
        .receive 0, .dispatch 0] = some s →
      (∀ t t', s.Running t → s.Running t' → t = t') ∧ ∀ m h, s.dispatched.count (m, h) ≤ 1 :=
  ⟨by decide, fun s => one_consumer_per_type _ s⟩

end Ecat.Events
