import Ecat.EventsRestart

/-! Events published after a `subscribe` has returned reach its handler, when no call looks at the
placeholder while another one's `mq.subscribe` is still under way. -/

namespace Ecat.Events

variable {s s' : Bus} {c c' : CallId} {t t' : TaskId} {a : Act}

/-- No call is dropped at `mq.subscribe`, none of these fails, and no consumer ends. -/
def Bus.Undisturbed (s : Bus) : Act → Prop
  | .mqErr _ | .endStream _ | .panic _ _ => False
  | a => s.NotDropped a

/-- A call that finds the placeholder finds the stream behind it. -/
def Bus.StreamBehind (s : Bus) : Act → Prop
  | .check _ => s.entry = some none → ∀ (c : CallId) (since : Message), s.calls[c]? ≠ some (.subscribing since)
  | _ => True

/-- The message waits in a stream that a consumer reads or is about to read. -/
def Bus.InStream (s : Bus) (m : Message) : Prop :=
  (∃ (c : CallId) (inbox : List Message), s.calls[c]? = some (.connected inbox) ∧ m ∈ inbox) ∨
    ∃ (t : TaskId) (task : Task), s.tasks[t]? = some task ∧ task.running = true ∧
      m ∈ task.hand.toList ++ task.inbox

structure Serving (s : Bus) : Prop where
  working : ∀ c : CallId, s.calls[c]? ≠ some .failing
  bound : ∀ t, s.entry = some (some t) → s.Running t
  spawned : ∀ (c : CallId) (t : TaskId), s.calls[c]? = some (.spawned t) → s.Running t
  idle : s.entry = none → ∀ (c : CallId) (k : Message), s.calls[c]? ≠ some (.returned k)
  pending : ∀ (c : CallId) (k : Message), s.calls[c]? = some (.subscribing k) →
    ∀ (c' : CallId) (k' : Message), s.calls[c']? ≠ some (.returned k')

theorem serving_remote : Serving remote := by
  constructor <;> simp [remote]

theorem Serving.stream {k : Message} (h : Serving s) (hp : Placed s) (hc : s.calls[c]? = some (.returned k)) :
    (∃ (c' : CallId) (inbox : List Message), s.calls[c']? = some (.connected inbox)) ∨ ∃ t, s.Running t := by
  cases he : s.entry with
  | none => exact absurd hc (h.idle he c k)
  | some handle =>
    cases handle with
    | some t => exact .inr ⟨t, h.bound t he⟩
    | none =>
      obtain ⟨c', p, hc', hown⟩ := hp he
      cases p with
      | subscribing k' => exact absurd hc (h.pending c' k' hc' c k)
      | connected inbox => exact .inl ⟨c', inbox, hc'⟩
      | spawned t => exact .inr ⟨t, h.spawned c' t hc'⟩
      | failing => exact absurd hc' (h.working c')
      | _ => cases hown

/-! ### The stream is kept -/

theorem Serving.goto {p pc : Pc} (h : Serving s) (hc : s.calls[c]? = some p) (hworking : pc ≠ .failing)
    (hspawned : ∀ t, pc = .spawned t → s.Running t) (hsub : ∀ k, pc ≠ .subscribing k)
    (hreturned : ∀ k, pc = .returned k →
      s.entry ≠ none ∧ ∀ (c' : CallId) (k' : Message), c' ≠ c → s.calls[c']? ≠ some (.subscribing k')) :
    Serving (s.goto c pc) := by
  have hcalls := goto_calls hc pc
  constructor
  · intro c' hc'
    rw [hcalls] at hc'
    split at hc'
    · exact hworking (Option.some.inj hc')
    · exact h.working c' hc'
  · exact h.bound
  · intro c' t hc'
    rw [hcalls] at hc'
    split at hc'
    · exact hspawned t (Option.some.inj hc')
    · exact h.spawned c' t hc'
  · intro he c' k hc'
    rw [hcalls] at hc'
    split at hc'
    · exact (hreturned k (Option.some.inj hc')).1 he
    · exact h.idle he c' k hc'
  · intro c₁ k₁ hc₁ c₂ k₂ hc₂
    rw [hcalls] at hc₁ hc₂
    split at hc₁
    · exact hsub k₁ (Option.some.inj hc₁)
    · split at hc₂
      · exact (hreturned k₂ (Option.some.inj hc₂)).2 c₁ k₁ ‹_› hc₁
      · exact h.pending c₁ k₁ hc₁ c₂ k₂ hc₂

theorem running_setTask_of {task task' : Task} (ht : s.tasks[t]? = some task) (hrun : task'.running = true)
    (h : s.Running t') : (s.setTask t task').Running t' := by
  rw [running_iff] at h ⊢
  obtain ⟨task'', ht'', hr⟩ := h
  rw [setTask_tasks ht]
  split
  · exact ⟨task', rfl, hrun⟩
  · exact ⟨task'', ht'', hr⟩

theorem Serving.setTask {task task' : Task} (h : Serving s) (ht : s.tasks[t]? = some task)
    (hrun : task'.running = true) : Serving (s.setTask t task') :=
  ⟨h.working, fun u he => running_setTask_of ht hrun (h.bound u he),
    fun c u hc => running_setTask_of ht hrun (h.spawned c u hc), h.idle, h.pending⟩

theorem Serving.claim (h : Serving s) (hc : s.calls[c]? = some .registered)
    (hentry : s.entry = none ∨ ∃ t, s.entry = some (some t) ∧ ¬ s.Running t) : Serving (s.claim c) := by
  have he : s.entry = none := by
    rcases hentry with he | ⟨t, he, ht⟩
    · exact he
    · exact absurd (h.bound t he) ht
  have hcalls := goto_calls hc (.subscribing s.published)
  have hnone : ∀ (c' : CallId) (k : Message), (s.claim c).calls[c']? ≠ some (.returned k) := by
    intro c' k hc'
    rw [Bus.claim, hcalls] at hc'
    split at hc'
    · cases hc'
    · exact h.idle he c' k hc'
  constructor
  · intro c' hc'
    rw [Bus.claim, hcalls] at hc'
    split at hc'
    · cases hc'
    · exact h.working c' hc'
  · intro t hentry
    cases hentry
  · intro c' t hc'
    rw [Bus.claim, hcalls] at hc'
    split at hc'
    · cases hc'
    · exact h.spawned c' t hc'
  · intro hentry
    cases hentry
  · intro _ _ _
    exact hnone

theorem running_append (h : s.Running t) (task : Task) :
    ({ s with tasks := s.tasks ++ [task] } : Bus).Running t := by
  rw [running_iff] at h ⊢
  obtain ⟨task', ht, hr⟩ := h
  exact ⟨task', getElem?_snoc ht task, hr⟩

theorem Serving.spawn {inbox : List Message} (h : Serving s) (hc : s.calls[c]? = some (.connected inbox)) :
    Serving { s.goto c (.spawned s.tasks.length) with tasks := s.tasks ++ [⟨true, none, inbox⟩] } := by
  have hcalls := goto_calls hc (.spawned s.tasks.length)
  have hold : ∀ u, s.Running u → ({ s.goto c (.spawned s.tasks.length) with
      tasks := s.tasks ++ [⟨true, none, inbox⟩] } : Bus).Running u := fun u hu => running_append hu _
  have hnew : ({ s.goto c (.spawned s.tasks.length) with
      tasks := s.tasks ++ [⟨true, none, inbox⟩] } : Bus).Running s.tasks.length := by
    rw [running_iff]
    exact ⟨⟨true, none, inbox⟩, by simp, rfl⟩
  constructor
  · intro c' hc'
    rw [hcalls] at hc'
    split at hc'
    · cases hc'
    · exact h.working c' hc'
  · intro u he
    exact hold u (h.bound u he)
  · intro c' u hc'
    rw [hcalls] at hc'
    split at hc'
    · cases hc'
      exact hnew
    · exact hold u (h.spawned c' u hc')
  · intro he c' k hc'
    rw [hcalls] at hc'
    split at hc'
    · cases hc'
    · exact h.idle he c' k hc'
  · intro c₁ k₁ hc₁ c₂ k₂ hc₂
    rw [hcalls] at hc₁ hc₂
    split at hc₁
    · cases hc₁
    · split at hc₂
      · cases hc₂
      · exact h.pending c₁ k₁ hc₁ c₂ k₂ hc₂

theorem Serving.bind (h : Serving s) (ho : Owned s) (hc : s.calls[c]? = some (.spawned t)) :
    Serving { s.goto c (.returned s.published) with entry := some (some t) } := by
  have hentry : s.entry = some none := ho.held c _ hc rfl
  have hgoto : Serving (s.goto c (.returned s.published)) := by
    refine h.goto hc (by simp) (by simp) (by simp) fun k _ => ⟨by rw [hentry]; simp, ?_⟩
    intro c' k' hne hc'
    exact hne (ho.one c' c _ _ hc' rfl hc rfl)
  refine ⟨hgoto.working, ?_, hgoto.spawned, ?_, hgoto.pending⟩
  · intro u he
    cases he
    exact h.spawned c t hc
  · intro he
    cases he

theorem publish_call_of {p : Pc} (h : s.publish.calls[c]? = some p) (hp : ∀ inbox, p ≠ .connected inbox) :
    s.calls[c]? = some p := by
  rw [publish_call, Option.map_eq_some_iff] at h
  obtain ⟨q, hq, rfl⟩ := h
  cases q with
  | connected inbox => exact absurd rfl (hp _)
  | _ => exact hq

theorem Serving.publish (h : Serving s) : Serving s.publish := by
  constructor
  · intro c hc
    exact h.working c (publish_call_of hc (by simp))
  · intro t he
    exact running_publish.2 (h.bound t he)
  · intro c t hc
    exact running_publish.2 (h.spawned c t (publish_call_of hc (by simp)))
  · intro he c k hc
    exact h.idle he c k (publish_call_of hc (by simp))
  · intro c k hc c' k' hc'
    exact h.pending c k (publish_call_of hc (by simp)) c' k' (publish_call_of hc' (by simp))

theorem Serving.subscribe (h : Serving s) : Serving { s with calls := s.calls ++ [.registering] } := by
  constructor
  · intro c hc
    exact h.working c (snoc_call hc (by simp))
  · exact h.bound
  · intro c t hc
    exact h.spawned c t (snoc_call hc (by simp))
  · intro he c k hc
    exact h.idle he c k (snoc_call hc (by simp))
  · intro c k hc c' k' hc'
    exact h.pending c k (snoc_call hc (by simp)) c' k' (snoc_call hc' (by simp))

theorem Serving.step (h : Serving s) (ho : Owned s) (hok : s.Undisturbed a) (hbehind : s.StreamBehind a)
    (hstep : Step s a s') : Serving s' := by
  cases hstep with
  | subscribe => exact h.subscribe
  | register c hc =>
    have hgoto : Serving (s.goto c .registered) := h.goto hc (by simp) (by simp) (by simp) (by simp)
    exact ⟨hgoto.working, hgoto.bound, hgoto.spawned, hgoto.idle, hgoto.pending⟩
  | blocked c hc hb =>
    refine h.goto hc (by simp) (by simp) (by simp) fun k _ => ?_
    rcases hb with he | ⟨t, he, _⟩
    · exact ⟨by rw [he]; simp, fun c' k' _ => hbehind he c' k'⟩
    · refine ⟨by rw [he]; simp, fun c' k' _ hc' => ?_⟩
      have hheld := ho.held c' _ hc' rfl
      rw [he] at hheld
      cases hheld
  | claims c hc he => exact h.claim hc he
  | mqOk c since backlog hc hb => exact h.goto hc (by simp) (by simp) (by simp) (by simp)
  | mqErr c since hc => exact absurd hok (by simp [Bus.Undisturbed])
  | spawn c inbox hc => exact h.spawn hc
  | bind c t hc => exact h.bind ho hc
  | rollback c hc => exact absurd hc (h.working c)
  | cancel c p hc hp =>
    rcases hp with rfl | ⟨since, rfl⟩
    · exact h.goto hc (by simp) (by simp) (by simp) (by simp)
    · exact absurd hc (hok since)
  | publish => exact h.publish
  | receive t m inbox ht => exact h.setTask ht rfl
  | receiveErr t => exact h
  | dispatch t m inbox ht =>
    have hset : Serving (s.setTask t ⟨true, none, inbox⟩) := h.setTask ht rfl
    exact ⟨hset.working, hset.bound, hset.spawned, hset.idle, hset.pending⟩
  | endStream t inbox ht => exact absurd hok (by simp [Bus.Undisturbed])
  | panicHolding t m inbox n ht => exact absurd hok (by simp [Bus.Undisturbed])
  | panicIdle t inbox n ht => exact absurd hok (by simp [Bus.Undisturbed])

/-! ### What was published after a return -/

structure Heard (s : Bus) : Prop where
  known : ∀ (c : CallId) (p : Pc), s.calls[c]? = some p → p ≠ .registering → p ≠ .cancelled → c ∈ s.handlers
  heard : ∀ (c : CallId) (k : Message), s.calls[c]? = some (.returned k) →
    ∀ m, k ≤ m → m < s.published → (m, c) ∈ s.dispatched ∨ s.InStream m

theorem heard_remote : Heard remote := by
  constructor <;> simp [remote]

theorem Heard.goto {p pc : Pc} (h : Heard s) (hc : s.calls[c]? = some p)
    (hknown : pc ≠ .cancelled → c ∈ s.handlers)
    (hreturned : ∀ k, pc = .returned k → s.published ≤ k) (hcon : ∀ inbox, p ≠ .connected inbox) :
    Heard (s.goto c pc) := by
  have hcalls := goto_calls hc pc
  have hstream : ∀ m, s.InStream m → (s.goto c pc).InStream m := by
    rintro m (⟨c', inbox, hc', hm⟩ | htask)
    · refine .inl ⟨c', inbox, ?_, hm⟩
      rw [hcalls, if_neg]
      · exact hc'
      · rintro rfl
        rw [hc] at hc'
        exact hcon inbox (Option.some.inj hc')
    · exact .inr htask
  constructor
  · intro c' q hc' hq hq'
    rw [hcalls] at hc'
    split at hc'
    · rename_i heq
      subst heq
      cases hc'
      exact hknown hq'
    · exact h.known c' q hc' hq hq'
  · intro c' k hc' m hkm hm
    rw [hcalls] at hc'
    split at hc'
    · exact absurd (hreturned k (Option.some.inj hc')) (not_le.2 (lt_of_le_of_lt hkm hm))
    · exact (h.heard c' k hc' m hkm hm).imp_right (hstream m)

theorem Heard.spawn {inbox : List Message} (h : Heard s) (hc : s.calls[c]? = some (.connected inbox)) :
    Heard { s.goto c (.spawned s.tasks.length) with tasks := s.tasks ++ [⟨true, none, inbox⟩] } := by
  have hcalls := goto_calls hc (.spawned s.tasks.length)
  constructor
  · intro c' q hc' hq hq'
    rw [hcalls] at hc'
    split at hc'
    · rename_i heq
      subst heq
      exact h.known c' _ hc (by simp) (by simp)
    · exact h.known c' q hc' hq hq'
  · intro c' k hc' m hkm hm
    rw [hcalls] at hc'
    split at hc'
    · cases hc'
    · refine (h.heard c' k hc' m hkm hm).imp_right ?_
      rintro (⟨c₁, l, hc₁, hml⟩ | ⟨t, task, ht, hr, hmt⟩)
      · by_cases heq : c₁ = c
        · subst heq
          rw [hc] at hc₁
          cases hc₁
          exact .inr ⟨s.tasks.length, ⟨true, none, inbox⟩, by simp, rfl, hml⟩
        · exact .inl ⟨c₁, l, by rw [hcalls, if_neg heq, hc₁], hml⟩
      · exact .inr ⟨t, task, getElem?_snoc ht _, hr, hmt⟩

theorem inStream_publish {m : Message} (h : s.InStream m) : s.publish.InStream m := by
  rcases h with ⟨c, inbox, hc, hm⟩ | ⟨t, task, ht, hr, hm⟩
  · left
    refine ⟨c, inbox ++ [s.published], ?_, List.mem_append_left _ hm⟩
    rw [publish_call, hc]
    rfl
  · right
    refine ⟨t, task.deliver s.published, ?_, by rw [deliver_running, hr], ?_⟩
    · rw [publish_task, ht]
      rfl
    · rw [Task.deliver, if_pos hr]
      rcases List.mem_append.1 hm with hh | hi
      · exact List.mem_append_left _ hh
      · exact List.mem_append_right _ (List.mem_append_left _ hi)

theorem inStream_published (h : (∃ (c : CallId) (inbox : List Message), s.calls[c]? = some (.connected inbox)) ∨
    ∃ t, s.Running t) : s.publish.InStream s.published := by
  rcases h with ⟨c, inbox, hc⟩ | ⟨t, ht⟩
  · left
    refine ⟨c, inbox ++ [s.published], ?_, by simp⟩
    rw [publish_call, hc]
    rfl
  · right
    obtain ⟨task, ht, hr⟩ := running_iff.1 ht
    refine ⟨t, task.deliver s.published, ?_, by rw [deliver_running, hr], ?_⟩
    · rw [publish_task, ht]
      rfl
    · rw [Task.deliver, if_pos hr]
      simp

theorem Heard.publish (h : Heard s) (hs : Serving s) (hp : Placed s) : Heard s.publish := by
  constructor
  · intro c p hc hr hcan
    rw [publish_call, Option.map_eq_some_iff] at hc
    obtain ⟨q, hq, rfl⟩ := hc
    refine h.known c q hq ?_ ?_
    · rintro rfl
      exact hr rfl
    · rintro rfl
      exact hcan rfl
  · intro c k hc m hkm hm
    have hold := publish_call_of hc (by simp)
    rcases Nat.lt_succ_iff_lt_or_eq.1 hm with hlt | rfl
    · exact (h.heard c k hold m hkm hlt).imp_right inStream_publish
    · exact .inr (inStream_published (hs.stream hp hold))

theorem Heard.setTask {task task' : Task} (h : Heard s) (ht : s.tasks[t]? = some task)
    (hrun' : task'.running = true) (extra : List (Message × CallId))
    (hqueue : ∀ m ∈ task.hand.toList ++ task.inbox, m ∈ task'.hand.toList ++ task'.inbox ∨
      ∀ c ∈ s.handlers, (m, c) ∈ extra) :
    Heard { s.setTask t task' with dispatched := s.dispatched ++ extra } := by
  refine ⟨h.known, fun c k hc m hkm hm => ?_⟩
  have hmem : c ∈ s.handlers := h.known c _ hc (by simp) (by simp)
  rcases h.heard c k hc m hkm hm with hd | hcall | ⟨t', old, ht', hr, hm'⟩
  · exact .inl (List.mem_append_left _ hd)
  · exact .inr (.inl hcall)
  · have htasks := setTask_tasks ht task'
    by_cases heq : t' = t
    · subst heq
      rw [ht] at ht'
      cases ht'
      rcases hqueue m hm' with hq | hall
      · exact .inr (.inr ⟨t', task', by rw [htasks, if_pos rfl], hrun', hq⟩)
      · exact .inl (List.mem_append_right _ (hall c hmem))
    · exact .inr (.inr ⟨t', old, by rw [htasks, if_neg heq, ht'], hr, hm'⟩)

theorem Heard.subscribe (h : Heard s) : Heard { s with calls := s.calls ++ [.registering] } := by
  constructor
  · intro c p hc hr hcan
    exact h.known c p (snoc_call hc hr) hr hcan
  · intro c k hc m hkm hm
    refine (h.heard c k (snoc_call hc (by simp)) m hkm hm).imp_right ?_
    rintro (⟨c', inbox, hc', hmi⟩ | htask)
    · exact .inl ⟨c', inbox, getElem?_snoc hc' _, hmi⟩
    · exact .inr htask

theorem Heard.register (h : Heard s) (hc : s.calls[c]? = some .registering) :
    Heard { s.goto c .registered with handlers := s.handlers ++ [c] } := by
  have hcalls := goto_calls hc .registered
  constructor
  · intro c' p hc' hr hcan
    rw [hcalls] at hc'
    split at hc'
    · rename_i heq
      rw [heq]
      exact List.mem_append_right _ (List.mem_singleton_self c)
    · exact List.mem_append_left _ (h.known c' p hc' hr hcan)
  · intro c' k hc' m hkm hm
    rw [hcalls] at hc'
    split at hc'
    · cases hc'
    · refine (h.heard c' k hc' m hkm hm).imp_right ?_
      rintro (⟨c₁, inbox, hc₁, hmi⟩ | htask)
      · refine .inl ⟨c₁, inbox, ?_, hmi⟩
        rw [hcalls, if_neg]
        · exact hc₁
        · rintro rfl
          rw [hc] at hc₁
          cases hc₁
      · exact .inr htask

theorem Heard.step (h : Heard s) (hs : Serving s) (hp : Placed s) (hok : s.Undisturbed a) (hstep : Step s a s') :
    Heard s' := by
  cases hstep with
  | subscribe => exact h.subscribe
  | register c hc => exact h.register hc
  | blocked c hc hb =>
    refine h.goto hc (fun _ => h.known c _ hc (by simp) (by simp)) ?_ (by simp)
    rintro k ⟨⟩
    exact le_rfl
  | claims c hc he =>
    have hgoto : Heard (s.goto c (.subscribing s.published)) :=
      h.goto hc (fun _ => h.known c _ hc (by simp) (by simp)) (by simp) (by simp)
    exact ⟨hgoto.known, hgoto.heard⟩
  | mqOk c since backlog hc hb =>
    exact h.goto hc (fun _ => h.known c _ hc (by simp) (by simp)) (by simp) (by simp)
  | mqErr c since hc => exact absurd hok (by simp [Bus.Undisturbed])
  | spawn c inbox hc => exact h.spawn hc
  | bind c t hc =>
    have hgoto : Heard (s.goto c (.returned s.published)) := by
      refine h.goto hc (fun _ => h.known c _ hc (by simp) (by simp)) ?_ (by simp)
      rintro k ⟨⟩
      exact le_rfl
    exact ⟨hgoto.known, hgoto.heard⟩
  | rollback c hc => exact absurd hc (hs.working c)
  | cancel c p hc hp =>
    refine h.goto hc (fun hne => absurd rfl hne) (by simp) ?_
    rcases hp with rfl | ⟨since, rfl⟩ <;> simp
  | publish => exact h.publish hs hp
  | receive t m inbox ht =>
    have hset := @Heard.setTask s t _ ⟨true, some m, inbox⟩ h ht rfl [] fun k hk => .inl hk
    simpa [Bus.setTask] using hset
  | receiveErr t => exact h
  | dispatch t m inbox ht =>
    refine @Heard.setTask s t _ ⟨true, none, inbox⟩ h ht rfl (s.handlers.map fun k => (m, k)) ?_
    intro k hk
    rcases List.mem_cons.1 hk with rfl | hk
    · exact .inr fun c hc => List.mem_map.2 ⟨c, hc, rfl⟩
    · exact .inl hk
  | endStream t inbox ht => exact absurd hok (by simp [Bus.Undisturbed])
  | panicHolding t m inbox n ht => exact absurd hok (by simp [Bus.Undisturbed])
  | panicIdle t inbox n ht => exact absurd hok (by simp [Bus.Undisturbed])

/-! ### The consumer at work -/

def Act.consumes : Act → Bool
  | .spawn _ | .receive _ | .dispatch _ => true
  | _ => false

/-- The consumer can get, by its own steps, from `s` to a state where `messages` are dispatched to
every handler of `s`. -/
def Drains (s : Bus) (messages : List Message) : Prop :=
  ∃ acts s', runFrom Bus.step s acts = some s' ∧ (∀ a ∈ acts, a.consumes = true) ∧
    s.dispatched ⊆ s'.dispatched ∧ ∀ m ∈ messages, ∀ c ∈ s.handlers, (m, c) ∈ s'.dispatched

theorem Drains.head {s₁ : Bus} {messages : List Message} (hstep : s.step a = some s₁) (ha : a.consumes = true)
    (hhandlers : s₁.handlers = s.handlers) (hd : s.dispatched ⊆ s₁.dispatched) (h : Drains s₁ messages) :
    Drains s messages := by
  obtain ⟨acts, s', hrun, hacts, hsub, hall⟩ := h
  refine ⟨a :: acts, s', runFrom_cons.2 ⟨s₁, hstep, hrun⟩, ?_, fun d hd' => hsub (hd hd'), ?_⟩
  · exact List.forall_mem_cons.2 ⟨ha, hacts⟩
  · rw [← hhandlers]
    exact hall

theorem drains_hand {m : Message} {inbox : List Message} (ht : s.tasks[t]? = some ⟨true, some m, inbox⟩)
    (h : Drains ((s.setTask t ⟨true, none, inbox⟩).spread m s.handlers) inbox) : Drains s (m :: inbox) := by
  obtain ⟨acts, s', hrun, hacts, hsub, hall⟩ := h
  have hstep : s.step (.dispatch t) = some ((s.setTask t ⟨true, none, inbox⟩).spread m s.handlers) := by
    simp [Bus.step, ht, Bus.taskStep]
  refine ⟨.dispatch t :: acts, s', runFrom_cons.2 ⟨_, hstep, hrun⟩, ?_, ?_, ?_⟩
  · exact List.forall_mem_cons.2 ⟨rfl, hacts⟩
  · intro d hd
    exact hsub (List.mem_append_left _ hd)
  · intro k hk c hc
    rcases List.mem_cons.1 hk with rfl | hk
    · exact hsub (List.mem_append_right _ (List.mem_map.2 ⟨c, hc, rfl⟩))
    · exact hall k hk c hc

theorem drains_inbox (inbox : List Message) (ht : s.tasks[t]? = some ⟨true, none, inbox⟩) : Drains s inbox := by
  induction inbox generalizing s with
  | nil => exact ⟨[], s, rfl, by simp, fun _ hd => hd, by simp⟩
  | cons m inbox ih =>
    have hstep : s.step (.receive t) = some (s.setTask t ⟨true, some m, inbox⟩) := by
      simp [Bus.step, ht, Bus.taskStep]
    have hheld : (s.setTask t ⟨true, some m, inbox⟩).tasks[t]? = some ⟨true, some m, inbox⟩ := by
      rw [setTask_tasks ht, if_pos rfl]
    refine Drains.head hstep rfl rfl (fun _ hd => hd) (drains_hand hheld (ih ?_))
    show ((s.setTask t ⟨true, some m, inbox⟩).setTask t ⟨true, none, inbox⟩).tasks[t]? = _
    rw [setTask_tasks hheld, if_pos rfl]

theorem drains_task {task : Task} (ht : s.tasks[t]? = some task) (hr : task.running = true) :
    Drains s (task.hand.toList ++ task.inbox) := by
  obtain ⟨running, hand, inbox⟩ := task
  cases hr
  cases hand with
  | none => exact drains_inbox inbox ht
  | some m =>
    refine drains_hand ht (drains_inbox (t := t) inbox ?_)
    show (s.setTask t ⟨true, none, inbox⟩).tasks[t]? = _
    rw [setTask_tasks ht, if_pos rfl]

/-- Whatever waits in a stream is dispatched to every handler by the consumer's own steps. -/
theorem Owned.drains (ho : Owned s) : ∃ messages, (∀ m, s.InStream m → m ∈ messages) ∧ Drains s messages := by
  by_cases hrun : ∃ t, s.Running t
  · obtain ⟨t, ht⟩ := hrun
    obtain ⟨task, htask, hr⟩ := running_iff.1 ht
    refine ⟨task.hand.toList ++ task.inbox, ?_, drains_task htask hr⟩
    rintro m (⟨c, inbox, hc, hm⟩ | ⟨t', task', ht', hr', hm⟩)
    · cases ho.eq_spawned ht hc rfl
    · have heq := ho.running_unique ht (running_iff.2 ⟨task', ht', hr'⟩)
      subst heq
      rw [htask] at ht'
      cases ht'
      exact hm
  · by_cases hcon : ∃ (c : CallId) (inbox : List Message), s.calls[c]? = some (.connected inbox)
    · obtain ⟨c, inbox, hc⟩ := hcon
      refine ⟨inbox, ?_, ?_⟩
      · rintro m (⟨c', inbox', hc', hm⟩ | ⟨t, task, ht, hr, _⟩)
        · have heq := ho.one c c' _ _ hc rfl hc' rfl
          subst heq
          rw [hc] at hc'
          cases hc'
          exact hm
        · exact absurd ⟨t, running_iff.2 ⟨task, ht, hr⟩⟩ hrun
      · have hstep : s.step (.spawn c) = some { s.goto c (.spawned s.tasks.length) with
            tasks := s.tasks ++ [⟨true, none, inbox⟩] } := by
          simp [Bus.step, hc, Bus.callStep]
        refine Drains.head hstep rfl rfl (fun _ hd => hd) (drains_inbox (t := s.tasks.length) inbox ?_)
        simp
    · refine ⟨[], ?_, [], s, rfl, by simp, fun _ hd => hd, by simp⟩
      rintro m (⟨c, inbox, hc, _⟩ | ⟨t, task, ht, hr, _⟩)
      · exact absurd ⟨c, inbox, hc⟩ hcon
      · exact absurd ⟨t, running_iff.2 ⟨task, ht, hr⟩⟩ hrun

/-- In every undisturbed run in which each call that finds the placeholder finds the stream behind
it, an event published after a `subscribe` has returned is dispatched to its handler or waits in
the stream, and the consumer dispatches by its own steps whatever waits. -/
theorem subscribed_events_heard (acts : List Act) (s : Bus)
    (hmeets : Meets Bus.step (fun s a => s.Undisturbed a ∧ s.StreamBehind a) remote acts)
    (hrun : runFrom Bus.step remote acts = some s) (c : CallId) (k : Message)
    (hc : s.calls[c]? = some (.returned k)) :
    (∀ m, k ≤ m → m < s.published → (m, c) ∈ s.dispatched ∨ s.InStream m) ∧
    ∃ acts' s', runFrom Bus.step s acts' = some s' ∧ (∀ a ∈ acts', a.consumes = true) ∧
      ∀ m, k ≤ m → m < s.published → (m, c) ∈ s'.dispatched := by
  have hinv : Owned s ∧ Placed s ∧ Serving s ∧ Heard s := by
    apply run_invariant (P := fun s => Owned s ∧ Placed s ∧ Serving s ∧ Heard s) ?_ ?_ hmeets hrun
    · exact ⟨owned_remote, placed_remote, serving_remote, heard_remote⟩
    · rintro s a s' ⟨ho, hp, hs, hh⟩ ⟨hok, hbehind⟩ hstep
      have hcase := step_cases hstep
      have hnot : s.NotDropped a := by
        cases a <;> first | exact hok | trivial
      exact ⟨ho.step hcase, hp.step hnot hcase, hs.step ho hok hbehind hcase, hh.step hs hp hok hcase⟩
  obtain ⟨ho, hp, hs, hh⟩ := hinv
  have hheard := hh.heard c k hc
  obtain ⟨messages, hmem, acts', s', hrun', hacts, hsub, hall⟩ := ho.drains
  refine ⟨hheard, acts', s', hrun', hacts, fun m hkm hm => ?_⟩
  rcases hheard m hkm hm with hd | hin
  · exact hsub hd
  · exact hall m (hmem m hin) c (hh.known c _ hc (by simp) (by simp))

def sharedStream : List Act :=
  [.subscribe, .register 0, .check 0, .subscribe, .mqOk 0 [], .register 1, .check 1, .publish, .spawn 0, .bind 0]

def sharedBus : Bus := ⟨[0, 1], some (some 0), [.returned 1, .returned 0], [⟨true, none, [0]⟩], 1, []⟩

theorem sharedStream_events_heard :
    (∀ m, 0 ≤ m → m < 1 → (m, 1) ∈ sharedBus.dispatched ∨ sharedBus.InStream m) ∧
    ∃ acts' s', runFrom Bus.step sharedBus acts' = some s' ∧ (∀ a ∈ acts', a.consumes = true) ∧
      ∀ m, 0 ≤ m → m < 1 → (m, 1) ∈ s'.dispatched := by
  refine subscribed_events_heard sharedStream sharedBus ?_ rfl 1 0 rfl
  have hnone : ∀ (c : CallId) (since : Message),
      [Pc.connected [], Pc.registered][c]? ≠ some (.subscribing since) := by
    intro c since
    rcases c with _ | _ | c <;> simp
  have hfirst : ∀ s : Bus, s.entry = none → s.StreamBehind (.check 0) := by
    intro s he hsome
    rw [he] at hsome
    cases hsome
  exact ⟨⟨trivial, trivial⟩, ⟨trivial, trivial⟩, ⟨trivial, hfirst _ rfl⟩, ⟨trivial, trivial⟩, ⟨trivial, trivial⟩,
    ⟨trivial, trivial⟩, ⟨trivial, fun _ => hnone⟩, ⟨trivial, trivial⟩, ⟨trivial, trivial⟩, ⟨trivial, trivial⟩,
    trivial⟩

/-- The second call returns at once, and an event published before the first call's stream is
there is lost. -/
theorem early_return_loses_event :
    ¬ ∀ (acts : List Act) (s : Bus), Meets Bus.step Bus.Undisturbed remote acts →
      runFrom Bus.step remote acts = some s → ∀ (c : CallId) (k : Message), s.calls[c]? = some (.returned k) →
      ∀ m, k ≤ m → m < s.published → (m, c) ∈ s.dispatched ∨ s.InStream m := by
  intro h
  have hlost := h [.subscribe, .register 0, .check 0, .subscribe, .register 1, .check 1, .publish, .mqOk 0 [],
    .spawn 0, .bind 0] ⟨[0, 1], some (some 0), [.returned 1, .returned 0], [⟨true, none, []⟩], 1, []⟩
    ⟨trivial, trivial, trivial, trivial, trivial, trivial, trivial, trivial, trivial, trivial, trivial⟩ rfl 1 0 rfl
    0 le_rfl Nat.zero_lt_one
  rcases hlost with hd | ⟨c, inbox, hc, _⟩ | ⟨t, task, ht, _, hm⟩
  · cases hd
  · rcases c with _ | _ | c <;> cases hc
  · rcases t with _ | t
    · cases ht
      cases hm
    · cases ht

end Ecat.Events
