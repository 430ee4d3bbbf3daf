import Ecat.MqModel
import Mathlib.Tactic

/-! When a subscriber of the in-memory queue sleeps on a message, and when it never does: no poll
may end on a stale future, and no poll may store its future after the message was announced. -/

namespace Ecat.Mq

variable {B : Type} {q q' : InMemoryMq B} {s s' : InMemoryStream B} {id : Nat} {w : Waker}

def InMemoryMq.Announcing (q : InMemoryMq B) (id : Nat) : Prop :=
  ∃ p ∈ q.publishing, p.sent = true ∧ p.entries.head? = some id

/-- A task that sleeps has no message queued, but for those whose publish is about to notify it,
and its waker is with a future that has not fired. -/
def InMemoryMq.Attentive (q : InMemoryMq B) : Prop :=
  ∀ id w, (q.stream id).asleep = some w →
    ((q.stream id).unread = [] ∨ q.Announcing id) ∧ (q.stream id).notified = some ⟨false, some w⟩

/-- A poll that finds its future fired still finds a message, and a poll that stores a new future
has not missed the notification of a message. -/
def InMemoryMq.InTime (q : InMemoryMq B) : Act B → Prop
  | .resume id => match (q.stream id).poll, (q.stream id).notified with
    | .empty _, none => (q.stream id).unread = [] ∨ q.Announcing id
    | .woken _, _ => (q.stream id).unread ≠ [] ∨ q.closed = true
    | _, _ => True
  | _ => True

def Poll.listening : Poll → Bool
  | .empty _ | .stored _ => true
  | .idle | .woken _ => false

structure StreamOk (s : InMemoryStream B) (announcing : Prop) : Prop where
  registered : ∀ w, s.asleep = some w → s.poll = .idle ∧ s.notified = some ⟨false, some w⟩
  hears : s.asleep ≠ none ∨ s.poll.listening = true → ∀ w, s.notified = some ⟨false, w⟩ →
    s.unread = [] ∨ announcing

/-! ### One operation on a stream -/

section
variable {ann ann' : Prop}

theorem StreamOk.mono (h : StreamOk s ann) (himp : ann → ann') : StreamOk s ann' := by
  refine ⟨h.registered, fun hs w hw => ?_⟩
  rcases h.hears hs w hw with hu | ha
  · exact .inl hu
  · exact .inr (himp ha)

theorem streamOk_fresh : StreamOk (.fresh : InMemoryStream B) ann := by
  constructor <;> simp [InMemoryStream.fresh, Poll.listening]

theorem streamOk_awake (hasleep : s.asleep = none) (hpoll : s.poll.listening = false) : StreamOk s ann := by
  constructor
  · intro w hw
    rw [hasleep] at hw
    cases hw
  · simp [hasleep, hpoll]

theorem streamOk_silent (hasleep : s.asleep = none) (hnotified : ∀ w, s.notified ≠ some ⟨false, w⟩) :
    StreamOk s ann := by
  constructor
  · intro w hw
    rw [hasleep] at hw
    cases hw
  · intro _ w hw
    exact absurd hw (hnotified w)

theorem StreamOk.send (h : StreamOk s ann) (data : B) : StreamOk (s.send data) True := by
  refine ⟨fun w hw => ?_, fun _ _ _ => .inr trivial⟩
  unfold InMemoryStream.send at hw ⊢
  split at hw
  · rw [if_pos ‹_›]
    exact h.registered w hw
  · rw [if_neg ‹_›]
    exact h.registered w hw

theorem notifyWaiters_asleep (h : StreamOk s ann) : s.notifyWaiters.asleep = none := by
  cases ha : s.asleep with
  | none =>
    unfold InMemoryStream.notifyWaiters InMemoryStream.wake
    split <;> simp [ha]
  | some w =>
    have hreg := (h.registered w ha).2
    simp [InMemoryStream.notifyWaiters, hreg, InMemoryStream.wake, ha]

theorem notifyWaiters_fired (s : InMemoryStream B) (w : Option Waker) :
    s.notifyWaiters.notified ≠ some ⟨false, w⟩ := by
  unfold InMemoryStream.notifyWaiters InMemoryStream.wake
  split
  · split <;> simp
  · simp
  · rename_i hsome hnone
    intro hs
    cases w with
    | none => exact hnone hs
    | some w => exact hsome w hs

theorem StreamOk.notifyWaiters (h : StreamOk s ann) : StreamOk s.notifyWaiters ann' :=
  streamOk_silent (notifyWaiters_asleep h) (notifyWaiters_fired s)

theorem tryRecv_frame (closed : Bool) (s : InMemoryStream B) :
    ∃ unread, (s.tryRecv closed).2 = { s with unread := unread } := by
  unfold InMemoryStream.tryRecv
  split
  · exact ⟨_, rfl⟩
  · split
    · exact ⟨_, rfl⟩
    · exact ⟨s.unread, rfl⟩

theorem tryRecv_empty {closed : Bool} (h : (s.tryRecv closed).1 = .empty) :
    s.unread = [] ∧ closed = false ∧ (s.tryRecv closed).2 = s := by
  unfold InMemoryStream.tryRecv at h ⊢
  split at h
  · cases h
  · rw [if_neg ‹_›]
    split at h
    · cases h
    · cases closed with
      | true => cases h
      | false => exact ⟨‹_›, rfl, rfl⟩

theorem streamOk_receive {closed : Bool} (hasleep : s.asleep = none)
    (hempty : s.unread = [] → closed = false → StreamOk s' ann) : StreamOk (s.receive closed s') ann := by
  obtain ⟨unread, hframe⟩ := tryRecv_frame closed s
  have hready : ∀ r, StreamOk ((s.tryRecv closed).2.ready r) ann := by
    intro r
    rw [hframe]
    exact streamOk_awake hasleep rfl
  unfold InMemoryStream.receive
  split
  · rename_i data t heq
    have hh := hready (some (.ok data))
    rwa [heq] at hh
  · rename_i n t heq
    have hh := hready (some (.error (.other (InMemoryStream.lagText n))))
    rwa [heq] at hh
  · rename_i t heq
    have hh := hready none
    rwa [heq] at hh
  · rename_i heq
    have hfst : (s.tryRecv closed).1 = .empty := by rw [heq]
    obtain ⟨hunread, hclosed, _⟩ := tryRecv_empty hfst
    exact hempty hunread hclosed

theorem streamOk_pollRecv (closed : Bool) (s : InMemoryStream B) (w : Waker) :
    StreamOk (s.pollRecv closed w) ann := by
  apply streamOk_receive rfl
  intro hunread _
  constructor
  · intro v hv
    cases hv
  · intro _ _ _
    exact .inl hunread

theorem StreamOk.asleep_none (h : StreamOk s ann) (hpoll : s.poll ≠ .idle) : s.asleep = none := by
  cases ha : s.asleep with
  | none => rfl
  | some w => exact absurd (h.registered w ha).1 hpoll

theorem StreamOk.resume {closed : Bool} (h : StreamOk s ann) (hres : s.resume closed = some s')
    (hstore : ∀ w, s.poll = .empty w → s.notified = none → s.unread = [] ∨ ann)
    (hwoken : ∀ w, s.poll = .woken w → s.unread ≠ [] ∨ closed = true) : StreamOk s' ann := by
  unfold InMemoryStream.resume at hres
  split at hres
  · cases hres
  · rename_i w hpoll hnone
    cases hres
    have hawake := h.asleep_none (by rw [hpoll]; simp)
    refine ⟨fun v hv => ?_, fun _ _ _ => hstore w hpoll hnone⟩
    rw [show s.asleep = some v from hv] at hawake
    cases hawake
  · rename_i w n hpoll hsome
    cases hres
    have hawake := h.asleep_none (by rw [hpoll]; simp)
    refine ⟨fun v hv => ?_, fun _ v hv => ?_⟩
    · rw [show s.asleep = some v from hv] at hawake
      cases hawake
    · exact h.hears (.inr (by rw [hpoll]; rfl)) v hv
  · rename_i w v hpoll hsome
    cases hres
    refine ⟨fun u hu => ?_, fun _ _ _ => ?_⟩
    · cases hu
      exact ⟨rfl, rfl⟩
    · exact h.hears (.inr (by rw [hpoll]; rfl)) v hsome
  · rename_i w v hpoll hsome
    cases hres
    exact streamOk_awake (h.asleep_none (by rw [hpoll]; simp)) rfl
  · cases hres
  · rename_i n w hpoll
    cases hres
    apply streamOk_receive (h.asleep_none (by rw [hpoll]; simp))
    intro hunread hclosed
    rcases hwoken w hpoll with hne | htrue
    · exact absurd hunread hne
    · rw [htrue] at hclosed
      cases hclosed

end

/-! ### One step of the queue -/

def InMemoryMq.Inv (q : InMemoryMq B) : Prop := ∀ id, StreamOk (q.stream id) (q.Announcing id)

theorem inv_new : (InMemoryMq.new : InMemoryMq B).Inv := fun _ => streamOk_fresh

theorem modify_stream (q : InMemoryMq B) (id id' : Nat) (f : InMemoryStream B → InMemoryStream B) :
    (q.modify id f).stream id' = if id' = id then f (q.stream id) else q.stream id' := by
  by_cases h : id' = id
  · subst h
    simp [InMemoryMq.modify]
  · simp [InMemoryMq.modify, h]

theorem InMemoryMq.Inv.modify (h : q.Inv) (f : InMemoryStream B → InMemoryStream B)
    (hf : StreamOk (f (q.stream id)) (q.Announcing id)) : (q.modify id f).Inv := by
  intro id'
  have hann : (q.modify id f).Announcing id' = q.Announcing id' := rfl
  rw [modify_stream, hann]
  split
  · rename_i heq
    subst heq
    exact hf
  · exact h id'

theorem announcing_set {p p' : Publish B} {i : Nat} (hi : q.publishing[i]? = some p)
    (hp : p.sent = true → p.entries.head? ≠ some id) (h : q.Announcing id) :
    ∃ r ∈ q.publishing.set i p', r.sent = true ∧ r.entries.head? = some id := by
  obtain ⟨r, hr, hsent, hhead⟩ := h
  refine ⟨r, ?_, hsent, hhead⟩
  obtain ⟨j, hj⟩ := List.mem_iff_getElem?.1 hr
  have hij : i ≠ j := by
    rintro rfl
    rw [hj] at hi
    cases hi
    exact hp hsent hhead
  exact List.mem_iff_getElem?.2 ⟨j, by rw [List.getElem?_set_ne hij, hj]⟩

theorem announcing_eraseIdx {p : Publish B} {i : Nat} (hi : q.publishing[i]? = some p) (hp : p.entries = [])
    (h : q.Announcing id) : ∃ r ∈ q.publishing.eraseIdx i, r.sent = true ∧ r.entries.head? = some id := by
  obtain ⟨r, hr, hsent, hhead⟩ := h
  refine ⟨r, ?_, hsent, hhead⟩
  obtain ⟨j, hj⟩ := List.mem_iff_getElem?.1 hr
  refine List.mem_eraseIdx_iff_getElem?.2 ⟨j, ?_, hj⟩
  rintro rfl
  rw [hj] at hi
  cases hi
  rw [hp] at hhead
  cases hhead

theorem InMemoryMq.Inv.advance (h : q.Inv) {i : Nat} (hstep : q.advance i = some q') : q'.Inv := by
  unfold InMemoryMq.advance at hstep
  split at hstep
  · cases hstep
  · rename_i hi
    cases hstep
    exact fun id => (h id).mono (announcing_eraseIdx hi rfl)
  · rename_i data id rest hi
    cases hstep
    intro id'
    show StreamOk ((q.modify id (·.send data)).stream id') _
    rw [modify_stream]
    have hlt : i < q.publishing.length := (List.getElem?_eq_some_iff.1 hi).1
    split
    · rename_i heq
      subst heq
      refine ((h id').send data).mono fun _ => ⟨⟨data, id' :: rest, true⟩, ?_, rfl, rfl⟩
      exact List.mem_iff_getElem?.2 ⟨i, by simp [hlt]⟩
    · exact (h id').mono (announcing_set hi (by simp))
  · rename_i data id rest hi
    cases hstep
    intro id'
    show StreamOk ((q.modify id (·.notifyWaiters)).stream id') _
    rw [modify_stream]
    split
    · rename_i heq
      subst heq
      exact (h id').notifyWaiters
    · rename_i hne
      exact (h id').mono (announcing_set hi fun _ hhead => hne (by cases hhead; rfl))

theorem InMemoryMq.Inv.step {a : Act B} (h : q.Inv) (hok : q.InTime a) (hstep : q.step a = some q') : q'.Inv := by
  cases a with
  | subscribe topic =>
    simp only [InMemoryMq.step, Option.ite_none_right_eq_some] at hstep
    obtain ⟨_, hstep⟩ := hstep
    cases hstep
    intro id
    show StreamOk (Function.update q.stream q.streams .fresh id) _
    by_cases hid : id = q.streams
    · subst hid
      rw [Function.update_self]
      exact streamOk_fresh
    · rw [Function.update_of_ne hid]
      exact h id
  | publish topic data =>
    simp only [InMemoryMq.step, Option.ite_none_left_eq_some] at hstep
    obtain ⟨_, hstep⟩ := hstep
    cases hstep
    intro id
    refine (h id).mono ?_
    rintro ⟨p, hp, hsent⟩
    exact ⟨p, List.mem_append_left _ hp, hsent⟩
  | advance i => exact h.advance hstep
  | poll id w =>
    simp only [InMemoryMq.step, Option.ite_none_right_eq_some] at hstep
    obtain ⟨_, hstep⟩ := hstep
    cases hstep
    exact h.modify _ (streamOk_pollRecv _ _ _)
  | resume id =>
    simp only [InMemoryMq.step, Option.ite_none_right_eq_some, Option.map_eq_some_iff] at hstep
    obtain ⟨_, s, hres, hstep⟩ := hstep
    cases hstep
    refine h.modify _ ((h id).resume hres ?_ ?_)
    · intro w hpoll hnone
      simpa only [InMemoryMq.InTime, hpoll, hnone] using hok
    · intro w hpoll
      simpa only [InMemoryMq.InTime, hpoll] using hok
  | dropStream id =>
    simp only [InMemoryMq.step, Option.ite_none_right_eq_some] at hstep
    obtain ⟨_, hstep⟩ := hstep
    cases hstep
    exact h.modify _ (streamOk_silent rfl (by simp))
  | dropMq =>
    simp only [InMemoryMq.step, Option.ite_none_right_eq_some] at hstep
    obtain ⟨_, hstep⟩ := hstep
    cases hstep
    exact h

theorem InMemoryMq.Inv.attentive (h : q.Inv) : q.Attentive := by
  intro id w hw
  obtain ⟨_, hreg⟩ := (h id).registered w hw
  exact ⟨(h id).hears (.inl (by rw [hw]; simp)) _ hreg, hreg⟩

/-! ### The next publish -/

def InMemoryMq.publishAlone (q : InMemoryMq B) (topic : String) (data : B) : List (Act B) :=
  .publish topic data :: List.replicate (2 * (q.senders topic).length + 1) (.advance q.publishing.length)

theorem advance_last {ps : List (Publish B)} {p : Publish B} (hq : q.publishing = ps ++ [p]) :
    q.publishing[ps.length]? = some p := by
  rw [hq, List.getElem?_concat_length]

theorem set_last {ps : List (Publish B)} {p p' : Publish B} (hq : q.publishing = ps ++ [p]) :
    q.publishing.set ps.length p' = ps ++ [p'] := by
  rw [hq, List.set_append_right _ _ le_rfl]
  simp

theorem advance_send {ps : List (Publish B)} {data : B} {e : Nat} {rest : List Nat}
    (hq : q.publishing = ps ++ [⟨data, e :: rest, false⟩]) :
    q.advance ps.length =
      some { q.modify e (·.send data) with publishing := ps ++ [⟨data, e :: rest, true⟩] } := by
  unfold InMemoryMq.advance
  rw [advance_last hq]
  simp only [set_last hq]

theorem advance_notify {ps : List (Publish B)} {data : B} {e : Nat} {rest : List Nat}
    (hq : q.publishing = ps ++ [⟨data, e :: rest, true⟩]) :
    q.advance ps.length =
      some { q.modify e (·.notifyWaiters) with publishing := ps ++ [⟨data, rest, false⟩] } := by
  unfold InMemoryMq.advance
  rw [advance_last hq]
  simp only [set_last hq]

theorem advance_return {ps : List (Publish B)} {data : B} {sent : Bool}
    (hq : q.publishing = ps ++ [⟨data, [], sent⟩]) : q.advance ps.length = some { q with publishing := ps } := by
  unfold InMemoryMq.advance
  rw [advance_last hq]
  simp only [hq, Option.some.injEq]
  rw [List.eraseIdx_append_of_length_le le_rfl]
  simp

theorem drain_wakes (entries : List Nat) (data : B) (ps : List (Publish B)) (h : q.Inv)
    (hq : q.publishing = ps ++ [⟨data, entries, false⟩]) :
    ∃ q', runFrom InMemoryMq.step q (List.replicate (2 * entries.length + 1) (.advance ps.length)) = some q' ∧
      ∀ id, id ∈ entries ∨ (q.stream id).asleep = none → (q'.stream id).asleep = none := by
  induction entries generalizing q with
  | nil =>
    refine ⟨{ q with publishing := ps }, ?_, fun id hid => ?_⟩
    · exact runFrom_cons.2 ⟨_, advance_return hq, rfl⟩
    · rcases hid with hid | hid
      · cases hid
      · exact hid
  | cons e rest ih =>
    have hsend := advance_send hq
    have hmid := h.advance hsend
    have hnotify := advance_notify (q := { q.modify e (·.send data) with
      publishing := ps ++ [⟨data, e :: rest, true⟩] }) rfl
    have hinv := hmid.advance hnotify
    obtain ⟨q', hrun, hwakes⟩ := ih hinv rfl
    refine ⟨q', ?_, fun id hid => hwakes id ?_⟩
    · rw [show 2 * (e :: rest).length + 1 = 2 * rest.length + 1 + 1 + 1 by rw [List.length_cons]; ring,
        List.replicate_succ, List.replicate_succ]
      exact runFrom_cons.2 ⟨_, hsend, runFrom_cons.2 ⟨_, hnotify, hrun⟩⟩
    · by_cases hide : id = e
      · right
        subst hide
        have hasleep := notifyWaiters_asleep (hmid id)
        simpa [modify_stream] using hasleep
      · rcases hid with hid | hid
        · exact .inl (List.mem_of_ne_of_mem hide hid)
        · right
          simpa [modify_stream, hide] using hid

theorem publishAlone_wakes (h : q.Inv) (hopen : q.closed = false) (topic : String) (data : B)
    (hid : id ∈ q.senders topic) :
    ∃ q', runFrom InMemoryMq.step q (q.publishAlone topic data) = some q' ∧ (q'.stream id).asleep = none := by
  have hpublish : q.step (.publish topic data) =
      some { q with publishing := q.publishing ++ [⟨data, q.senders topic, false⟩] } := by
    simp [InMemoryMq.step, hopen]
  have hinv := h.step (a := .publish topic data) trivial hpublish
  obtain ⟨q', hrun, hwakes⟩ := drain_wakes (q.senders topic) data q.publishing hinv rfl
  exact ⟨q', runFrom_cons.2 ⟨_, hpublish, hrun⟩, hwakes id (.inl hid)⟩

/-- In every run whose polls are in time a sleeping task has no message queued, its waker is
registered, and the next publish on its topic wakes it. -/
theorem polls_in_time_never_sleep (acts : List (Act B)) (q : InMemoryMq B)
    (hmeets : Meets InMemoryMq.step InMemoryMq.InTime InMemoryMq.new acts)
    (hrun : runFrom InMemoryMq.step InMemoryMq.new acts = some q) :
    q.Attentive ∧ ∀ id topic data, id ∈ q.senders topic → q.closed = false →
      ∃ q', runFrom InMemoryMq.step q (q.publishAlone topic data) = some q' ∧ (q'.stream id).asleep = none := by
  have hinv : q.Inv := run_invariant inv_new (fun _ _ _ h hok hstep => h.step hok hstep) hmeets hrun
  exact ⟨hinv.attentive, fun id topic data hid hopen => publishAlone_wakes hinv hopen topic data hid⟩

/-- A message is taken, and the next poll finds none and sleeps. -/
def heardOnce : List (Act Nat) :=
  [.subscribe "t", .publish "t" 1, .advance 0, .advance 0, .advance 0, .poll 0 7, .poll 0 7, .resume 0, .resume 0]

theorem polls_in_time_first_sleep : ∃ q, runFrom InMemoryMq.step InMemoryMq.new heardOnce = some q ∧
    (q.stream 0).asleep = some 7 ∧ q.Attentive ∧
    ∃ q', runFrom InMemoryMq.step q (q.publishAlone "t" 2) = some q' ∧ (q'.stream 0).asleep = none := by
  have hmeets : Meets InMemoryMq.step InMemoryMq.InTime InMemoryMq.new heardOnce :=
    ⟨trivial, trivial, trivial, trivial, trivial, trivial, trivial, .inl rfl, trivial, trivial⟩
  have hrun : runFrom InMemoryMq.step InMemoryMq.new heardOnce = some _ := rfl
  obtain ⟨hattentive, hwakes⟩ := polls_in_time_never_sleep heardOnce _ hmeets hrun
  exact ⟨_, hrun, rfl, hattentive, hwakes 0 "t" 2 (by decide) rfl⟩

def firstSleep : List (Act Nat) := [.subscribe "t", .poll 0 7, .resume 0, .resume 0]

def staleFuture : List (Act Nat) :=
  firstSleep ++ [.publish "t" 1, .advance 0, .advance 0, .advance 0, .poll 0 7] ++
    [.poll 0 7, .resume 0, .resume 0, .resume 0] ++ [.publish "t" 2, .advance 0, .advance 0, .advance 0]

theorem staleFuture_sleeps : (runFrom InMemoryMq.step InMemoryMq.new staleFuture).map
    (fun q => ((q.stream 0).asleep, (q.stream 0).unread, (q.stream 0).notified, q.publishing)) =
      some (some 7, [2], none, []) := by
  decide +kernel

theorem stale_future_sleeps_on_message :
    ¬ ∀ (acts : List (Act Nat)) (q : InMemoryMq Nat),
      runFrom InMemoryMq.step InMemoryMq.new acts = some q → q.Attentive := by
  intro h
  obtain ⟨q, hrun, hq⟩ := Option.map_eq_some_iff.1 staleFuture_sleeps
  simp only [Prod.mk.injEq] at hq
  obtain ⟨_, hnotified⟩ := h staleFuture q hrun 0 7 hq.1
  rw [hq.2.2.1] at hnotified
  cases hnotified

end Ecat.Mq
