import Ecat.MssqlPool

/-! Callers that share the pool are served as if each had a session of its own, as long as no start of
a transaction is abandoned while the server carries it out, or every connection is probed. -/

namespace Ecat.Mssql

variable {T S : Type}

/-- Every caller on a session of its own, with what its open transaction holds. -/
structure Private (T S : Type) where
  opened : T → Option (List S)
  committed : List S

namespace Private

def init (T S : Type) : Private T S := ⟨fun _ => none, []⟩

variable [DecidableEq T] (x : Private T S)

def put (t : T) (pending : Option (List S)) : Private T S :=
  { x with opened := Function.update x.opened t pending }

def run (t : T) (s : S) : Private T S :=
  match x.opened t with
  | none => { x with committed := x.committed ++ [s] }
  | some pending => x.put t (some (pending ++ [s]))

def step : Act T S → Private T S
  | .run t s .applied => x.run t s
  | .run t _ .aborted => x.put t none
  | .begin t .applied true => x.put t (some [])
  | .commit t .applied _ => { x.put t none with committed := x.committed ++ (x.opened t).getD [] }
  | .commit t _ _ | .rollback t _ _ | .drop t => x.put t none
  | _ => x

end Private

/-- What a caller holds, and its transaction on a session of its own. -/
def Fits : Option (Held S) → Option (List S) → Prop
  | none, pending => pending = none
  | some (.call c), pending | some (.beginning c), pending =>
    c.session = .idle ∧ c.inTransaction = false ∧ pending = none
  | some (.transaction c), pending => c.inTransaction = true ∧ c.session = pending.elim .idle (.opened 0)

/-- A pooled connection is free of transactions, or will be made so when it is taken. -/
def Poolable (m : MssqlManager) (c : MssqlConnection S) : Prop :=
  m.recycleIdleThreshold = 0 ∨ c.inTransaction = true ∨ c.session = .idle

structure Inv (m : MssqlManager) (p : MssqlClient T S) (x : Private T S) : Prop where
  committed : p.committed = x.committed
  idle : ∀ c ∈ p.idle, Poolable m c
  held : ∀ t, Fits (p.held t) (x.opened t)

/-- No start of a transaction is abandoned while the server carries it out, unless every connection is
probed, and no statement is sent in a transaction that the server has ended. -/
def Allowed (m : MssqlManager) (p : MssqlClient T S) : Act T S → Prop
  | .begin _ .applied told => told = true ∨ m.recycleIdleThreshold = 0
  | .run t _ _ => ∀ c, p.held t = some (.transaction c) → c.session ≠ .idle
  | _ => True

variable {m : MssqlManager} {p p' : MssqlClient T S} {x : Private T S} {t : T} {c c' : MssqlConnection S}

theorem inv_init : Inv m (init T S) (.init T S) := ⟨rfl, fun _ hc => (nomatch hc), fun _ => rfl⟩

theorem Inv.commits (h : Inv m p x) (committed : List S) : Inv m { p with committed } { x with committed } :=
  ⟨rfl, h.idle, h.held⟩

theorem recycle_clean {now : Nat} {rollback probe : Bool} (hc : Poolable m c)
    (h : m.recycle now rollback probe c = some c') : c'.session = .idle ∧ c'.inTransaction = false := by
  have hdue : m.recycleIdleThreshold = 0 → m.probeDue now c = true := by
    intro h0
    simp [MssqlManager.probeDue, h0]
  obtain ⟨session, flag, recycled⟩ := c
  cases flag with
  | true =>
    cases rollback with
    | false => simp [MssqlManager.recycle] at h
    | true =>
      simp only [MssqlManager.recycle, if_true, Session.rollbackIfOpen_eq, Option.bind_eq_bind, Option.bind_some] at h
      split at h
      · split at h
        · cases h
          exact ⟨rfl, rfl⟩
        · cases h
      · cases h
        exact ⟨rfl, rfl⟩
  | false =>
    simp only [MssqlManager.recycle, Bool.false_eq_true, if_false, Session.rollbackIfOpen_eq, Option.bind_eq_bind,
      Option.bind_some] at h
    split at h
    · split at h
      · cases h
        exact ⟨rfl, rfl⟩
      · cases h
    · next hskip =>
      cases h
      rcases hc with h0 | hflag | hidle
      · exact absurd (hdue h0) hskip
      · cases hflag
      · exact ⟨hidle, rfl⟩

theorem Inv.held_none (h : Inv m p x) (ht : p.held t = none) : x.opened t = none := by
  have hfits := h.held t
  rwa [ht] at hfits

theorem Inv.call (h : Inv m p x) (ht : p.held t = some (.call c)) : c.session = .idle ∧ x.opened t = none := by
  have hfits := h.held t
  rw [ht] at hfits
  exact ⟨hfits.1, hfits.2.2⟩

theorem Inv.beginning (h : Inv m p x) (ht : p.held t = some (.beginning c)) :
    c.session = .idle ∧ x.opened t = none := by
  have hfits := h.held t
  rw [ht] at hfits
  exact ⟨hfits.1, hfits.2.2⟩

theorem Inv.transaction (h : Inv m p x) (ht : p.held t = some (.transaction c)) :
    c.inTransaction = true ∧ c.session = (x.opened t).elim .idle (.opened 0) := by
  have hfits := h.held t
  rwa [ht] at hfits

theorem Poolable.conn (h : Inv m p x) {held : Held S} (ht : p.held t = some held) : Poolable m held.conn := by
  cases held with
  | call c => exact .inr (.inr (h.call ht).1)
  | beginning c => exact .inr (.inr (h.beginning ht).1)
  | transaction c => exact .inr (.inl (h.transaction ht).1)

variable [DecidableEq T]

theorem Inv.hold (h : Inv m p x) {held : Held S} {pending : Option (List S)} (hfits : Fits (some held) pending) :
    Inv m (p.hold t held) (x.put t pending) := by
  refine ⟨h.committed, h.idle, fun u => ?_⟩
  by_cases he : u = t
  · subst he
    simpa [MssqlClient.hold, Private.put] using hfits
  · simpa [MssqlClient.hold, Private.put, he] using h.held u

theorem Inv.release (h : Inv m p x) (hc : Poolable m c) : Inv m (p.release t c) (x.put t none) := by
  refine ⟨h.committed, fun d hd => ?_, fun u => ?_⟩
  · rcases List.mem_append.1 hd with hd | hd
    · exact h.idle d hd
    · exact List.mem_singleton.1 hd ▸ hc
  · by_cases he : u = t
    · subst he
      simp [MssqlClient.release, Private.put, Fits]
    · simpa [MssqlClient.release, Private.put, he] using h.held u

theorem put_self {pending : Option (List S)} (h : x.opened t = pending) : x.put t pending = x := by
  rw [Private.put, ← h, Function.update_eq_self]

theorem inv_get {purpose : Purpose} {rollback probe : Bool} (h : Inv m p x)
    (hstep : p.get m t purpose rollback probe = some p') : Inv m p' x := by
  unfold MssqlClient.get at hstep
  split at hstep
  · next d idle hfree hidle =>
    have hrest : Inv m { p with idle } x :=
      ⟨h.committed, fun c hc => h.idle c (hidle ▸ List.mem_cons_of_mem _ hc), h.held⟩
    have hd : Poolable m d := h.idle d (hidle ▸ List.mem_cons_self)
    split at hstep
    · cases hstep
      exact hrest
    · next d' hrec =>
      cases hstep
      obtain ⟨hclean, hflag⟩ := recycle_clean hd hrec
      have hnone := h.held_none hfree
      have hfits : Fits (some (purpose.hold d')) none := by cases purpose <;> exact ⟨hclean, hflag, rfl⟩
      have hheld := hrest.hold (t := t) hfits
      rwa [put_self hnone] at hheld
  · cases hstep

theorem inv_call {s : S} {effect : Effect} (h : Inv m p x) (ht : p.held t = some (.call c)) :
    Inv m (MssqlClient.release { p with committed := (c.served s p.committed effect).2 } t
      (c.served s p.committed effect).1) (x.step (.run t s effect)) := by
  obtain ⟨hidle, hnone⟩ := h.call ht
  obtain ⟨session, flag, recycled⟩ := c
  obtain rfl : session = .idle := hidle
  cases effect with
  | applied =>
    have hcom := (h.commits (x.committed ++ [s])).release (t := t) (c := ⟨.idle, flag, recycled⟩) (.inr (.inr rfl))
    rw [put_self (x := { x with committed := x.committed ++ [s] }) hnone] at hcom
    simpa [MssqlConnection.served, Session.run, Private.step, Private.run, hnone, h.committed] using hcom
  | refused =>
    have hrel := h.release (t := t) (c := ⟨.idle, flag, recycled⟩) (.inr (.inr rfl))
    rwa [put_self hnone] at hrel
  | aborted => exact h.release (.inr (.inr rfl))

theorem inv_transaction {s : S} {effect : Effect} (h : Inv m p x) (ht : p.held t = some (.transaction c))
    (hlive : c.session ≠ .idle) :
    Inv m (MssqlClient.hold { p with committed := (c.served s p.committed effect).2 } t
      (.transaction (c.served s p.committed effect).1)) (x.step (.run t s effect)) := by
  obtain ⟨hflag, hsession⟩ := h.transaction ht
  cases hopen : x.opened t with
  | none => exact absurd (by rw [hsession, hopen]; rfl) hlive
  | some pending =>
    rw [hopen] at hsession
    cases effect with
    | applied =>
      have hfits : Fits (some (.transaction { c with session := .opened 0 (pending ++ [s]) }))
          (some (pending ++ [s])) := ⟨hflag, rfl⟩
      have hheld := h.hold (t := t) hfits
      simpa [MssqlConnection.served, hsession, Session.run, Private.step, Private.run, hopen] using hheld
    | refused =>
      have hfits : Fits (some (.transaction c)) (some pending) := ⟨hflag, hsession⟩
      have hheld := h.hold (t := t) hfits
      rwa [put_self hopen] at hheld
    | aborted => exact h.hold ⟨hflag, rfl⟩

theorem inv_begin {effect : Effect} {told : Bool} (h : Inv m p x) (hok : Allowed m p (.begin (S := S) t effect told))
    (hstep : p.begin t effect told = some p') : Inv m p' (x.step (.begin t effect told)) := by
  unfold MssqlClient.begin at hstep
  split at hstep
  · next d ht =>
    obtain ⟨hidle, hnone⟩ := h.beginning ht
    split at hstep
    · next htold =>
      cases hstep
      subst htold
      exact h.hold ⟨rfl, by simp [hidle, Session.begin]⟩
    · next htold =>
      cases hstep
      have hzero : m.recycleIdleThreshold = 0 := hok.resolve_left htold
      have hrel := h.release (t := t) (c := { d with session := d.session.begin }) (.inl hzero)
      rw [put_self hnone] at hrel
      simpa [Private.step, htold] using hrel
  · next d ht =>
    obtain ⟨hidle, hnone⟩ := h.beginning ht
    cases hstep
    have hrel := h.release (t := t) (c := d) (.inr (.inr hidle))
    rwa [put_self hnone] at hrel
  · next d ht =>
    obtain ⟨-, hnone⟩ := h.beginning ht
    cases hstep
    have hrel := h.release (t := t) (c := { d with session := .idle }) (.inr (.inr rfl))
    rwa [put_self hnone] at hrel
  · cases hstep

/-- The end of a transaction: its connection goes back free of it, or marked. -/
theorem inv_close {effect : Effect} {told : Bool} {result : Session S → Option (Session S × List S)}
    {g : List S → List S} (h : Inv m p x)
    (hresult : ∀ pending, result (.opened 0 pending) = some (.idle, g pending))
    (hidle : result .idle = none) (hstep : p.close t effect told result = some p') :
    Inv m p' (if effect = .applied then { x.put t none with committed := g ((x.opened t).getD []) }
      else x.put t none) := by
  unfold MssqlClient.close at hstep
  split at hstep
  · next d ht =>
    obtain ⟨hflag, hsession⟩ := h.transaction ht
    cases hopen : x.opened t with
    | none => simp [hsession, hopen, hidle] at hstep
    | some pending =>
      simp only [hsession, hopen, Option.elim_some, hresult] at hstep
      cases hstep
      exact (h.commits (g pending)).release (.inr (.inr rfl))
  · next d ht =>
    cases hstep
    exact h.release (.inr (.inl (h.transaction ht).1))
  · next d ht =>
    cases hstep
    exact h.release (.inr (.inr rfl))
  · cases hstep

theorem inv_step {a : Act T S} (h : Inv m p x) (hok : Allowed m p a) (hstep : step m p a = some p') :
    Inv m p' (x.step a) := by
  cases a with
  | tick nanos =>
    cases hstep
    exact ⟨h.committed, h.idle, h.held⟩
  | create t purpose =>
    simp only [step] at hstep
    split at hstep
    · cases hstep
    · next hfree =>
      cases hstep
      have hnone := h.held_none (Option.not_isSome_iff_eq_none.1 hfree)
      have hfits : Fits (some (purpose.hold (.new : MssqlConnection S))) none := by
        cases purpose <;> exact ⟨rfl, rfl, rfl⟩
      have hheld := h.hold (t := t) hfits
      rwa [put_self hnone] at hheld
  | get t purpose rollback probe => exact inv_get h hstep
  | run t s effect =>
    simp only [step, MssqlClient.run] at hstep
    split at hstep
    · next ht =>
      cases hstep
      exact inv_call h ht
    · next ht =>
      cases hstep
      exact inv_transaction h ht (hok _ ht)
    · cases hstep
  | begin t effect told => exact inv_begin h hok hstep
  | commit t effect told =>
    have hclose := inv_close (g := (p.committed ++ ·)) h (fun _ => rfl) rfl hstep
    cases effect with
    | applied => simpa [Private.step, h.committed] using hclose
    | refused | aborted => exact hclose
  | rollback t effect told =>
    change p.close t effect told (fun x => x.rollback.map (·, p.committed)) = some p' at hstep
    have hclose := inv_close (g := fun _ => p.committed) h (fun _ => rfl) rfl hstep
    cases effect with
    | applied =>
      have hsame : { x.put t none with committed := x.committed } = x.put t none := rfl
      simpa [Private.step, h.committed, hsame] using hclose
    | refused | aborted => exact hclose
  | drop t =>
    simp only [step, Option.map_eq_some_iff] at hstep
    obtain ⟨held, ht, rfl⟩ := hstep
    exact h.release (.conn h ht)

/-- In every run the statements are committed that would be with a session for each caller, and whoever
gets a connection gets it outside of any transaction. -/
theorem pooled_sessions_private {acts : List (Act T S)} {p : MssqlClient T S}
    (hallowed : Meets (step m) (Allowed m) (init T S) acts) (hrun : runFrom (step m) (init T S) acts = some p) :
    p.committed = (acts.foldl Private.step (.init T S)).committed ∧
      (∀ t c, p.held t = some (.call c) ∨ p.held t = some (.beginning c) → c.session.trancount = 0) ∧
      ∀ t c, p.held t = some (.transaction c) →
        c.session = ((acts.foldl Private.step (.init T S)).opened t).elim .idle (.opened 0) := by
  have hinv : Inv m p (((steps (step m) (init T S) acts).map fun e => e.2.1).foldl Private.step (.init T S)) := by
    refine meets_steps_invariant (Q := fun past p => Inv m p ((past.map fun e => e.2.1).foldl Private.step (.init T S)))
      inv_init (fun past p a p' h hok hstep => ?_) hallowed hrun
    simpa using inv_step h hok hstep
  rw [steps_acts hrun] at hinv
  refine ⟨hinv.committed, fun t c ht => ?_, fun t c ht => (hinv.transaction ht).2⟩
  rcases ht with ht | ht
  · rw [(hinv.call ht).1, Session.trancount]
  · rw [(hinv.beginning ht).1, Session.trancount]

/-- A dropped transaction, the next call on its connection, and a transaction that commits. -/
def orderRun : List (Act Bool String) :=
  [.create true .transaction, .begin true .applied true, .run true "insert 1" .applied, .drop true,
    .get false .call true true, .run false "insert 2" .applied,
    .get true .transaction true true, .begin true .applied true, .run true "insert 3" .applied,
    .commit true .applied false]

theorem pooled_sessions_private_orders :
    ∃ p, runFrom (step .default) (init Bool String) orderRun = some p ∧ p.committed = ["insert 2", "insert 3"] ∧
      p.committed = (orderRun.foldl Private.step (.init Bool String)).committed := by
  have hallowed : Meets (step .default) (Allowed .default) (init Bool String) orderRun := by
    simp [orderRun, Meets, Allowed, step, init, MssqlClient.hold, Purpose.hold, MssqlConnection.new,
      MssqlClient.begin, Session.begin, MssqlClient.run, MssqlConnection.served, Session.run, MssqlClient.release,
      Held.conn, MssqlClient.get, MssqlManager.recycle, MssqlManager.probeDue, MssqlManager.default,
      MssqlClient.close, Session.commit]
  exact ⟨_, rfl, rfl, (pooled_sessions_private hallowed rfl).1⟩

/-- No statement is sent in a transaction that the server has ended. -/
def InTransaction (p : MssqlClient T S) : Act T S → Prop
  | .run t _ _ => ∀ c, p.held t = some (.transaction c) → c.session ≠ .idle
  | _ => True

/-- Where a connection may skip the probe, a start of a transaction that is dropped after the server has
carried it out leaves a transaction open that swallows the next statement. -/
theorem private_iff_probed [Inhabited T] [Inhabited S] :
    (∀ (acts : List (Act T S)) p, Meets (step m) InTransaction (init T S) acts →
      runFrom (step m) (init T S) acts = some p →
      p.committed = (acts.foldl Private.step (.init T S)).committed) ↔ m.recycleIdleThreshold = 0 := by
  constructor
  · intro h
    by_contra hpos
    have hskip : ∀ now, m.probeDue now (⟨.opened 0 [], false, none⟩ : MssqlConnection S) = false := by
      intro now
      simpa [MssqlManager.probeDue] using hpos
    have hrun : runFrom (step m) (init T S) [.create default .transaction, .begin default .applied false,
        .get default .call true true, .run default default .applied] =
        some ⟨0, [⟨.opened 0 [default], false, some 0⟩], fun _ => none, []⟩ := by
      simp [runFrom, step, init, MssqlClient.hold, Purpose.hold, MssqlConnection.new, MssqlClient.begin, Session.begin,
        MssqlClient.release, MssqlClient.get, MssqlManager.recycle, hskip, MssqlClient.run, MssqlConnection.served,
        Session.run]
    have hmeets : Meets (step m) InTransaction (init T S) [.create default .transaction, .begin default .applied false,
        .get default .call true true, .run default default .applied] := by
      simp [Meets, InTransaction, step, init, MssqlClient.hold, Purpose.hold, MssqlConnection.new, MssqlClient.begin,
        Session.begin, MssqlClient.release, MssqlClient.get, MssqlManager.recycle, hskip, MssqlClient.run]
    have hsame := h _ _ hmeets hrun
    simp [Private.step, Private.run, Private.init] at hsame
  · intro hzero acts p hmeets hrun
    refine (pooled_sessions_private (hmeets.imp (P := fun _ => True) trivial (fun _ _ _ _ _ _ => trivial) ?_) hrun).1
    intro p a _ hok
    cases a with
    | begin t effect told =>
      cases effect with
      | applied => exact .inr hzero
      | refused | aborted => trivial
    | run t s effect => exact hok
    | _ => trivial

end Ecat.Mssql
