import Ecat.Typestate
import Ecat.TwoPhaseAtomicity
import Mathlib.Data.List.Nodup

/-! The order in which the coordinator's programs call the participants: a transaction is started once at each,
is ended before it is rolled back, and is committed only where the log says so. -/

namespace Ecat.TwoPhase

/-- The transactions a thread acts on. -/
def Thread.Acts : Thread → Xid → Prop
  | .tx x, y => y = x
  | .recovery, _ => True

theorem acts_self (x : Xid) : (Thread.tx x).Acts x := rfl

theorem acts_recovery (x : Xid) : Thread.recovery.Acts x := trivial

structure Phase where
  started : List Name
  ended : List (Name × Xid)
  prepared : List Name
  decided : List Xid

def Phase.start : Phase := ⟨[], [], [], []⟩

/-- What a thread may call next. -/
def Phase.may (t : Thread) (q : Phase) : Op → Prop
  | .insertLog row => t = .tx row.id ∧ row.id ∉ q.decided
  | .setLog y status _ => t.Acts y ∧ (y ∈ q.decided → status = .committed)
  | .xa .start p y => t = .tx y ∧ p ∉ q.started ∧ q.ended = [] ∧ q.prepared = []
  | .xa .fin _ y => t.Acts y
  | .xa .prepare p y => t = .tx y ∧ p ∉ q.prepared
  | .xa .commit _ y => t.Acts y ∧ y ∈ q.decided
  | .xa (.rollback _) p y => t.Acts y ∧ (p, y) ∈ q.ended
  | .execute _ y => t = .tx y ∧ q.prepared = []
  | _ => True

def decidedRows (rows : List LogRow) : List Xid := (rows.filter shouldCommit).map (·.id)

def Phase.next (q : Phase) : (o : Op) → Res o → Phase
  | .xa .start p _, _ => { q with started := p :: q.started }
  | .xa .fin p y, _ => { q with ended := (p, y) :: q.ended }
  | .xa .prepare p _, _ => { q with prepared := p :: q.prepared }
  | .setLog y .committing _, .ok _ => { q with decided := y :: q.decided }
  | .recoverableLogs, .ok rows => { q with decided := decidedRows rows }
  | _, _ => q

/-- No id comes twice in an answer about the log. -/
def LogGiven : (o : Op) → Res o → Prop
  | .recoverableLogs, .ok rows => (rows.map (·.id)).Nodup
  | _, _ => True

/-- Once a transaction prepares, and in recovery, nobody looks at the answer of XA END. -/
def Phase.blind (t : Thread) (q : Phase) : Op → Prop
  | .xa .fin _ _ => t = .recovery ∨ q.prepared ≠ []
  | _ => False

def typestate (t : Thread) : Typestate Op Res := ⟨Phase, Phase.may t, Phase.blind t, LogGiven, Phase.next⟩

/-- All that matters after the START calls. -/
def Phase.Same (q q' : Phase) : Prop := q'.prepared = q.prepared ∧ q'.decided = q.decided

theorem Phase.Same.refl (q : Phase) : q.Same q := ⟨rfl, rfl⟩

theorem Phase.Same.trans {q q' q'' : Phase} (h : q.Same q') (h' : q'.Same q'') : q.Same q'' :=
  ⟨h'.1.trans h.1, h'.2.trans h.2⟩

variable {t : Thread} {x : Xid} {α : Type} {q : Phase}

/-- A call that the program may always make, whose answer changes nothing. -/
theorem keeps_quiet {o : Op} {k : Res o → Proc α} {Q : α → Phase → Prop} (hmay : q.may t o) (hblind : ¬ q.blind t o)
    (hnext : ∀ r, q.next o r = q) (hk : ∀ r, LogGiven o r → (typestate t).Keeps Q (k r) q) :
    (typestate t).Keeps Q ((perform o).bind k) q := by
  refine Typestate.keeps_perform hmay (fun hb => absurd hb hblind) fun r hr => ?_
  change (typestate t).Keeps Q (k r) (q.next o r)
  rw [hnext]
  exact hk r hr

theorem keeps_alreadyResolved (p : Name) :
    (typestate t).Keeps (fun _ q' => q' = q) (alreadyResolved p x) q := by
  refine keeps_quiet trivial id (fun _ => rfl) ?_
  rintro (e | inDoubt) -
  · exact rfl
  · exact rfl

theorem keeps_crossCheck (p : Name) (crossCheck : Bool) :
    (typestate t).Keeps (fun _ q' => q' = q) (if crossCheck then alreadyResolved p x else return false) q := by
  cases crossCheck with
  | false => exact rfl
  | true => exact keeps_alreadyResolved p

theorem keeps_rollbackEach (hacts : t.Acts x) (crossCheck : Bool) (ps : List Name) (q : Phase) :
    (typestate t).Keeps (fun _ q' => q.Same q') (rollbackEach crossCheck x ps) q := by
  induction ps generalizing q with
  | nil => exact .refl q
  | cons p ps ih =>
    refine (keeps_crossCheck p crossCheck).bind ?_
    rintro (_ | _) _ rfl
    · refine Typestate.keeps_perform hacts (fun _ _ _ => rfl) fun _ _ => ?_
      refine keeps_quiet ⟨hacts, List.mem_cons_self⟩ id (fun _ => rfl) ?_
      rintro (e | u) -
      · exact ⟨rfl, rfl⟩
      · exact (ih _).mono fun _ _ h => h
    · exact ih _

theorem keeps_commitEach (hacts : t.Acts x) (hx : x ∈ q.decided) (crossCheck : Bool) (ps : List Name) :
    (typestate t).Keeps (fun _ q' => q' = q) (commitEach crossCheck x ps) q := by
  induction ps with
  | nil => exact rfl
  | cons p ps ih =>
    refine (keeps_crossCheck p crossCheck).bind ?_
    rintro (_ | _) _ rfl
    · refine keeps_quiet ⟨hacts, hx⟩ id (fun _ => rfl) ?_
      rintro (e | u) -
      · exact rfl
      · exact ih
    · exact ih

theorem keeps_xaEach_fin (hq : q.prepared = []) (ps : List Name) :
    (typestate (.tx x)).Keeps (fun _ q' => q.Same q') (xaEach .fin x ps) q := by
  induction ps generalizing q with
  | nil => exact .refl q
  | cons p ps ih =>
    refine Typestate.keeps_perform rfl (fun hb => ?_) ?_
    · rcases hb with hb | hb
      · cases hb
      · exact absurd hq hb
    · rintro (e | u) -
      · exact ⟨rfl, rfl⟩
      · exact (ih (q := { q with ended := (p, x) :: q.ended }) hq).mono fun _ _ h => h

theorem keeps_xaEach_prepare {ps : List Name} (hps : ps.Nodup) {q : Phase} (hfresh : ∀ p ∈ ps, p ∉ q.prepared) :
    (typestate (.tx x)).Keeps (fun _ q' => q'.decided = q.decided) (xaEach .prepare x ps) q := by
  induction ps generalizing q with
  | nil => exact rfl
  | cons p ps ih =>
    obtain ⟨hp, hps'⟩ := List.nodup_cons.1 hps
    refine Typestate.keeps_perform ⟨rfl, hfresh p List.mem_cons_self⟩ (fun hb => hb.elim) ?_
    rintro (e | u) -
    · exact rfl
    · refine (ih hps' (q := { q with prepared := p :: q.prepared }) fun r hr hmem => ?_).mono fun _ _ h => h
      rcases List.mem_cons.1 hmem with rfl | hmem
      · exact hp hr
      · exact hfresh r (List.mem_cons_of_mem p hr) hmem

theorem next_setLog {y : Xid} {status : Status} {decision : Option Decision} (h : status ≠ .committing)
    (r : Res (.setLog y status decision)) : q.next (.setLog y status decision) r = q := by
  cases status with
  | committing => exact absurd rfl h
  | _ => cases r <;> rfl

theorem keeps_setLog {status : Status} {decision : Option Decision} {k : Res (.setLog x status decision) → Proc α}
    {Q : α → Phase → Prop} (hacts : t.Acts x) (hdecided : x ∈ q.decided → status = .committed)
    (hstatus : status ≠ .committing) (hk : ∀ r, (typestate t).Keeps Q (k r) q) :
    (typestate t).Keeps Q ((perform (.setLog x status decision)).bind k) q :=
  keeps_quiet ⟨hacts, hdecided⟩ id (next_setLog hstatus) fun r _ => hk r

theorem not_decided (h : q.decided = []) {status : Status} (hx : x ∈ q.decided) : status = .committed := by
  rw [h] at hx
  cases hx

theorem checkNames_ok {registered : List Name} : ∀ {seen ps : List Name}, checkNames registered seen ps = .ok () →
    ps.Nodup ∧ ∀ p ∈ ps, p ∉ seen := by
  intro seen ps
  induction ps generalizing seen with
  | nil => exact fun _ => ⟨List.nodup_nil, fun p hp => by cases hp⟩
  | cons p ps ih =>
    intro h
    unfold checkNames at h
    split at h
    · cases h
    · next hseen =>
      split at h
      · cases h
      · obtain ⟨hnodup, hnot⟩ := ih h
        refine ⟨List.nodup_cons.2 ⟨fun hp => hnot p hp List.mem_cons_self, hnodup⟩, ?_⟩
        intro r hr
        rcases List.mem_cons.1 hr with rfl | hr
        · exact hseen
        · exact fun hs => hnot r hr (List.mem_cons_of_mem p hs)

theorem keeps_rollbackStarted (started : List Name) (q : Phase) :
    (typestate (.tx x)).Keeps (fun _ q' => q.Same q') (rollbackStarted x started) q :=
  (keeps_rollbackEach (acts_self x) false started.reverse q).bind fun _ _ h => h

/-- The transaction that `begin` hands out. -/
structure Begun (x : Xid) (tx : DistributedTx) (q : Phase) : Prop where
  id : tx.id = x
  nodup : tx.participants.Nodup
  prepared : q.prepared = []
  decided : q.decided = []

theorem keeps_startEach {started ps : List Name} (hps : (started ++ ps).Nodup) {q : Phase}
    (hstarted : ∀ p ∈ q.started, p ∈ started) (hended : q.ended = []) (hprepared : q.prepared = [])
    (hdecided : q.decided = []) :
    (typestate (.tx x)).Keeps (fun res q' => ∀ tx, res = .ok tx → Begun x tx q') (startEach x started ps) q := by
  induction ps generalizing q started with
  | nil =>
    intro tx htx
    cases htx
    exact ⟨rfl, by simpa using hps, hprepared, hdecided⟩
  | cons p ps ih =>
    have hp : p ∉ started := fun hmem => List.disjoint_of_nodup_append hps hmem List.mem_cons_self
    refine Typestate.keeps_perform ⟨rfl, fun hmem => hp (hstarted p hmem), hended, hprepared⟩ (fun hb => hb.elim) ?_
    rintro (e | u) -
    · refine Typestate.keeps_perform rfl (fun _ _ _ => rfl) fun _ _ => ?_
      refine keeps_quiet ⟨rfl, List.mem_cons_self⟩ id (fun _ => rfl) fun _ _ => ?_
      refine (keeps_rollbackStarted started _).bind ?_
      rintro (e' | u) q' hq'
      · intro tx htx
        cases htx
      · refine keeps_setLog rfl (not_decided (hq'.2.trans hdecided)) Status.noConfusion fun _ => ?_
        intro tx htx
        cases htx
    · refine ih (q := { q with started := p :: q.started }) (by simpa using hps) (fun r hr => ?_) hended hprepared hdecided
      rcases List.mem_cons.1 hr with rfl | hr
      · exact List.mem_append_right _ (List.mem_singleton_self r)
      · exact List.mem_append_left _ (hstarted r hr)

theorem keeps_begin (registered participants : List Name) :
    (typestate (.tx x)).Keeps (fun res q' => ∀ tx, res = .ok tx → Begun x tx q') (begin registered x participants)
      .start := by
  have hno : ∀ (e : XaError) (q' : Phase) (tx : DistributedTx), (.error e : Except XaError DistributedTx) = .ok tx →
      Begun x tx q' := fun e q' tx htx => by cases htx
  unfold begin
  split
  · exact hno _ _
  · split
    · exact hno _ _
    · next hnames =>
      refine keeps_quiet trivial id (fun _ => rfl) ?_
      rintro (e | u) -
      · exact hno _ _
      · refine keeps_quiet ⟨rfl, List.not_mem_nil⟩ id (fun _ => rfl) ?_
        rintro (e | u) -
        · exact hno _ _
        · have hnodup : ([] ++ participants).Nodup := (checkNames_ok hnames).1
          exact keeps_startEach hnodup (fun _ hp => (by cases hp)) rfl rfl rfl

theorem keeps_abort (hq : q.decided = []) (ps : List Name) (original : XaError) :
    (typestate (.tx x)).Keeps (fun _ _ => True) (abort ⟨x, ps⟩ original) q := by
  refine keeps_setLog rfl (not_decided hq) Status.noConfusion ?_
  rintro (e | u)
  · trivial
  · refine (keeps_rollbackEach (acts_self x) false ps.reverse q).bind ?_
    rintro (⟨p, e⟩ | u) q' hq'
    · trivial
    · refine keeps_setLog rfl (not_decided (hq'.2.trans hq)) Status.noConfusion ?_
      rintro (e | u) <;> trivial

theorem keeps_decideCommit (hq : q.decided = []) (ps : List Name) :
    (typestate (.tx x)).Keeps (fun _ _ => True) (decideCommit ⟨x, ps⟩) q := by
  refine keeps_setLog rfl (not_decided hq) Status.noConfusion ?_
  rintro (e | u)
  · trivial
  · refine Typestate.keeps_perform ⟨rfl, not_decided hq⟩ (fun hb => hb.elim) ?_
    rintro (e | u) -
    · trivial
    · refine (keeps_commitEach (acts_self x) List.mem_cons_self false ps).bind ?_
      rintro (⟨p, e⟩ | u) q' rfl
      · trivial
      · exact keeps_quiet ⟨rfl, fun _ => rfl⟩ id (next_setLog Status.noConfusion) fun _ _ => trivial

theorem keeps_commit {ps : List Name} (hps : ps.Nodup) (hprepared : q.prepared = []) (hdecided : q.decided = []) :
    (typestate (.tx x)).Keeps (fun _ _ => True) (commit ⟨x, ps⟩) q := by
  refine keeps_quiet trivial id (fun _ => rfl) fun r _ => ?_
  split
  · trivial
  · trivial
  · trivial
  · refine (keeps_xaEach_fin hprepared ps).bind ?_
    rintro (⟨p, e⟩ | u) q' hq'
    · exact keeps_abort (hq'.2.trans hdecided) ps _
    · have hfresh : ∀ p ∈ ps, p ∉ q'.prepared := by
        rw [hq'.1, hprepared]
        exact fun _ _ => List.not_mem_nil
      refine (keeps_xaEach_prepare hps hfresh).bind ?_
      rintro (⟨p, e⟩ | u) q'' hq''
      · exact keeps_abort (hq''.trans (hq'.2.trans hdecided)) ps _
      · exact keeps_decideCommit (hq''.trans (hq'.2.trans hdecided)) ps

theorem keeps_rollback (hdecided : q.decided = []) (ps : List Name) :
    (typestate (.tx x)).Keeps (fun _ _ => True) (rollback ⟨x, ps⟩) q := by
  refine keeps_quiet trivial id (fun _ => rfl) fun r _ => ?_
  split
  · trivial
  · trivial
  · trivial
  · refine keeps_setLog rfl (not_decided hdecided) Status.noConfusion ?_
    rintro (e | u)
    · trivial
    · refine (keeps_rollbackEach (acts_self x) false ps.reverse q).bind ?_
      rintro (⟨p, e⟩ | u) q' hq'
      · trivial
      · exact keeps_quiet ⟨rfl, not_decided (hq'.2.trans hdecided)⟩ id (next_setLog Status.noConfusion) fun _ _ => trivial

theorem keeps_executeAll (hprepared : q.prepared = []) (ps work : List Name) :
    (typestate (.tx x)).Keeps (fun _ q' => q' = q) (executeAll ⟨x, ps⟩ work) q := by
  induction work with
  | nil => exact rfl
  | cons p work ih =>
    change (typestate (.tx x)).Keeps _ ((DistributedTx.execute ⟨x, ps⟩ p).bind fun _ => executeAll ⟨x, ps⟩ work) q
    unfold DistributedTx.execute
    split
    · exact keeps_quiet ⟨rfl, hprepared⟩ id (fun _ => rfl) fun _ _ => ih
    · exact ih

theorem keeps_client (registered participants work : List Name) (f : Finish) :
    (typestate (.tx x)).Keeps (fun _ _ => True) (client x registered participants work f) .start := by
  refine (keeps_begin registered participants).bind ?_
  rintro (e | ⟨id, ps⟩) q hq
  · trivial
  · obtain ⟨rfl, hnodup, hprepared, hdecided⟩ := hq _ rfl
    refine (keeps_executeAll hprepared ps work).bind ?_
    rintro _ _ rfl
    cases f with
    | drop => trivial
    | commit => exact (keeps_commit hnodup hprepared hdecided).bind fun _ _ _ => trivial
    | rollback => exact (keeps_rollback hdecided ps).bind fun _ _ _ => trivial

/-! ### Recovery -/

theorem shouldCommit_decided {r : LogRow} (h : shouldCommit r = true) : Decided r := by
  obtain ⟨id, status, ps, decision⟩ := r
  cases status with
  | prepared => exact .inl rfl
  | committing => exact .inr rfl
  | _ => cases h

theorem keeps_recoverRow {r : LogRow} (hyes : shouldCommit r = true → r.id ∈ q.decided)
    (hno : shouldCommit r = false → r.id ∉ q.decided) :
    (typestate .recovery).Keeps (fun _ q' => q.Same q') (recoverRow r) q := by
  unfold recoverRow
  by_cases hcommit : shouldCommit r = true
  · simp only [hcommit, if_true]
    refine (keeps_commitEach (acts_recovery r.id) (hyes hcommit) _ r.participants).bind ?_
    rintro (⟨p, e⟩ | u) q' rfl
    · exact .refl _
    · exact keeps_quiet ⟨trivial, fun _ => rfl⟩ id (next_setLog Status.noConfusion) fun _ _ => .refl _
  · have hcommit' : shouldCommit r = false := by simpa using hcommit
    simp only [hcommit', Bool.false_eq_true, if_false]
    refine (keeps_rollbackEach (acts_recovery r.id) _ r.participants.reverse q).bind ?_
    rintro (⟨p, e⟩ | u) q' hq'
    · exact hq'
    · refine keeps_quiet ⟨trivial, fun hx => absurd (hq'.2 ▸ hx) (hno hcommit')⟩ id (next_setLog Status.noConfusion)
        fun _ _ => hq'

theorem keeps_recoverRows (registered : List Name) {rows : List LogRow}
    (hyes : ∀ r ∈ rows, shouldCommit r = true → r.id ∈ q.decided)
    (hno : ∀ r ∈ rows, shouldCommit r = false → r.id ∉ q.decided) (report : RecoveryReport) :
    (typestate .recovery).Keeps (fun _ _ => True) (recoverRows registered report rows) q := by
  induction rows generalizing q report with
  | nil => trivial
  | cons r rows ih =>
    have hrest : ∀ {q' : Phase}, q.Same q' → ∀ report,
        (typestate .recovery).Keeps (fun _ _ => True) (recoverRows registered report rows) q' := by
      intro q' hq' report
      refine ih (fun s hs hc => ?_) (fun s hs hc => ?_) report
      · rw [hq'.2]
        exact hyes s (List.mem_cons_of_mem r hs) hc
      · rw [hq'.2]
        exact hno s (List.mem_cons_of_mem r hs) hc
    unfold recoverRows
    split
    · refine (keeps_recoverRow (hyes r List.mem_cons_self) (hno r List.mem_cons_self)).bind ?_
      rintro (e | u) q' hq'
      · exact hrest hq' _
      · exact hrest hq' _
    · exact hrest (.refl q) _

theorem keeps_recoverLocked (registered : List Name) :
    (typestate .recovery).Keeps (fun _ _ => True) (recoverLocked registered) q := by
  refine Typestate.keeps_perform trivial (fun hb => hb.elim) ?_
  rintro (e | rows) hrows
  · trivial
  · have hids : (rows.map (·.id)).Nodup := hrows
    refine (keeps_recoverRows registered (fun r hr hc => ?_) (fun r hr hc => ?_) ⟨0, 0⟩).bind fun _ _ _ => trivial
    · exact List.mem_map.2 ⟨r, List.mem_filter.2 ⟨hr, hc⟩, rfl⟩
    · intro hmem
      obtain ⟨s, hs, hid⟩ := List.mem_map.1 hmem
      obtain ⟨hs, hcommit⟩ := List.mem_filter.1 hs
      have heq : s = r := List.inj_on_of_nodup_map hids hs hr hid
      rw [heq, hc] at hcommit
      cases hcommit

theorem keeps_recover (registered : List Name) :
    (typestate .recovery).Keeps (fun _ _ => True) (recover registered) .start := by
  refine keeps_quiet trivial id (fun _ => rfl) ?_
  rintro (e | u) -
  · trivial
  · refine keeps_quiet trivial id (fun _ => rfl) ?_
    rintro (e | u) -
    · trivial
    · refine (keeps_recoverLocked registered).bind fun outcome q' _ => ?_
      refine keeps_quiet trivial id (fun _ => rfl) fun released _ => ?_
      cases outcome with
      | error e => cases released <;> trivial
      | ok report => cases released <;> trivial

end Ecat.TwoPhase
