import Ecat.CallTrace
import Ecat.TwoPhaseRecovery

/-! What a run of recovery reports of the log rows it found, and what it leaves of them. -/

namespace Ecat.TwoPhase

/-- The row as recovery leaves it. -/
def LogRow.resolved (r : LogRow) : LogRow :=
  if shouldCommit r then { r with status := .committed, decision := some .commit }
  else { r with status := .rolledBack, decision := some .rollback }

/-- The update of the log that ends the recovery of the row. -/
def LogRow.resolve (r : LogRow) : Op := .setLog r.id r.resolved.status r.resolved.decision

/-- A call to one of the row's participants. -/
def Op.Replays (r : LogRow) : Op → Prop
  | .xa _ p x => p ∈ r.participants ∧ x = r.id
  | .xaRecover p => p ∈ r.participants
  | _ => False

def Op.Serves (r : LogRow) (o : Op) : Prop := o.Replays r ∨ o = r.resolve

/-- A call that neither writes the log nor reaches a participant. -/
def Op.Quiet : Op → Prop
  | .ensureSchema | .acquireFence | .releaseFence | .recoverableLogs => True
  | _ => False

abbrev Calls := List (Op × Reply)

/-- Of the rows, the recovered ones are as recovery leaves them, and their update was acknowledged. The failed
ones are as before, or their update took effect and only its answer was lost. -/
structure Accounts (rows : List LogRow) (calls : Calls) (w : World) (recovered failed : List LogRow) : Prop where
  all : (recovered ++ failed).Perm rows
  resolved : ∀ r ∈ recovered, (r.resolve, Reply.ok) ∈ calls ∧ w.row r.id = some r.resolved
  kept : ∀ r ∈ failed, (r.resolve, Reply.ok) ∉ calls ∧ (w.row r.id = some r ∨
    w.row r.id = some r.resolved ∧ ∃ e, (r.resolve, Reply.lost true e) ∈ calls)

/-! ### One row -/

theorem resolved_eq (r : LogRow) :
    { r with status := r.resolved.status, decision := r.resolved.decision } = r.resolved := by
  by_cases h : shouldCommit r = true <;> simp [LogRow.resolved, h]

theorem resolve_inj {r s : LogRow} (h : r.resolve = s.resolve) : r.id = s.id := by
  unfold LogRow.resolve at h
  injection h

theorem serves_resolve {r s : LogRow} (h : s.resolve.Serves r) : s.id = r.id := by
  rcases h with h | h
  · exact h.elim
  · exact resolve_inj h

theorem row_congr {w w' : World} (h : w'.log = w.log) (x : Xid) : w'.row x = w.row x := by
  rw [World.row, World.row, h]

theorem row_resolve_self {w : World} {r : LogRow} (h : w.row r.id = some r) :
    (w.effect r.resolve).row r.id = some r.resolved := by
  show (w.setLog r.id r.resolved.status r.resolved.decision).row r.id = _
  rw [row_setLog, if_pos rfl, h, Option.map_some, resolved_eq]

theorem row_resolve_ne {w : World} {r : LogRow} {x : Xid} (h : x ≠ r.id) :
    (w.effect r.resolve).row x = w.row x := by
  show (w.setLog r.id r.resolved.status r.resolved.decision).row x = _
  rw [row_setLog, if_neg h]

theorem resolve_log {w w' : World} {r : LogRow} (h : w'.log = w.log) :
    (w'.effect r.resolve).log = (w.effect r.resolve).log := by
  show (w'.setLog r.id r.resolved.status r.resolved.decision).log = _
  rw [World.setLog, h]
  rfl

theorem replays_log {r : LogRow} {o : Op} (h : o.Replays r) (c : Reply) (w : World) : (exec o c w).2.log = w.log := by
  rcases exec_cases o c w with he | he
  · rw [he]
  · rw [he]
    cases o with
    | xa call p x =>
      show (((w.branch p x).apply call).elim w (w.setBranch p x)).log = w.log
      cases (w.branch p x).apply call <;> rfl
    | xaRecover p => rfl
    | _ => exact h.elim

theorem calls_alreadyResolved {r : LogRow} {p : Name} (hp : p ∈ r.participants) (crossCheck : Bool) :
    CallTree.Calls (Op.Replays r) (if crossCheck then alreadyResolved p r.id else return false) := by
  cases crossCheck with
  | false => trivial
  | true =>
    refine ⟨hp, fun res => ?_⟩
    cases res <;> trivial

theorem calls_commitEach {r : LogRow} (crossCheck : Bool) {ps : List Name} (hps : ∀ p ∈ ps, p ∈ r.participants) :
    (commitEach crossCheck r.id ps).Calls (Op.Replays r) := by
  induction ps with
  | nil => trivial
  | cons p ps ih =>
    have hp := hps p List.mem_cons_self
    have hrest := ih fun q hq => hps q (List.mem_cons_of_mem p hq)
    refine CallTree.calls_bind (calls_alreadyResolved hp crossCheck) fun done => ?_
    cases done with
    | true => exact hrest
    | false =>
      refine ⟨⟨hp, rfl⟩, fun res => ?_⟩
      cases res with
      | error e => trivial
      | ok u => exact hrest

theorem calls_rollbackEach {r : LogRow} (crossCheck : Bool) {ps : List Name} (hps : ∀ p ∈ ps, p ∈ r.participants) :
    (rollbackEach crossCheck r.id ps).Calls (Op.Replays r) := by
  induction ps with
  | nil => trivial
  | cons p ps ih =>
    have hp := hps p List.mem_cons_self
    have hrest := ih fun q hq => hps q (List.mem_cons_of_mem p hq)
    refine CallTree.calls_bind (calls_alreadyResolved hp crossCheck) fun done => ?_
    cases done with
    | true => exact hrest
    | false =>
      refine ⟨⟨hp, rfl⟩, fun _ => ⟨⟨hp, rfl⟩, fun res => ?_⟩⟩
      cases res with
      | error e => trivial
      | ok u => exact hrest

/-- The calls to the participants come first, and the update of the log last. -/
theorem recoverRow_eq (r : LogRow) : ∃ replay : Proc (Except (Name × XaError) Unit), replay.Calls (Op.Replays r) ∧
    recoverRow r = replay.bind fun res =>
      match res with
      | .error (_, e) => .ret (.error e)
      | .ok _ => perform r.resolve := by
  unfold recoverRow LogRow.resolve LogRow.resolved
  generalize shouldCommit r = commit
  cases commit with
  | true => exact ⟨commitEach (decide (r.status = .prepared ∨ r.status = .committing)) r.id r.participants,
      calls_commitEach _ fun p hp => hp, rfl⟩
  | false => exact ⟨rollbackEach (decide (r.status = .prepared ∨ r.status = .committing)) r.id r.participants.reverse,
      calls_rollbackEach _ fun p hp => List.mem_reverse.1 hp, rfl⟩

/-- What the recovery of a row does to the log, by its outcome. -/
def RowOutcome (r : LogRow) (calls : Calls) (w w' : World) : Except XaError Unit → Prop
  | .ok _ => (r.resolve, Reply.ok) ∈ calls ∧ w'.log = (w.effect r.resolve).log
  | .error _ => (r.resolve, Reply.ok) ∉ calls ∧ (w'.log = w.log ∨
    w'.log = (w.effect r.resolve).log ∧ ∃ e, (r.resolve, Reply.lost true e) ∈ calls)

theorem recoverRow_run {r : LogRow} {w w' : World} {calls : Calls} {res : Except XaError Unit}
    (h : (recoverRow r).Run exec w calls res w') :
    (∀ c ∈ calls, c.1.Serves r) ∧ RowOutcome r calls w w' res := by
  obtain ⟨replay, hreplay, heq⟩ := recoverRow_eq r
  rw [heq] at h
  obtain ⟨first, rest, replayed, t, rfl, hfirst, hrest⟩ := CallTree.run_bind.1 h
  have hcalls := hfirst.calls hreplay
  have hlog : t.log = w.log :=
    @CallTree.Run.keeps _ _ _ _ _ exec _ (fun s => s.log = w.log)
      (fun o c s ho hs => (replays_log ho c s).trans hs) _ _ _ _ _ hfirst hreplay rfl
  have hnone : ∀ c, (r.resolve, c) ∉ first := fun c hc => hcalls _ hc
  cases replayed with
  | error e =>
    obtain ⟨rfl, rfl, rfl⟩ := hrest
    rw [List.append_nil]
    exact ⟨fun c hc => .inl (hcalls c hc), hnone _, .inl hlog⟩
  | ok u =>
    obtain ⟨c, rfl, hres, rfl⟩ := CallTree.run_perform.1 hrest
    refine ⟨?_, ?_⟩
    · intro d hd
      rcases List.mem_append.1 hd with hd | hd
      · exact .inl (hcalls d hd)
      · obtain rfl := List.mem_singleton.1 hd
        exact .inr rfl
    · cases c with
      | ok =>
        obtain rfl : res = .ok () := hres
        exact ⟨by simp, resolve_log hlog⟩
      | lost applied e =>
        obtain rfl : res = .error e := hres
        refine ⟨by simp [hnone], ?_⟩
        cases applied with
        | false => exact .inl hlog
        | true => exact .inr ⟨resolve_log hlog, e, by simp⟩

/-! ### All rows -/

section

variable {rows recovered failed : List LogRow} {r : LogRow} {first rest : Calls} {w : World}

/-- The calls for the rows found are each for one of them. -/
def ServesAll (rows : List LogRow) (calls : Calls) : Prop := ∀ c ∈ calls, ∃ r ∈ rows, c.1.Serves r

theorem ServesAll.cons (hfirst : ∀ c ∈ first, c.1.Serves r) (hrest : ServesAll rows rest) :
    ServesAll (r :: rows) (first ++ rest) := by
  intro c hc
  rcases List.mem_append.1 hc with hc | hc
  · exact ⟨r, List.mem_cons_self, hfirst c hc⟩
  · obtain ⟨s, hs, hserves⟩ := hrest c hc
    exact ⟨s, List.mem_cons_of_mem r hs, hserves⟩

theorem ServesAll.not_mem (hr : r.id ∉ rows.map (·.id)) (hrest : ServesAll rows rest) (c : Reply) :
    (r.resolve, c) ∉ rest := by
  intro hc
  obtain ⟨s, hs, hserves⟩ := hrest _ hc
  exact hr (List.mem_map.2 ⟨s, hs, (serves_resolve hserves).symm⟩)

theorem Accounts.append_left (h : Accounts rows rest w recovered failed)
    (hfirst : ∀ s ∈ rows, ∀ c, (s.resolve, c) ∉ first) : Accounts rows (first ++ rest) w recovered failed where
  all := h.all
  resolved s hs := ⟨List.mem_append_right first (h.resolved s hs).1, (h.resolved s hs).2⟩
  kept s hs := by
    obtain ⟨hnone, hrow⟩ := h.kept s hs
    have hmem := h.all.subset (List.mem_append_right recovered hs)
    refine ⟨fun hc => (List.mem_append.1 hc).elim (hfirst s hmem _) hnone, ?_⟩
    apply hrow.imp_right
    rintro ⟨hdone, e, he⟩
    exact ⟨hdone, e, List.mem_append_right first he⟩

theorem Accounts.append_right (h : Accounts rows first w recovered failed)
    (hrest : ∀ s ∈ rows, ∀ c, (s.resolve, c) ∉ rest) : Accounts rows (first ++ rest) w recovered failed where
  all := h.all
  resolved s hs := ⟨List.mem_append_left rest (h.resolved s hs).1, (h.resolved s hs).2⟩
  kept s hs := by
    obtain ⟨hnone, hrow⟩ := h.kept s hs
    have hmem := h.all.subset (List.mem_append_right recovered hs)
    refine ⟨fun hc => (List.mem_append.1 hc).elim hnone (hrest s hmem _), ?_⟩
    apply hrow.imp_right
    rintro ⟨hdone, e, he⟩
    exact ⟨hdone, e, List.mem_append_left rest he⟩

theorem Accounts.cons_recovered (h : Accounts rows rest w recovered failed) (hcall : (r.resolve, Reply.ok) ∈ rest)
    (hrow : w.row r.id = some r.resolved) : Accounts (r :: rows) rest w (r :: recovered) failed where
  all := h.all.cons r
  resolved s hs := by
    rcases List.mem_cons.1 hs with rfl | hs
    · exact ⟨hcall, hrow⟩
    · exact h.resolved s hs
  kept := h.kept

theorem Accounts.cons_failed (h : Accounts rows rest w recovered failed) (hcall : (r.resolve, Reply.ok) ∉ rest)
    (hrow : w.row r.id = some r ∨ w.row r.id = some r.resolved ∧ ∃ e, (r.resolve, Reply.lost true e) ∈ rest) :
    Accounts (r :: rows) rest w recovered (r :: failed) where
  all := List.perm_middle.trans (h.all.cons r)
  resolved := h.resolved
  kept s hs := by
    rcases List.mem_cons.1 hs with rfl | hs
    · exact ⟨hcall, hrow⟩
    · exact h.kept s hs

end

/-- What recovery did with the rows it found. -/
structure Recovered (rows : List LogRow) (calls : Calls) (before report : RecoveryReport) (w w' : World) : Prop where
  accounts : ∃ recovered failed, Accounts rows calls w' recovered failed ∧
    report = ⟨before.recovered + recovered.length, before.failed + failed.length⟩
  serves : ServesAll rows calls
  others : ∀ x, x ∉ rows.map (·.id) → w'.row x = w.row x

theorem row_of_outcome {r : LogRow} {calls : Calls} {w w' : World} {res : Except XaError Unit}
    (h : RowOutcome r calls w w' res) {x : Xid} (hx : x ≠ r.id) : w'.row x = w.row x := by
  cases res with
  | ok u => rw [row_congr h.2, row_resolve_ne hx]
  | error e =>
    rcases h.2 with hlog | ⟨hlog, -⟩
    · exact row_congr hlog x
    · rw [row_congr hlog, row_resolve_ne hx]

section

variable {rows : List LogRow} {r : LogRow} {first rest : Calls} {before report : RecoveryReport} {w t w' : World}

theorem resolve_not_mem (hr : r.id ∉ rows.map (·.id)) (hserves : ∀ c ∈ first, c.1.Serves r) :
    ∀ s ∈ rows, ∀ c, (s.resolve, c) ∉ first :=
  fun s hs _ hc => hr (List.mem_map.2 ⟨s, hs, serves_resolve (hserves _ hc)⟩)

theorem others_cons {res : Except XaError Unit} (houtcome : RowOutcome r first w t res)
    (hothers : ∀ x, x ∉ rows.map (·.id) → w'.row x = t.row x) (x : Xid) (hx : x ∉ (r :: rows).map (·.id)) :
    w'.row x = w.row x := by
  obtain ⟨hne, hrest⟩ : x ≠ r.id ∧ x ∉ rows.map (·.id) := by simpa using hx
  rw [hothers x hrest, row_of_outcome houtcome hne]

theorem Recovered.cons_recovered (hr : r.id ∉ rows.map (·.id)) (hrow : w.row r.id = some r)
    (hserves : ∀ c ∈ first, c.1.Serves r) (houtcome : RowOutcome r first w t (.ok ()))
    (h : Recovered rows rest ⟨before.recovered + 1, before.failed⟩ report t w') :
    Recovered (r :: rows) (first ++ rest) before report w w' := by
  obtain ⟨⟨recovered, failed, haccounts, rfl⟩, hall, hothers⟩ := h
  refine ⟨⟨r :: recovered, failed, ?_, ?_⟩, hall.cons hserves, others_cons houtcome hothers⟩
  · apply (haccounts.append_left (resolve_not_mem hr hserves)).cons_recovered (List.mem_append_left rest houtcome.1)
    rw [hothers r.id hr, row_congr houtcome.2, row_resolve_self hrow]
  · rw [List.length_cons, Nat.add_assoc, Nat.add_comm 1]

theorem Recovered.cons_failed {e : XaError} (hr : r.id ∉ rows.map (·.id)) (hrow : w.row r.id = some r)
    (hserves : ∀ c ∈ first, c.1.Serves r) (houtcome : RowOutcome r first w t (.error e))
    (h : Recovered rows rest ⟨before.recovered, before.failed + 1⟩ report t w') :
    Recovered (r :: rows) (first ++ rest) before report w w' := by
  obtain ⟨⟨recovered, failed, haccounts, rfl⟩, hall, hothers⟩ := h
  refine ⟨⟨recovered, r :: failed, ?_, ?_⟩, hall.cons hserves, others_cons houtcome hothers⟩
  · apply (haccounts.append_left (resolve_not_mem hr hserves)).cons_failed
    · exact fun hc => (List.mem_append.1 hc).elim houtcome.1 (hall.not_mem hr _)
    · rw [hothers r.id hr]
      rcases houtcome.2 with hlog | ⟨hlog, e', he'⟩
      · exact .inl ((row_congr hlog r.id).trans hrow)
      · refine .inr ⟨?_, e', List.mem_append_left rest he'⟩
        rw [row_congr hlog, row_resolve_self hrow]
  · rw [List.length_cons, Nat.add_assoc before.failed, Nat.add_comm 1]

end

theorem recoverRows_run {registered : List Name} {rows : List LogRow} {before report : RecoveryReport} {calls : Calls}
    {w w' : World} (hids : (rows.map (·.id)).Nodup) (hrows : ∀ r ∈ rows, w.row r.id = some r)
    (h : (recoverRows registered before rows).Run exec w calls report w') :
    Recovered rows calls before report w w' := by
  induction rows generalizing before w calls with
  | nil =>
    obtain ⟨rfl, rfl, rfl⟩ := h
    exact ⟨⟨[], [], ⟨.nil, by simp, by simp⟩, rfl⟩, by simp [ServesAll], fun _ _ => rfl⟩
  | cons r rows ih =>
    obtain ⟨hr, hids'⟩ := List.nodup_cons.1 hids
    have hrow := hrows r List.mem_cons_self
    have hrest := fun s hs => hrows s (List.mem_cons_of_mem r hs)
    rw [recoverRows] at h
    by_cases hall : r.participants.all (· ∈ registered) = true
    · rw [if_pos hall] at h
      obtain ⟨first, rest, res, t, rfl, hfirst, hrun⟩ := CallTree.run_bind.1 h
      obtain ⟨hserves, houtcome⟩ := recoverRow_run hfirst
      have hrows' : ∀ s ∈ rows, t.row s.id = some s := by
        intro s hs
        have hne : s.id ≠ r.id := fun he => hr (List.mem_map.2 ⟨s, hs, he⟩)
        exact (row_of_outcome houtcome hne).trans (hrest s hs)
      cases res with
      | ok u => exact .cons_recovered hr hrow hserves houtcome (ih hids' hrows' hrun)
      | error e => exact .cons_failed hr hrow hserves houtcome (ih hids' hrows' hrun)
    · rw [if_neg hall] at h
      -- A row with an unknown participant is skipped: nothing is called, and the log stays.
      have hskipped : RowOutcome r [] w w (.error (.unknownParticipant "")) := ⟨List.not_mem_nil, .inl rfl⟩
      exact .cons_failed hr hrow (by simp) hskipped (ih hids' hrest h)

/-! ### The whole recovery -/

theorem quiet_exec {o : Op} (h : o.Quiet) (c : Reply) (w : World) : (exec o c w).2 = w := by
  rcases exec_cases o c w with he | he
  · exact he
  · rw [he]
    cases o <;> first | rfl | exact h.elim

theorem quiet_run {α : Type} {o : Op} (ho : o.Quiet) {k : Res o → Proc α} {calls : Calls} {a : α} {w w' : World}
    (h : ((perform o).bind k).Run exec w calls a w') :
    ∃ c rest, calls = (o, c) :: rest ∧ (k (exec o c w).1).Run exec w rest a w' := by
  obtain ⟨c, rest, rfl, hrest⟩ := h
  rw [quiet_exec ho] at hrest
  exact ⟨c, rest, rfl, hrest⟩

theorem read_rows {c : Reply} {w : World} {rows : List LogRow} (h : (exec .recoverableLogs c w).1 = .ok rows) :
    rows = w.log.filter recoverable := by
  cases c with
  | ok => exact (Except.ok.inj h).symm
  | lost applied e => cases h

theorem recoverLocked_run {registered : List Name} {calls : Calls} {res : Except XaError RecoveryReport} {w w' : World}
    (h : (recoverLocked registered).Run exec w calls res w') :
    ((∃ e, res = .error e) ∧ w' = w ∧ ∃ c, calls = [(.recoverableLogs, c)]) ∨
    ∃ c inner report, calls = (.recoverableLogs, c) :: inner ∧ res = .ok report ∧
      (recoverRows registered ⟨0, 0⟩ (w.log.filter recoverable)).Run exec w inner report w' := by
  obtain ⟨c, rest, rfl, hrest⟩ := quiet_run (o := .recoverableLogs) trivial h
  cases hread : (exec .recoverableLogs c w).1 with
  | error e =>
    rw [hread] at hrest
    obtain ⟨rfl, rfl, rfl⟩ := hrest
    exact .inl ⟨⟨e, rfl⟩, rfl, c, rfl⟩
  | ok rows =>
    rw [hread] at hrest
    obtain ⟨inner, last, report, t, rfl, hrows, rfl, rfl, rfl⟩ := CallTree.run_bind.1 hrest
    rw [read_rows hread] at hrows
    exact .inr ⟨c, inner, report, by rw [List.append_nil], rfl, hrows⟩

/-- A run of recovery works on the rows it read, or fails before that; its other calls are quiet. -/
theorem recover_run {registered : List Name} {calls : Calls} {res : Except XaError RecoveryReport} {w w' : World}
    (h : (recover registered).Run exec w calls res w') :
    ((∃ e, res = .error e) ∧ w' = w ∧ ∀ c ∈ calls, c.1.Quiet) ∨
    ∃ first inner last report, calls = first ++ (inner ++ last) ∧ (∀ c ∈ first ++ last, c.1.Quiet) ∧
      (recoverRows registered ⟨0, 0⟩ (w.log.filter recoverable)).Run exec w inner report w' ∧
      ∀ done, res = .ok done → done = report := by
  obtain ⟨c₁, calls₁, rfl, h₁⟩ := quiet_run (o := .ensureSchema) trivial h
  cases hschema : (exec .ensureSchema c₁ w).1 with
  | error e =>
    rw [hschema] at h₁
    obtain ⟨rfl, rfl, rfl⟩ := h₁
    exact .inl ⟨⟨e, rfl⟩, rfl, by simp [Op.Quiet]⟩
  | ok u₁ =>
    rw [hschema] at h₁
    obtain ⟨c₂, calls₂, rfl, h₂⟩ := quiet_run (o := .acquireFence) trivial h₁
    cases hfence : (exec .acquireFence c₂ w).1 with
    | error e =>
      rw [hfence] at h₂
      obtain ⟨rfl, rfl, rfl⟩ := h₂
      exact .inl ⟨⟨e, rfl⟩, rfl, by simp [Op.Quiet]⟩
    | ok u₂ =>
      rw [hfence] at h₂
      obtain ⟨locked, last, outcome, t, rfl, hlocked, h₃⟩ := CallTree.run_bind.1 h₂
      obtain ⟨c₄, calls₄, rfl, h₄⟩ := quiet_run (o := .releaseFence) trivial h₃
      rcases recoverLocked_run hlocked with ⟨⟨e, rfl⟩, rfl, c₃, rfl⟩ | ⟨c₃, inner, report, rfl, rfl, hrows⟩
      · obtain ⟨rfl, rfl, rfl⟩ := h₄
        exact .inl ⟨⟨e, rfl⟩, rfl, by simp [Op.Quiet]⟩
      · have hfinish : calls₄ = [] ∧ w' = t ∧ ∀ done, res = .ok done → done = report := by
          cases hrelease : (exec .releaseFence c₄ t).1 with
          | ok u =>
            rw [hrelease] at h₄
            obtain ⟨rfl, rfl, rfl⟩ := h₄
            exact ⟨rfl, rfl, fun done hdone => (Except.ok.inj hdone).symm⟩
          | error e =>
            rw [hrelease] at h₄
            obtain ⟨rfl, rfl, rfl⟩ := h₄
            exact ⟨rfl, rfl, fun done hdone => by cases hdone⟩
        obtain ⟨rfl, rfl, hreport⟩ := hfinish
        exact .inr ⟨[(.ensureSchema, c₁), (.acquireFence, c₂), (.recoverableLogs, c₃)], inner, [(.releaseFence, c₄)],
          report, rfl, by simp [Op.Quiet], hrows, hreport⟩

theorem filter_rows {w : World} (hids : (w.log.map (·.id)).Nodup) :
    ((w.log.filter recoverable).map (·.id)).Nodup ∧
      ∀ r ∈ w.log.filter recoverable, recoverable r = true ∧ w.row r.id = some r := by
  refine ⟨hids.sublist (List.filter_sublist.map _), fun r hr => ?_⟩
  obtain ⟨hmem, hopen⟩ := List.mem_filter.1 hr
  exact ⟨hopen, row_of_mem hids hmem⟩

theorem run_ids {α : Type} {p : Proc α} {calls : Calls} {a : α} {w w' : World} (h : p.Run exec w calls a w')
    (hids : (w.log.map (·.id)).Nodup) : (w'.log.map (·.id)).Nodup := by
  refine @CallTree.Run.keeps _ _ _ _ _ exec (fun _ => True) (fun s => (s.log.map (·.id)).Nodup) ?_ _ _ _ _ _ h
    (CallTree.calls_of_forall (fun _ => trivial) p) hids
  intro o c s _ hs
  rcases exec_cases o c s with he | he
  · rwa [he]
  · rw [he]
    exact effect_ids hs o

/-- Every call of a recovery that is not quiet is for a row that was not terminal when it began. -/
theorem recover_serves {registered : List Name} {calls : Calls} {res : Except XaError RecoveryReport} {w w' : World}
    (hids : (w.log.map (·.id)).Nodup) (h : (recover registered).Run exec w calls res w') :
    ∀ c ∈ calls, ¬c.1.Quiet → ∃ r, w.row r.id = some r ∧ recoverable r = true ∧ c.1.Serves r := by
  intro c hc hloud
  rcases recover_run h with ⟨-, -, hquiet⟩ | ⟨first, inner, last, report, rfl, hquiet, hrows, -⟩
  · exact absurd (hquiet c hc) hloud
  · obtain ⟨hnodup, hfound⟩ := filter_rows hids
    have hserves := (recoverRows_run hnodup (fun r hr => (hfound r hr).2) hrows).serves
    rcases List.mem_append.1 hc with hc | hc
    · exact absurd (hquiet c (List.mem_append_left last hc)) hloud
    · rcases List.mem_append.1 hc with hc | hc
      · obtain ⟨r, hr, hr'⟩ := hserves c hc
        exact ⟨r, (hfound r hr).2, (hfound r hr).1, hr'⟩
      · exact absurd (hquiet c (List.mem_append_right first hc)) hloud

/-- A recovery that reports counts every row it found once, as recovered or as failed, leaves the terminal rows,
and a second one calls no participant for a row that is terminal by then. -/
theorem recover_accounts {registered : List Name} {calls : Calls} {report : RecoveryReport} {w w' : World}
    (hids : (w.log.map (·.id)).Nodup) (h : (recover registered).Run exec w calls (.ok report) w') :
    (∃ recovered failed, Accounts (w.log.filter recoverable) calls w' recovered failed ∧
      report = ⟨recovered.length, failed.length⟩) ∧
    report.recovered + report.failed = (w.log.filter recoverable).length ∧
    (∀ r ∈ w.log, recoverable r = false → w'.row r.id = some r) ∧
    ∀ again calls' res w'', (recover again).Run exec w' calls' res w'' → ∀ c ∈ calls', ¬c.1.Quiet →
      ∃ r, w'.row r.id = some r ∧ recoverable r = true ∧ c.1.Serves r := by
  rcases recover_run h with ⟨⟨e, he⟩, -, -⟩ | ⟨first, inner, last, done, rfl, hquiet, hrows, hdone⟩
  · cases he
  · obtain rfl := hdone report rfl
    obtain ⟨hnodup, hfound⟩ := filter_rows hids
    obtain ⟨⟨recovered, failed, haccounts, hreport⟩, -, hothers⟩ :=
      recoverRows_run hnodup (fun r hr => (hfound r hr).2) hrows
    have hcounts : report = ⟨recovered.length, failed.length⟩ := by simpa using hreport
    refine ⟨⟨recovered, failed, ?_, hcounts⟩, ?_, ?_, ?_⟩
    · apply Accounts.append_left
      · apply haccounts.append_right
        exact fun s _ c hc => hquiet _ (List.mem_append_right first hc)
      · exact fun s _ c hc => hquiet _ (List.mem_append_left last hc)
    · rw [hcounts, ← haccounts.all.length_eq, List.length_append]
    · intro r hr hclosed
      have hrow := row_of_mem hids hr
      rw [hothers r.id, hrow]
      intro hmem
      obtain ⟨s, hs, he⟩ := List.mem_map.1 hmem
      obtain ⟨hopen, hsrow⟩ := hfound s hs
      rw [he, hrow] at hsrow
      obtain rfl := Option.some.inj hsrow
      exact absurd hclosed (by simp [hopen])
    · exact fun again calls' res w'' hagain => recover_serves (run_ids h hids) hagain

def preparedRow : LogRow := ⟨"x", .prepared, ["a"], none⟩

def preparedRows : List LogRow := [preparedRow, ⟨"y", .prepared, ["b"], none⟩]

def committedRow : LogRow := ⟨"z", .committed, ["a"], some .commit⟩

/-- Two transactions are prepared at their participants, and one has ended. -/
def twoPrepared : World :=
  ⟨preparedRows ++ [committedRow], fun _ x => if x = "z" then .committed else .prepared⟩

/-- One of them is committed, and the participant of the other one cannot be reached. -/
theorem two_prepared_accounted : ∃ calls w', (recover ["a", "b"]).Run exec twoPrepared calls (.ok ⟨1, 1⟩) w' ∧
    (∃ recovered failed, Accounts preparedRows calls w' recovered failed ∧
      RecoveryReport.mk 1 1 = ⟨recovered.length, failed.length⟩) ∧
    1 + 1 = preparedRows.length ∧ w'.row "z" = some committedRow ∧
    ∀ again calls' res w'', (recover again).Run exec w' calls' res w'' → ∀ c ∈ calls', ¬c.1.Quiet →
      ∃ r, w'.row r.id = some r ∧ recoverable r = true ∧ c.1.Serves r := by
  have hend : ((recover ["a", "b"]).advance exec
      (List.replicate 7 .ok ++ [.lost false (.database "connection reset"), .ok]) twoPrepared).1 =
      .ret (.ok ⟨1, 1⟩) := rfl
  obtain ⟨calls, hrun⟩ := CallTree.run_of_advance hend
  obtain ⟨haccounts, hcounts, hclosed, hagain⟩ := recover_accounts (by decide) hrun
  have hz : committedRow ∈ twoPrepared.log := List.mem_append_right _ (List.mem_singleton_self _)
  exact ⟨calls, _, hrun, haccounts, hcounts, hclosed committedRow hz rfl, hagain⟩

def onePrepared : World := ⟨[preparedRow], fun _ _ => .prepared⟩

/-- The update of the log takes effect but its answer is lost: the row is counted failed and is terminal. -/
theorem failed_row_terminal : ∃ calls w', (recover ["a"]).Run exec onePrepared calls (.ok ⟨0, 1⟩) w' ∧
    w'.row "x" = some { preparedRow with status := .committed, decision := some .commit } := by
  have hend : ((recover ["a"]).advance exec
      [.ok, .ok, .ok, .ok, .ok, .lost true (.database "connection reset"), .ok] onePrepared).1 =
      .ret (.ok ⟨0, 1⟩) := rfl
  obtain ⟨calls, hrun⟩ := CallTree.run_of_advance hend
  exact ⟨calls, _, hrun, rfl⟩

end Ecat.TwoPhase
