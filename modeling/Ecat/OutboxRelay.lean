import Ecat.OutboxInvariant

/-! The relays and producers of an outbox, each interrupted by the others at any call,
keep its invariant: a certificate for the host. -/

namespace Ecat.Outbox

variable {T : Type} {stamps : Stamps} {dialect : Dialect} {w : World T}

/-! ### The calls -/

theorem attempt_keeps {α : Type} (c : Reply) {result : Except ShardError (α × World T)}
    (hw : Inv w) (hresult : ∀ a w', result = .ok (a, w') → Inv w' ∧ Grows w w') :
    Grows w (attempt c w result).2 ∧ Inv (attempt c w result).2 := by
  have h := attempt_cases (I := fun w' => Inv w' ∧ Grows w w') c ⟨hw, .refl w⟩ hresult
  exact ⟨h.2, h.1⟩

theorem exec_append_keeps (stamps : Stamps) (dialect : Dialect) (t : T) (record : OutboxRecord)
    (c : Reply) (hw : Inv w) :
    Grows w (exec stamps dialect t (.append record) c w).2 ∧
      Inv (exec stamps dialect t (.append record) c w).2 := by
  refine attempt_keeps c hw fun a w' hw' => ?_
  obtain ⟨rows, hrows, he⟩ := map_eq_ok hw'
  cases he
  exact inv_append hw hrows

theorem exec_claim_keeps (stamps : Stamps) (dialect : Dialect) (t : T) (limit : UInt32) (lease : Int)
    (c : Reply) (hw : Inv w) :
    Grows w (exec stamps dialect t (.claim limit lease) c w).2 ∧
      Inv (exec stamps dialect t (.claim limit lease) c w).2 ∧
      ∀ records, (exec stamps dialect t (.claim limit lease) c w).1 = .ok records →
        ∀ record ∈ records,
          ∃ row ∈ (exec stamps dialect t (.claim limit lease) c w).2.rows, row.Is record := by
  have hkeeps : Grows w (exec stamps dialect t (.claim limit lease) c w).2 ∧
      Inv (exec stamps dialect t (.claim limit lease) c w).2 := by
    refine attempt_keeps c hw fun a w' hw' => ?_
    obtain ⟨⟨records, rows⟩, hrows, he⟩ := map_eq_ok hw'
    cases he
    exact ⟨(inv_claim hw t hrows).1, (inv_claim hw t hrows).2.1⟩
  refine ⟨hkeeps.1, hkeeps.2, fun records hok => ?_⟩
  obtain ⟨⟨records', rows⟩, hrows, he⟩ := map_eq_ok (attempt_ok hok)
  obtain ⟨rfl, hworld⟩ := Prod.mk.inj he
  rw [exec, ← hworld]
  exact (inv_claim hw t hrows).2.2

theorem exec_handle_keeps (stamps : Stamps) (dialect : Dialect) (t : T) (record : OutboxRecord)
    (c : Reply) (hw : Inv w) :
    Grows w (exec stamps dialect t (.handle record) c w).2 ∧
      Inv (exec stamps dialect t (.handle record) c w).2 ∧
      ((exec stamps dialect t (.handle record) c w).1 = .ok () →
        .handled record true ∈ (exec stamps dialect t (.handle record) c w).2.log) := by
  obtain ⟨hi, hg⟩ := inv_handled hw record c.outcome.isOk
  refine ⟨hg, hi, fun hok => ?_⟩
  have hok : c.outcome = .ok () := hok
  simp [exec, World.update, hok, Except.isOk, Except.toBool]

theorem exec_markDone_keeps (stamps : Stamps) (dialect : Dialect) (t : T) {record : OutboxRecord}
    (c : Reply) (hw : Inv w)
    (hknown : ∃ row ∈ w.rows, row.Is record) (hhandled : .handled record true ∈ w.log) :
    Grows w (exec stamps dialect t (.markDone record.id) c w).2 ∧
      Inv (exec stamps dialect t (.markDone record.id) c w).2 := by
  refine attempt_keeps c hw fun a w' hw' => ?_
  obtain ⟨rows, hrows, he⟩ := map_eq_ok hw'
  cases he
  rw [markDone_eq_ok hrows]
  refine inv_mark hw t (fun _ => ⟨rfl, rfl, rfl⟩) (fun _ => by simp [Row.markedDone]) fun row hrow hid _ => ?_
  obtain ⟨row', hrow', his⟩ := hknown
  have hrow : row = row' := List.inj_on_of_nodup_map hw.ids hrow hrow' (hid.trans his.1.symm)
  exact ⟨record, hrow ▸ his, hhandled⟩

theorem exec_markFailed_keeps (stamps : Stamps) (dialect : Dialect) (t : T) (id : String)
    (retryAfter : Int) (c : Reply) (hw : Inv w) :
    Grows w (exec stamps dialect t (.markFailed id retryAfter) c w).2 ∧
      Inv (exec stamps dialect t (.markFailed id retryAfter) c w).2 := by
  refine attempt_keeps c hw fun a w' hw' => ?_
  obtain ⟨rows, hrows, he⟩ := map_eq_ok hw'
  cases he
  obtain ⟨next, _, rfl⟩ := markFailed_eq_ok hrows
  exact inv_mark hw t (fun _ => ⟨rfl, rfl, rfl⟩) (fun _ => by simp [Row.markedFailed])
    fun _ _ _ hstatus => (nomatch hstatus)

/-! ### The programs -/

abbrev duty (stamps : Stamps) (dialect : Dialect) (t : T) : Duty Op Res (World T) Reply :=
  ⟨exec stamps dialect t, Host.Free t, Inv, fun _ => Grows, fun _ => Grows⟩

def Known (records : List OutboxRecord) (w : World T) : Prop :=
  ∀ record ∈ records, ∃ row ∈ w.rows, row.Is record

theorem Known.grows {records : List OutboxRecord} {w' : World T} (h : Known records w) (hg : Grows w w') :
    Known records w' := by
  intro record hrecord
  obtain ⟨row, hrow, his⟩ := h record hrecord
  obtain ⟨row', hrow', hsame⟩ := hg.rows row hrow
  exact ⟨row', hrow', hsame.is his⟩

theorem triple_append (t : T) (record : OutboxRecord) : (duty stamps dialect t).Triple (fun _ => True)
    (prog (.append record)) fun _ _ => True := by
  refine Duty.triple_call (fun _ _ => True) (fun _ _ _ _ _ => trivial) (fun w c hw _ _ => ?_)
    fun _ => Duty.triple_ret fun _ _ _ => trivial
  obtain ⟨hg, hi⟩ := exec_append_keeps stamps dialect t record c hw
  exact ⟨hg, hi, trivial⟩

theorem triple_deliver (t : T) (records : List OutboxRecord) (report : RelayReport) :
    (duty stamps dialect t).Triple (Known records) (deliver records report) fun _ _ => True := by
  induction records generalizing report with
  | nil => exact Duty.triple_ret fun _ _ _ => trivial
  | cons record rest ih =>
    have hrest (w : World T) (h : Known (record :: rest) w) : Known rest w :=
      fun r hr => h r (List.mem_cons_of_mem record hr)
    refine Duty.triple_call (fun outcome w => Known (record :: rest) w ∧
      (outcome = .ok () → .handled record true ∈ w.log)) (fun w w' h hg _ => h.grows hg)
      (fun w c hw hknown _ => ?_) fun outcome => ?_
    · obtain ⟨hg, hi, hlog⟩ := exec_handle_keeps stamps dialect t record c hw
      exact ⟨hg, hi, hknown.grows hg, hlog⟩
    cases outcome with
    | ok _ =>
      refine Duty.triple_call (fun _ w => Known rest w)
        (fun w w' h hg _ => ⟨h.1.grows hg, fun hok => hg.log _ (h.2 hok)⟩)
        (fun w c hw h _ => ?_) fun result => ?_
      · obtain ⟨hg, hi⟩ := exec_markDone_keeps stamps dialect t c hw (h.1 record (by simp)) (h.2 rfl)
        exact ⟨hg, hi, (hrest w h.1).grows hg⟩
      cases result with
      | error e => exact Duty.triple_ret fun _ _ _ => trivial
      | ok _ => exact ih _
    | error _ =>
      refine Duty.triple_call (fun _ w => Known rest w)
        (fun w w' h hg _ => ⟨h.1.grows hg, fun hok => hg.log _ (h.2 hok)⟩)
        (fun w c hw h _ => ?_) fun result => ?_
      · obtain ⟨hg, hi⟩ := exec_markFailed_keeps stamps dialect t record.id (backoff record.attempts) c hw
        exact ⟨hg, hi, (hrest w h.1).grows hg⟩
      cases result with
      | error e => exact Duty.triple_ret fun _ _ _ => trivial
      | ok _ => exact ih _

theorem triple_runOnce (t : T) (batch : UInt32) (lease : Int) : (duty stamps dialect t).Triple (fun _ => True)
    (runOnce batch lease) fun _ _ => True := by
  rw [runOnce]
  split
  · exact Duty.triple_ret fun _ _ _ => trivial
  split
  · exact Duty.triple_ret fun _ _ _ => trivial
  refine Duty.triple_call (fun result w => ∀ records, result = .ok records → Known records w)
    (fun _ _ _ _ _ => trivial)
    (fun w c hw _ _ => exec_claim_keeps stamps dialect t batch lease c hw) fun result => ?_
  cases result with
  | error e => exact Duty.triple_ret fun _ _ _ => trivial
  | ok records => exact (triple_deliver t records _).weaken fun w _ h => h records rfl

/-! ### All of them together -/

def certificate (T : Type) (stamps : Stamps) (dialect : Dialect) :
    (relays T stamps dialect).Certificate Host.Free where
  inv := Inv
  rely _ _ := Grows
  guar _ _ := Grows
  post _ _ _ := True
  compat _ _ := True
  rely_refl _ _ := Grows.refl
  rely_trans _ _ _ _ _ := Grows.trans
  post_stable _ _ _ _ _ _ _ := trivial
  start s t c hw _ := by
    cases c with
    | append record => exact triple_append t record _ hw trivial
    | runOnce batch lease =>
      exact Duty.safe_seq (triple_runOnce t batch lease _ hw trivial) fun _ _ _ => trivial
  apart _ _ _ _ _ _ _ _ := ⟨trivial, trivial⟩
  peer _ _ _ _ _ _ _ _ _ hg _ := hg
  crash _ hw := hw
  env _ w w' := by
    rintro ⟨t, _, _, rfl⟩ hw
    exact ⟨⟨hw.ids, hw.kept, hw.leased, hw.handled⟩, fun _ => ⟨(Grows.refl w).rows, (Grows.refl w).log⟩⟩

theorem inv_of_reach [DecidableEq T] {now : Int} {s : Sys T Op Res Outcome (World T)}
    (h : (relays T stamps dialect).Reach Host.Free (empty T now) s) : Inv s.world :=
  ((certificate T stamps dialect).good_of_reach (inv_empty now) h).inv

end Ecat.Outbox
