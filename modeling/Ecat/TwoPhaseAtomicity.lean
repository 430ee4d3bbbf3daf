import Ecat.TwoPhaseRecovery

/-! Atomicity and truthful terminal rows, in every state of every run with crashes,
lost calls and recoveries. -/

namespace Ecat.TwoPhase

variable {clean : Prop} {x : Xid}

def Outcome.Kept (x : Xid) (v : View) : Outcome → Prop
  | .committed tx (.ok _) => tx.id = x ∧ ∀ p ∈ tx.participants, v.branch p = .committed
  | .rolledBack tx (.ok _) => tx.id = x ∧ ∀ p, v.branch p ≠ .committed
  | _ => True

theorem runs_executeAll {P : View → Prop} (tx : DistributedTx) (work : List Name) :
    Runs clean x P (executeAll tx work) fun _ => P := by
  induction work with
  | nil => exact runs_ret fun _ h => h
  | cons p ps ih =>
    refine runs_bind (Q := fun _ => P) ?_ fun _ => ih
    by_cases hp : p ∈ tx.participants
    · rw [DistributedTx.execute, if_pos hp]
      exact runs_read (o := .execute p tx.id) (k := .ret) rfl (fun _ => rfl) (fun _ => P)
        (fun _ _ h => h) (fun _ _ h => h) fun _ => runs_ret fun _ h => h
    · rw [DistributedTx.execute, if_neg hp]
      exact runs_ret fun _ h => h

theorem runs_finish (ps : List Name) (f : Finish) :
    Runs clean x (fun v => v.row = some ⟨x, .started, ps, none⟩) (finish ⟨x, ps⟩ f)
      fun o v => o.Kept x v := by
  cases f with
  | drop => exact runs_ret fun _ _ => trivial
  | commit =>
    refine runs_bind (runs_commit ps) ?_
    rintro (e | u)
    · exact runs_ret fun _ _ => trivial
    · exact runs_ret fun _ h => ⟨rfl, h rfl⟩
  | rollback =>
    refine runs_bind (runs_rollback ps) ?_
    rintro (e | u)
    · exact runs_ret fun _ _ => trivial
    · exact runs_ret fun _ h => ⟨rfl, h rfl⟩

theorem runs_client (registered participants work : List Name) (f : Finish) :
    Runs clean x (fun v => v.row = none) (client x registered participants work f)
      fun o v => o.Kept x v := by
  refine runs_bind (runs_begin registered participants) ?_
  rintro (e | ⟨id, ps⟩)
  · exact runs_ret fun _ _ => trivial
  · by_cases hid : id = x
    · subst hid
      exact runs_bind ((runs_executeAll _ work).weaken fun v _ h => (h _ rfl).2) fun _ => runs_finish ps f
    · exact fun w _ h => absurd (h _ rfl).1 hid

theorem crash_ok {w : World} (h : (w.view x).Ok clean) : ((crash w).view x).Ok clean := by
  have lost : ∀ p, w.branch p x = .none → (crash w).branch p x = .none := by
    intro p hp
    simp [crash, hp]
  have kept : ∀ p b, b ≠ .active → b ≠ .none → ((crash w).branch p x = b ↔ w.branch p x = b) := by
    intro p b hb hn
    by_cases hp : w.branch p x = .active
    · simp [crash, hp, Ne.symm hb, Ne.symm hn]
    · simp [crash, hp]
  have gone : ∀ p, (crash w).branch p x ≠ .active := by
    intro p hp
    by_cases ha : w.branch p x = .active
    · simp [crash, ha] at hp
    · simp [crash, ha] at hp
  have comm := fun p => kept p .committed (by decide) (by decide)
  have prep := fun p => kept p .prepared (by decide) (by decide)
  have hrow : ((crash w).view x).row = (w.view x).row := rfl
  unfold View.Ok at h ⊢
  rw [hrow]
  cases hr : (w.view x).row with
  | none =>
    rw [hr] at h
    exact fun p => lost p (h p)
  | some r =>
    rw [hr] at h
    refine ⟨fun p hp => lost p (h.1 p hp), ?_⟩
    have hs := h.2
    cases hst : r.status <;> rw [hst] at hs <;> simp only [World.view, ne_eq, comm, prep]
    · exact hs
    · exact hs
    · exact hs
    · exact hs
    · exact hs
    · exact fun p => ⟨(hs p).1, fun hcl => ⟨gone p, ((hs p).2 hcl).2⟩⟩

theorem crash_inv {w : World} (h : Inv clean w) : Inv clean (crash w) :=
  ⟨h.ids, fun y => crash_ok (h.views y)⟩

def rely : Thread → World → World → Prop
  | .tx x, w, w' => w'.view x = w.view x
  | .recovery, w, w' => w' = w

def guar : Thread → World → World → Prop
  | .tx x, w, w' => ∀ y, y ≠ x → w'.view y = w.view y
  | .recovery, _, _ => True

def post : Thread → Outcome → World → Prop
  | .tx x, o, w => o.Kept x (w.view x)
  | .recovery, _, _ => True

def compat : Thread → Thread → Prop
  | .tx _, .tx _ => True
  | _, _ => False

def certificate (clean : Prop) :
    host.Certificate fun t o c w => clean → CleanupEffective t o c w where
  inv := Inv clean
  rely t _ := rely t
  guar t _ := guar t
  post := post
  compat := compat
  rely_refl := by
    rintro (x | _) o w
    · exact rfl
    · exact rfl
  rely_trans := by
    rintro (x | _) o a b c hab hbc
    · exact Eq.trans hbc hab
    · exact Eq.trans hbc hab
  post_stable := by
    rintro (x | _) o w w' hp hr _
    · have hv : w'.view x = w.view x := hr
      simpa only [post, hv] using hp
    · trivial
  start := by
    rintro s (x | _) (⟨registered, participants, work, f⟩ | registered) hi ok
    · exact runs_client registered participants work f s.world hi ok.1
    · exact ok.elim
    · exact ok.elim
    · exact Duty.safe_seq (recover_safe registered hi) fun _ _ _ => trivial
  apart := by
    rintro s (x | _) (y | _) (_ | _) p ok hne hu
    · exact ⟨trivial, trivial⟩
    · exact ok.elim
    · rw [ok.2] at hu
      cases hu
    · exact ok.elim
    · exact ok.elim
    · rw [ok y] at hu
      cases hu
    · exact ok.elim
    · exact absurd rfl hne
  peer := by
    rintro (x | _) (y | _) o w w' hc hne _ _ hg _
    · exact hg y fun he => hne (he ▸ rfl)
    · exact hc.elim
    · exact hc.elim
    · exact hc.elim
  crash _ := crash_inv
  env _ _ _ h := h.elim

theorem inv_init : Inv clean init.world := ⟨List.nodup_nil, fun _ _ => rfl⟩

theorem good_of_run {s : Sys Thread Op Res Outcome World} (h : host.Reach Host.Free init s) :
    (certificate False).Good s :=
  (certificate False).good_of_reach inv_init (h.mono fun _ _ _ _ _ hf => hf.elim)

theorem not_mixed {w : World} (h : Inv clean w) (p q : Name) :
    ¬(w.branch p x = .committed ∧ w.branch q x = .rolledBack) := by
  rintro ⟨hp, hq⟩
  have hv := h.views x
  unfold View.Ok at hv
  split at hv
  · next hrow => exact absurd (hp.symm.trans (hv p)) (by decide)
  · next r hrow =>
    have hmem : q ∈ r.participants := by
      by_contra hn
      exact absurd (hq.symm.trans (hv.1 q hn)) (by decide)
    have hs := hv.2
    cases hst : r.status <;> rw [hst] at hs
    · exact hs p hp
    · exact (hs.2 q hmem).elim (fun he => absurd (hq.symm.trans he) (by decide))
        (fun he => absurd (hq.symm.trans he) (by decide))
    · exact (hs.2 q hmem).elim (fun he => absurd (hq.symm.trans he) (by decide))
        (fun he => absurd (hq.symm.trans he) (by decide))
    · exact absurd (hq.symm.trans (hs q hmem)) (by decide)
    · exact hs p hp
    · exact (hs p).1 hp

/-- No transaction is committed at one participant and rolled back at another,
and a successful `commit` or `rollback` is one at every participant. -/
theorem transaction_atomic {s : Sys Thread Op Res Outcome World} (h : host.Reach Host.Free init s) :
    (∀ x p q, ¬(s.world.branch p x = .committed ∧ s.world.branch q x = .rolledBack)) ∧
    (∀ x tx, s.thread (.tx x) = some (.ret (.committed tx (.ok ()))) →
      ∀ p ∈ tx.participants, s.world.branch p tx.id = .committed) ∧
    (∀ x tx, s.thread (.tx x) = some (.ret (.rolledBack tx (.ok ()))) →
      ∀ p, s.world.branch p tx.id ≠ .committed) := by
  have hgood := good_of_run h
  refine ⟨fun x p q => not_mixed hgood.inv p q, ?_, ?_⟩
  · intro x tx ht
    have hkept : tx.id = x ∧ ∀ p ∈ tx.participants, s.world.branch p x = .committed :=
      hgood.safe (.tx x) _ ht
    exact hkept.1 ▸ hkept.2
  · intro x tx ht
    have hkept : tx.id = x ∧ ∀ p, s.world.branch p x ≠ .committed := hgood.safe (.tx x) _ ht
    exact hkept.1 ▸ hkept.2

theorem transaction_atomic_two_participants :
    ∃ s, host.Reach Host.Free init s ∧ ∀ p ∈ ["a", "b"], s.world.branch p "x" = .committed := by
  have hrun := Host.Reach.launch host Host.Free (.tx "x")
    (.transact ["a", "b"] ["a", "b"] [] .commit) (List.replicate 14 .ok) init rfl ⟨rfl, rfl⟩
    (Host.permits_free ..)
  exact ⟨_, hrun, (transaction_atomic hrun).2.1 "x" ⟨"x", ["a", "b"]⟩ rfl⟩

theorem cleanup_effective_reply (t : Thread) (o : Op) (w : World) {c : Reply}
    (hc : ∀ e, c ≠ .lost false e) : CleanupEffective t o c w := by
  unfold CleanupEffective
  split
  · next e => exact absurd rfl (hc e)
  · trivial

/-- A terminal row is truthful in every run where the rollback of a participant
whose START failed is not lost with the branch still active. -/
theorem terminal_row_truthful {s : Sys Thread Op Res Outcome World}
    (h : host.Reach CleanupEffective init s) : ∀ r ∈ s.world.log,
      (r.status = .committed → ∀ p ∈ r.participants, s.world.branch p r.id = .committed) ∧
      (r.status = .rolledBack →
        ∀ p, s.world.branch p r.id ≠ .active ∧ s.world.branch p r.id ≠ .prepared) := by
  have hgood := (certificate True).good_of_reach inv_init (h.mono fun _ _ _ _ hc _ => hc)
  have hinv : Inv True s.world := hgood.inv
  intro r hr
  have hok := (View.ok_row (row_of_mem hinv.ids hr)).mp (hinv.views r.id)
  obtain ⟨id, status, ps, decision⟩ := r
  constructor
  · rintro rfl p hp
    exact hok.2 p hp
  · rintro rfl p
    exact (hok.2 p).2 trivial

/-- START at the second of two participants takes effect but its reply is lost. -/
def failedStart : List Reply :=
  [.ok, .ok, .ok, .lost true (.database "connection reset"), .ok, .ok, .ok, .ok, .ok]

theorem terminal_row_truthful_failed_start :
    ∃ s r, host.Reach CleanupEffective init s ∧ r ∈ s.world.log ∧ r.status = .rolledBack ∧
      ∀ p, s.world.branch p r.id ≠ .active ∧ s.world.branch p r.id ≠ .prepared := by
  have hrun := Host.Reach.launch host CleanupEffective (.tx "x")
    (.transact ["a", "b"] ["a", "b"] [] .commit) failedStart init rfl ⟨rfl, rfl⟩
    (CallTree.permits_of_forall (fun c hc o w => cleanup_effective_reply _ o w (by
      rintro e rfl
      simp [failedStart] at hc)) _ _)
  refine ⟨_, ⟨"x", .rolledBack, ["a", "b"], some .rollback⟩, hrun, by decide, rfl, ?_⟩
  exact (terminal_row_truthful hrun _ (by decide)).2 rfl

/-- The only participant's START takes effect but its reply is lost, and so is
its rollback; `begin` still records the transaction as rolled back. -/
theorem terminal_row_not_truthful :
    ¬∀ s, host.Reach Host.Free init s → ∀ r ∈ s.world.log,
      (r.status = .committed → ∀ p ∈ r.participants, s.world.branch p r.id = .committed) ∧
      (r.status = .rolledBack →
        ∀ p, s.world.branch p r.id ≠ .active ∧ s.world.branch p r.id ≠ .prepared) := by
  intro hall
  have hrun := Host.Reach.launch host Host.Free (.tx "x") (.transact ["a"] ["a"] [] .commit)
    [.ok, .ok, .lost true (.database "connection reset"), .ok,
      .lost false (.database "connection reset"), .ok]
    init rfl ⟨rfl, rfl⟩ (Host.permits_free ..)
  exact ((hall _ hrun ⟨"x", .rolledBack, ["a"], some .rollback⟩ (by decide)).2 rfl "a").1 rfl

end Ecat.TwoPhase
