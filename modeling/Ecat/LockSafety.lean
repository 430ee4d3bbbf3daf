import Ecat.FenceLock

/-! Clients of one lock key: what each of them has been granted, that no two of them hold the lock
at a time, and that fences only go up. -/

namespace Ecat.Lock

/-- A grant that its client has not given back, with the time the client knows it to last. -/
structure Lease where
  token : String
  expiresAt : Nat
  deriving DecidableEq, Repr

structure Clients where
  redis : Redis
  leases : List Lease
  deriving DecidableEq, Repr

namespace Clients

def settle (now : Nat) (leases : List Lease) : Act → Reply → List Lease
  | .acquireFenced _ ttl, .guard token _ => ⟨token, now + ttlMillis ttl⟩ :: leases
  | .acquire token ttl, .done => ⟨token, now + ttlMillis ttl⟩ :: leases
  | .renew token ttl, .done =>
    leases.map fun l => if l.token = token then ⟨token, now + ttlMillis ttl⟩ else l
  | .release token, _ => leases.filter fun l => l.token ≠ token
  | _, _ => leases

def step (s : Clients) (a : Act) : Option Clients :=
  some ⟨(s.redis.exec a).2, settle s.redis.now s.leases a (s.redis.exec a).1⟩

def start (now : Nat) : Clients := ⟨.start now, []⟩

def live (s : Clients) (l : Lease) : Bool := s.redis.now < l.expiresAt

end Clients

/-- The token that a call brings along, new for every attempt to acquire. -/
def Act.newToken : Act → Option String
  | .acquireFenced token _ => some token
  | .acquire token _ => some token
  | _ => none

def Reply.fence : Reply → Option Nat
  | .guard _ fence => some fence
  | _ => Option.none

/-- The fences that the calls of a run returned. -/
def fences (past : List (Clients × Act × Clients)) : List Nat :=
  past.filterMap fun e => (e.1.redis.exec e.2.1).1.fence

namespace Redis

variable {r : Redis} {token : String} {ttl : Nat}

/-! ### One call -/

/-- A call that grants the lock finds it free, and stores its token until the time to live is over. -/
structure Grants (r : Redis) (token : String) (ttl : Nat) (r' : Redis) : Prop where
  free : r.get = none
  lock : r'.lock = some ⟨token, r.now + ttlMillis ttl⟩
  now : r'.now = r.now

theorem acquireFenced_cases (r : Redis) (token : String) (ttl : Nat) :
    ((r.acquireFenced token ttl).1 = .guard token (r.fence + 1) ∧
      r.Grants token ttl (r.acquireFenced token ttl).2) ∨
    ((∀ t f, (r.acquireFenced token ttl).1 ≠ .guard t f) ∧ (r.acquireFenced token ttl).2.lock = r.lock ∧
      (r.acquireFenced token ttl).2.now = r.now) := by
  by_cases hfull : r.fence = i64Max
  · right
    rw [acquireFenced_full hfull]
    simp
  · by_cases hc : r.get.isSome ∨ r.validPx (ttlMillis ttl) = false
    · right
      refine ⟨(acquireFenced_contended hfull hc).1, ?_⟩
      obtain ⟨answer, hset, hne⟩ := @setNx_refused _ token _ ((contended_bump (n := r.fence + 1)).2 hc)
      simp only [acquireFenced, fenceScript, if_neg hfull, hset]
      rcases answer with _ | _ | _ <;> simp_all
    · left
      rw [acquireFenced_free hfull hc]
      refine ⟨rfl, ?_, rfl, rfl⟩
      simpa using (not_or.1 hc).1

theorem acquire_cases (r : Redis) (token : String) (ttl : Nat) :
    ((r.acquire token ttl).1 = .done ∧ r.Grants token ttl (r.acquire token ttl).2) ∨
    ((r.acquire token ttl).1 ≠ .done ∧ (r.acquire token ttl).2 = r) := by
  by_cases hc : r.get.isSome ∨ r.validPx (ttlMillis ttl) = false
  · right
    obtain ⟨answer, hset, hne⟩ := @setNx_refused r token _ hc
    simp only [acquire, hset]
    rcases answer with _ | _ | _ <;> simp_all
  · left
    have hset := @setNx_granted r token _ hc
    simp only [acquire, hset]
    refine ⟨trivial, ?_, rfl, rfl⟩
    simpa using (not_or.1 hc).1

theorem renew_stranger (h : r.get.map Held.token ≠ some token) (ttl : Nat) :
    r.renew token ttl = (.failed, r) := by
  rw [renew, if_neg h]

theorem release_stranger (h : r.get.map Held.token ≠ some token) : r.release token = (.done, r) := by
  rw [release, if_neg h]

/-- A renewal that succeeds is the holder's, and a time to live of zero ends the lock at once. -/
theorem renew_done (h : (r.renew token ttl).1 = .done) : r.get.map Held.token = some token ∧
    (r.renew token ttl).2.now = r.now ∧
    ((r.renew token ttl).2.lock = some ⟨token, r.now + ttlMillis ttl⟩ ∨
      (r.renew token ttl).2.lock = none ∧ ttlMillis ttl = 0) := by
  by_cases hholder : r.get.map Held.token = some token
  · refine ⟨hholder, ?_⟩
    unfold renew at h ⊢
    simp only [hholder, if_true] at h ⊢
    split at h
    · cases h
    · rename_i hle
      rw [if_neg hle]
      split
      · rename_i hzero
        exact ⟨rfl, .inr ⟨rfl, hzero⟩⟩
      · exact ⟨rfl, .inl rfl⟩
  · rw [renew_stranger hholder] at h
    cases h

theorem renew_failed (h : (r.renew token ttl).1 ≠ .done) : (r.renew token ttl).2 = r := by
  unfold renew at h ⊢
  dsimp only at h ⊢
  split at h
  · split at h
    · rename_i hholder hle
      rw [if_pos hholder, if_pos hle]
    · split at h <;> exact absurd rfl h
  · rename_i hholder
    rw [if_neg hholder]

/-- Only `acquire_fenced` returns a fence, the next one that the counter has. -/
theorem exec_fence_eq {a : Act} {fence : Nat} (h : (r.exec a).1.fence = some fence) :
    fence = r.fence + 1 ∧ (r.exec a).2.fence = fence := by
  cases a with
  | acquireFenced token ttl =>
    rcases acquireFenced_cases r token ttl with ⟨hreply, _⟩ | ⟨hno, _⟩
    · have hguard : r.acquireFenced token ttl = (.guard token (r.fence + 1), (r.acquireFenced token ttl).2) :=
        Prod.ext hreply rfl
      have hfence := (acquireFenced_guard hguard).1
      simp only [exec, hreply, Reply.fence, Option.some.injEq] at h
      exact ⟨h.symm, hfence.trans h⟩
    · simp only [exec] at h
      cases hr : (r.acquireFenced token ttl).1 with
      | guard t f => exact absurd hr (hno t f)
      | _ => simp [hr, Reply.fence] at h
  | acquire token ttl =>
    simp only [exec, acquire] at h
    split at h <;> cases h
  | renew token ttl =>
    simp only [exec, renew] at h
    split at h
    · split at h
      · cases h
      · split at h <;> cases h
    · cases h
  | release token =>
    simp only [exec, release] at h
    split at h <;> cases h
  | validateFence f => cases h
  | tick millis => cases h

end Redis

/-! ### Holders -/

namespace Clients

variable {s s' : Clients} {tokens : List String} {token : String} {ttl : Nat} {a : Act}

/-- A lease that has not run out is the lock that Redis stores. -/
structure Inv (tokens : List String) (s : Clients) : Prop where
  known : ∀ l ∈ s.leases, l.token ∈ tokens
  nodup : (s.leases.map Lease.token).Nodup
  held : ∀ l ∈ s.leases, s.live l = true → s.redis.lock = some ⟨l.token, l.expiresAt⟩

theorem Inv.get (h : s.Inv tokens) {l : Lease} (hl : l ∈ s.leases) (hlive : s.live l = true) :
    s.redis.get = some ⟨l.token, l.expiresAt⟩ := by
  rw [Redis.get, h.held l hl hlive]
  simpa [Option.filter, live] using hlive

theorem Inv.keep (h : s.Inv tokens) {more : List String} {r : Redis} (hlock : r.lock = s.redis.lock)
    (hnow : s.redis.now ≤ r.now) : Inv (tokens ++ more) ⟨r, s.leases⟩ := by
  refine ⟨fun l hl => List.mem_append_left _ (h.known l hl), h.nodup, fun l hl hlive => ?_⟩
  rw [hlock]
  refine h.held l hl ?_
  simp only [live, decide_eq_true_eq] at hlive ⊢
  omega

theorem Inv.grant (h : s.Inv tokens) {r : Redis} (hgrants : s.redis.Grants token ttl r) (hnew : token ∉ tokens) :
    Inv (tokens ++ [token]) ⟨r, ⟨token, s.redis.now + ttlMillis ttl⟩ :: s.leases⟩ := by
  refine ⟨?_, ?_, ?_⟩
  · refine List.forall_mem_cons.2 ⟨by simp, fun l hl => List.mem_append_left _ (h.known l hl)⟩
  · rw [List.map_cons, List.nodup_cons]
    refine ⟨fun hmem => ?_, h.nodup⟩
    obtain ⟨l, hl, htoken⟩ := List.mem_map.1 hmem
    have htoken : l.token = token := htoken
    exact hnew (htoken ▸ h.known l hl)
  · refine List.forall_mem_cons.2 ⟨fun _ => hgrants.lock, fun l hl hlive => ?_⟩
    -- an older lease that still ran would have kept the lock
    have hget := h.get hl (show s.live l = true by simpa [live, hgrants.now] using hlive)
    rw [hgrants.free] at hget
    cases hget

theorem Inv.holder (h : s.Inv tokens) (hholder : s.redis.get.map Held.token = some token) {l : Lease}
    (hl : l ∈ s.leases) (hlive : s.live l = true) : l.token = token := by
  rw [h.get hl hlive] at hholder
  exact Option.some.inj hholder

theorem Inv.renew (h : s.Inv tokens) (hdone : (s.redis.renew token ttl).1 = .done) :
    Inv tokens ⟨(s.redis.renew token ttl).2, s.leases.map fun l =>
      if l.token = token then ⟨token, s.redis.now + ttlMillis ttl⟩ else l⟩ := by
  obtain ⟨hholder, hnow, hlock⟩ := Redis.renew_done hdone
  have hsame : ∀ l : Lease, (if l.token = token then (⟨token, s.redis.now + ttlMillis ttl⟩ : Lease) else l).token =
      l.token := by
    intro l
    split
    · rename_i htoken
      exact htoken.symm
    · rfl
  refine ⟨?_, ?_, ?_⟩
  · rw [List.forall_mem_map]
    intro l hl
    rw [hsame]
    exact h.known l hl
  · rw [List.map_map, show Lease.token ∘ _ = Lease.token from funext hsame]
    exact h.nodup
  · rw [List.forall_mem_map]
    intro l hl hlive
    simp only [live, hnow, decide_eq_true_eq] at hlive
    by_cases htoken : l.token = token
    · rw [if_pos htoken] at hlive ⊢
      rcases hlock with hlock | ⟨_, hzero⟩
      · exact hlock
      · simp [hzero] at hlive
    · rw [if_neg htoken] at hlive
      exact absurd (h.holder hholder hl (by simpa [live] using hlive)) htoken

theorem Inv.release (h : s.Inv tokens) (token : String) :
    Inv tokens ⟨(s.redis.release token).2, s.leases.filter fun l => l.token ≠ token⟩ := by
  have hmem : ∀ l ∈ s.leases.filter (fun l => l.token ≠ token), l ∈ s.leases ∧ l.token ≠ token := by
    intro l hl
    simpa using List.mem_filter.1 hl
  refine ⟨fun l hl => h.known l (hmem l hl).1, h.nodup.sublist (List.filter_sublist.map _), fun l hl hlive => ?_⟩
  obtain ⟨hl, hne⟩ := hmem l hl
  by_cases hholder : s.redis.get.map Held.token = some token
  · have hnow : (s.redis.release token).2.now = s.redis.now := by simp [Redis.release, hholder]
    exact absurd (h.holder hholder hl (by simpa [live, hnow] using hlive)) hne
  · rw [Redis.release_stranger hholder] at hlive ⊢
    exact h.held l hl hlive

theorem Inv.step (h : s.Inv tokens) (hnew : ∀ token ∈ a.newToken, token ∉ tokens) (hstep : s.step a = some s') :
    s'.Inv (tokens ++ a.newToken.toList) := by
  cases hstep
  cases a with
  | acquireFenced token ttl =>
    simp only [Redis.exec, Act.newToken, Option.toList_some]
    rcases Redis.acquireFenced_cases s.redis token ttl with ⟨hreply, hgrants⟩ | ⟨hreply, hlock, hnow⟩
    · rw [hreply]
      exact h.grant hgrants (hnew token rfl)
    · have hleases : settle s.redis.now s.leases (.acquireFenced token ttl) (s.redis.acquireFenced token ttl).1 =
          s.leases := by
        cases hr : (s.redis.acquireFenced token ttl).1 with
        | guard t f => exact absurd hr (hreply t f)
        | _ => rfl
      rw [hleases]
      exact h.keep hlock hnow.ge
  | acquire token ttl =>
    simp only [Redis.exec, Act.newToken, Option.toList_some]
    rcases Redis.acquire_cases s.redis token ttl with ⟨hreply, hgrants⟩ | ⟨hreply, hsame⟩
    · rw [hreply]
      exact h.grant hgrants (hnew token rfl)
    · have hleases : settle s.redis.now s.leases (.acquire token ttl) (s.redis.acquire token ttl).1 =
          s.leases := by
        cases hr : (s.redis.acquire token ttl).1 with
        | done => exact absurd hr hreply
        | _ => rfl
      rw [hleases, hsame]
      exact h.keep rfl le_rfl
  | renew token ttl =>
    simp only [Redis.exec, Act.newToken, Option.toList_none, List.append_nil]
    by_cases hdone : (s.redis.renew token ttl).1 = .done
    · rw [hdone]
      exact h.renew hdone
    · have hleases : settle s.redis.now s.leases (.renew token ttl) (s.redis.renew token ttl).1 = s.leases := by
        cases hr : (s.redis.renew token ttl).1 with
        | done => exact absurd hr hdone
        | _ => rfl
      rw [hleases, Redis.renew_failed hdone]
      exact h
  | release token =>
    simp only [Redis.exec, Act.newToken, Option.toList_none, List.append_nil]
    exact h.release token
  | validateFence fence => exact h.keep rfl le_rfl
  | tick millis => exact h.keep rfl (Nat.le_add_right _ _)

theorem Inv.at_most_one (h : s.Inv tokens) : s.leases.countP s.live ≤ 1 := by
  rw [List.countP_eq_length_filter]
  have hnodup : (s.leases.filter s.live).Nodup := (List.Nodup.of_map _ h.nodup).filter _
  have hsame : ∀ l ∈ s.leases.filter s.live, ∀ l' ∈ s.leases.filter s.live, l = l' := by
    intro l hl l' hl'
    obtain ⟨hl, hlive⟩ := List.mem_filter.1 hl
    obtain ⟨hl', hlive'⟩ := List.mem_filter.1 hl'
    have hget := (h.get hl hlive).symm.trans (h.get hl' hlive')
    refine List.inj_on_of_nodup_map h.nodup hl hl' ?_
    exact congrArg Held.token (Option.some.inj hget)
  cases hf : s.leases.filter s.live with
  | nil => simp
  | cons l rest =>
    cases rest with
    | nil => simp
    | cons l' rest =>
      rw [hf] at hnodup hsame
      have heq := hsame l (by simp) l' (by simp)
      simp [heq] at hnodup

/-! ### Fences -/

theorem fences_snoc (past : List (Clients × Act × Clients)) (s : Clients) (a : Act) (t : Clients) :
    fences (past ++ [(s, a, t)]) = fences past ++ (s.redis.exec a).1.fence.toList := by
  rw [fences, List.filterMap_append, fences]
  cases h : (s.redis.exec a).1.fence <;> simp [h]

/-- The fences returned so far go up, and the counter has reached the last of them. -/
structure Fenced (fences : List Nat) (s : Clients) : Prop where
  le_max : s.redis.fence ≤ i64Max
  increasing : fences.Pairwise (· < ·)
  reached : ∀ f ∈ fences, f ≤ s.redis.fence

theorem Fenced.step {past : List (Clients × Act × Clients)} (h : Fenced (fences past) s)
    (hstep : s.step a = some s') : Fenced (fences (past ++ [(s, a, s')])) s' := by
  cases hstep
  rw [fences_snoc]
  cases hfence : (s.redis.exec a).1.fence with
  | none =>
    rw [Option.toList_none, List.append_nil]
    refine ⟨Redis.exec_fence_le h.le_max a, h.increasing, fun f hf => (h.reached f hf).trans ?_⟩
    rcases Redis.exec_fence h.le_max a with ⟨heq, _⟩ | ⟨heq, _⟩
    · exact heq.ge
    · exact (Nat.le_succ _).trans heq.ge
  | some fence =>
    obtain ⟨hnext, hcounter⟩ := Redis.exec_fence_eq hfence
    have hlt : ∀ f ∈ fences past, f < fence := fun f hf => hnext ▸ Nat.lt_succ_of_le (h.reached f hf)
    refine ⟨Redis.exec_fence_le h.le_max a, List.pairwise_append.2 ⟨h.increasing, by simp, by simpa using hlt⟩, ?_⟩
    intro f hf
    show f ≤ (s.redis.exec a).2.fence
    rw [hcounter]
    rcases List.mem_append.1 hf with hf | hf
    · exact (hlt f hf).le
    · rw [List.mem_singleton.1 hf]

/-! ### Runs -/

theorem inv_of_run {now : Nat} {acts : List Act} (htokens : (acts.filterMap Act.newToken).Nodup)
    (hrun : runFrom step (start now) acts = some s) : s.Inv (acts.filterMap Act.newToken) := by
  have hacts := steps_acts hrun
  have hinv : (((steps step (start now) acts).map fun e => e.2.1).filterMap Act.newToken).Nodup →
      s.Inv (((steps step (start now) acts).map fun e => e.2.1).filterMap Act.newToken) := by
    apply steps_invariant (Q := fun past s => ((past.map fun e => e.2.1).filterMap Act.newToken).Nodup →
      s.Inv ((past.map fun e => e.2.1).filterMap Act.newToken)) ?_ ?_ hrun
    · intro _
      exact ⟨by simp [start], by simp [start], by simp [start]⟩
    · intro past s a t h hstep hnodup
      have hsnoc : (past ++ [(s, a, t)]).map (fun e => e.2.1) = past.map (fun e => e.2.1) ++ [a] := by simp
      have hnew : [a].filterMap Act.newToken = a.newToken.toList := by cases ha : a.newToken <;> simp [ha]
      rw [hsnoc, List.filterMap_append, hnew] at hnodup ⊢
      refine (h hnodup.of_append_left).step (fun token htoken hmem => ?_) hstep
      exact List.disjoint_of_nodup_append hnodup hmem (by simpa using htoken)
  rw [hacts] at hinv
  exact hinv htokens

/-- In every run with fresh tokens at most one client's lock runs at any moment, only its holder can
release or renew it, the fences go up, and no fence below one that was returned is valid again. -/
theorem lock_safety (now : Nat) (acts : List Act) (htokens : (acts.filterMap Act.newToken).Nodup) (s : Clients)
    (hrun : runFrom step (start now) acts = some s) :
    s.leases.countP s.live ≤ 1 ∧
    (∀ token, s.redis.get.map Held.token ≠ some token →
      (s.redis.release token).2 = s.redis ∧ ∀ ttl, s.redis.renew token ttl = (.failed, s.redis)) ∧
    (fences (steps step (start now) acts)).Pairwise (· < ·) ∧
    ∀ g ∈ fences (steps step (start now) acts), ∀ f < g, s.redis.validateFence f = false := by
  have hfenced : Fenced (fences (steps step (start now) acts)) s :=
    steps_invariant (Q := fun past s => Fenced (fences past) s) ⟨Nat.zero_le _, by simp [fences], by simp [fences]⟩
      (fun _ _ _ _ h hstep => h.step hstep) hrun
  refine ⟨(inv_of_run htokens hrun).at_most_one, fun token hstranger => ?_, hfenced.increasing, fun g hg f hlt => ?_⟩
  · rw [Redis.release_stranger hstranger]
    exact ⟨rfl, Redis.renew_stranger hstranger⟩
  · have hreached := hfenced.reached g hg
    simp only [Redis.validateFence, decide_eq_false_iff_not]
    omega

def handOver : List Act :=
  [.acquireFenced "a" 30000, .acquire "b" 30000, .renew "a" 20000, .tick 20000, .acquireFenced "c" 30000, .release "a"]

theorem lock_safety_hand_over : ∃ s, runFrom step (start 0) handOver = some s ∧
    s.redis = ⟨some ⟨"c", 50000⟩, 2, 20000⟩ ∧ s.leases.countP s.live ≤ 1 ∧
    (s.redis.release "a").2 = s.redis ∧ s.redis.renew "a" 20000 = (.failed, s.redis) ∧
    fences (steps step (start 0) handOver) = [1, 2] ∧
    (fences (steps step (start 0) handOver)).Pairwise (· < ·) ∧ s.redis.validateFence 1 = false := by
  have hends : (runFrom step (start 0) handOver).map (fun s => s.redis) = some ⟨some ⟨"c", 50000⟩, 2, 20000⟩ := by
    decide
  have hfences : fences (steps step (start 0) handOver) = [1, 2] := by decide
  obtain ⟨s, hrun, hredis⟩ := Option.map_eq_some_iff.1 hends
  obtain ⟨hone, hstranger, hincreasing, hold⟩ := lock_safety 0 handOver (by decide) s hrun
  have hgone : s.redis.get.map Held.token ≠ some "a" := by
    rw [hredis]
    decide
  refine ⟨s, hrun, hredis, hone, (hstranger "a" hgone).1, (hstranger "a" hgone).2 20000, hfences, hincreasing, ?_⟩
  exact hold 2 (hfences ▸ List.mem_cons_of_mem 1 (List.mem_singleton_self 2)) 1 Nat.one_lt_two

end Clients

end Ecat.Lock
