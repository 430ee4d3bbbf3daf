import Ecat.Runs
import Mathlib

/-! The Redis lock with fences on one key: the scripts as the server runs them, the clock that
expires the lock, and when a holder's fence is rejected. -/

namespace Ecat.Lock

structure Held where
  token : String
  expiresAt : Nat
  deriving DecidableEq, Repr

/-- The lock key, the counter at `fence_key`, and the server's clock in milliseconds. -/
structure Redis where
  lock : Option Held
  fence : Nat
  now : Nat
  deriving DecidableEq, Repr

def i64Max : Nat := 2 ^ 63 - 1

def ttlMillis (millis : Nat) : Nat := min millis (2 ^ 64 - 1)

inductive Act
  | acquireFenced (token : String) (ttl : Nat)
  | acquire (token : String) (ttl : Nat)
  | renew (token : String) (ttl : Nat)
  | release (token : String)
  | validateFence (fence : Nat)
  | tick (millis : Nat)
  deriving DecidableEq, Repr

inductive Reply
  | none
  | guard (token : String) (fence : Nat)
  | done
  | failed
  | valid (answer : Bool)
  deriving DecidableEq, Repr

namespace Redis

def get (r : Redis) : Option Held := r.lock.filter fun h => r.now < h.expiresAt

/-- Redis refuses a time to live that is not positive or that overflows the clock. -/
def validPx (r : Redis) (px : Nat) : Bool := 0 < px ∧ r.now + px ≤ i64Max

def setNx (r : Redis) (token : String) (px : Nat) : Option Bool × Redis :=
  if r.validPx px = false then (none, r)
  else if r.get.isSome then (some false, r)
  else (some true, { r with lock := some ⟨token, r.now + px⟩ })

/-- `INCR` on the fence key fails at the end of the range, and a failed call ends the script. Lua hands the
counter over as a double, which is exact below `2 ^ 53` attempts: the model has it exact throughout. -/
def fenceScript (r : Redis) (token : String) (px : Nat) : Option Nat × Redis :=
  if r.fence = i64Max then (none, r)
  else
    let r := { r with fence := r.fence + 1 }
    match r.setNx token px with
    | (none, r) => (none, r)
    | (some true, r) => (some r.fence, r)
    | (some false, r) => (some 0, r)

def acquireFenced (r : Redis) (token : String) (ttl : Nat) : Reply × Redis :=
  match r.fenceScript token (ttlMillis ttl) with
  | (none, r) => (.failed, r)
  | (some 0, r) => (.none, r)
  | (some fence, r) => (.guard token fence, r)

def acquire (r : Redis) (token : String) (ttl : Nat) : Reply × Redis :=
  match r.setNx token (ttlMillis ttl) with
  | (none, r) => (.failed, r)
  | (some false, r) => (.none, r)
  | (some true, r) => (.done, r)

/-- `PEXPIRE` of the holder: a time that is not positive deletes the key. -/
def renew (r : Redis) (token : String) (ttl : Nat) : Reply × Redis :=
  let px := ttlMillis ttl
  if (r.get.map Held.token) = some token then
    if i64Max < r.now + px then (.failed, r)
    else if px = 0 then (.done, { r with lock := none })
    else (.done, { r with lock := some ⟨token, r.now + px⟩ })
  else (.failed, r)

def release (r : Redis) (token : String) : Reply × Redis :=
  if (r.get.map Held.token) = some token then (.done, { r with lock := none }) else (.done, r)

/-- A counter at zero stands for an absent key, which equals no fence. -/
def validateFence (r : Redis) (fence : Nat) : Bool := r.fence ≠ 0 ∧ r.fence = fence

def exec (r : Redis) : Act → Reply × Redis
  | .acquireFenced token ttl => r.acquireFenced token ttl
  | .acquire token ttl => r.acquire token ttl
  | .renew token ttl => r.renew token ttl
  | .release token => r.release token
  | .validateFence fence => (.valid (r.validateFence fence), r)
  | .tick millis => (.done, { r with now := r.now + millis })

def step (r : Redis) (a : Act) : Option Redis := some (r.exec a).2

/-- An attempt to acquire that has to fail: the lock is held, or Redis refuses its time to live. -/
def Contends (r : Redis) : Act → Prop
  | .acquireFenced _ ttl => r.fence < i64Max ∧ (r.get.isSome ∨ r.validPx (ttlMillis ttl) = false)
  | _ => False

def Acquires (r : Redis) (a : Act) : Prop := ∃ token fence, (r.exec a).1 = .guard token fence

/-! ### One script -/

variable {r r' : Redis} {token : String} {a : Act}

theorem setNx_fence (r : Redis) (token : String) (px : Nat) : (r.setNx token px).2.fence = r.fence := by
  unfold setNx
  split
  · rfl
  · split <;> rfl

theorem acquireFenced_full (hfull : r.fence = i64Max) (token : String) (ttl : Nat) :
    r.acquireFenced token ttl = (.failed, r) := by
  simp [acquireFenced, fenceScript, hfull]

theorem setNx_refused {px : Nat} (h : r.get.isSome ∨ r.validPx px = false) :
    ∃ answer, r.setNx token px = (answer, r) ∧ answer ≠ some true := by
  unfold setNx
  by_cases hv : r.validPx px = false
  · exact ⟨none, by rw [if_pos hv], by simp⟩
  · exact ⟨some false, by rw [if_neg hv, if_pos (h.resolve_right hv)], by simp⟩

theorem setNx_granted {px : Nat} (h : ¬ (r.get.isSome ∨ r.validPx px = false)) :
    r.setNx token px = (some true, { r with lock := some ⟨token, r.now + px⟩ }) := by
  obtain ⟨hs, hv⟩ := not_or.1 h
  rw [setNx, if_neg hv, if_neg hs]

theorem contended_bump {px n : Nat} : ({ r with fence := n } : Redis).get.isSome ∨
    ({ r with fence := n } : Redis).validPx px = false ↔ r.get.isSome ∨ r.validPx px = false := Iff.rfl

theorem acquireFenced_contended {ttl : Nat} (hroom : r.fence ≠ i64Max)
    (h : r.get.isSome ∨ r.validPx (ttlMillis ttl) = false) :
    (∀ t f, (r.acquireFenced token ttl).1 ≠ .guard t f) ∧ (r.acquireFenced token ttl).2.fence = r.fence + 1 := by
  obtain ⟨answer, hset, hne⟩ := @setNx_refused _ token _ ((contended_bump (n := r.fence + 1)).2 h)
  simp only [acquireFenced, fenceScript, if_neg hroom, hset]
  rcases answer with _ | _ | _
  · simp
  · simp
  · exact absurd rfl hne

theorem acquireFenced_free {ttl : Nat} (hroom : r.fence ≠ i64Max)
    (h : ¬ (r.get.isSome ∨ r.validPx (ttlMillis ttl) = false)) :
    r.acquireFenced token ttl =
      (.guard token (r.fence + 1), ⟨some ⟨token, r.now + ttlMillis ttl⟩, r.fence + 1, r.now⟩) := by
  have hset := @setNx_granted _ token _ (mt (contended_bump (n := r.fence + 1)).1 h)
  simp only [acquireFenced, fenceScript, if_neg hroom, hset]

/-- The counter moves at every attempt but those at the end of its range, and at nothing else. -/
theorem exec_fence (hle : r.fence ≤ i64Max) (a : Act) :
    (r.exec a).2.fence = r.fence ∧ ¬ (r.Contends a ∨ r.Acquires a) ∨
      (r.exec a).2.fence = r.fence + 1 ∧ r.fence < i64Max ∧ (r.Contends a ∨ r.Acquires a) := by
  cases a with
  | acquireFenced t ttl =>
    by_cases hfull : r.fence = i64Max
    · left
      simp [exec, Contends, Acquires, acquireFenced_full hfull, hfull]
    · right
      have hlt : r.fence < i64Max := lt_of_le_of_ne hle hfull
      by_cases hc : r.get.isSome ∨ r.validPx (ttlMillis ttl) = false
      · exact ⟨(acquireFenced_contended hfull hc).2, hlt, .inl ⟨hlt, hc⟩⟩
      · have hfree := @acquireFenced_free r t ttl hfull hc
        refine ⟨?_, hlt, .inr ⟨t, r.fence + 1, ?_⟩⟩
        · rw [exec, hfree]
        · rw [exec, hfree]
  | acquire t ttl =>
    left
    have hsame := setNx_fence r t (ttlMillis ttl)
    simp only [exec, acquire, Contends, Acquires, false_or]
    split <;> rename_i heq <;> rw [heq] at hsame <;> exact ⟨hsame, by simp⟩
  | renew t ttl =>
    left
    simp only [exec, renew, Contends, Acquires, false_or]
    split
    · split
      · exact ⟨rfl, by simp⟩
      · split <;> exact ⟨rfl, by simp⟩
    · exact ⟨rfl, by simp⟩
  | release t =>
    left
    simp only [exec, release, Contends, Acquires, false_or]
    split <;> exact ⟨rfl, by simp⟩
  | validateFence f => exact .inl ⟨rfl, by simp [exec, Contends, Acquires]⟩
  | tick millis => exact .inl ⟨rfl, by simp [exec, Contends, Acquires]⟩

/-! ### Runs -/

def start (now : Nat) : Redis := ⟨none, 0, now⟩

theorem exec_fence_le (hle : r.fence ≤ i64Max) (a : Act) : (r.exec a).2.fence ≤ i64Max := by
  rcases exec_fence hle a with ⟨heq, _⟩ | ⟨heq, hlt, _⟩
  · rw [heq]
    exact hle
  · rw [heq]
    exact hlt

theorem run_fence_le {acts : List Act} (hle : r.fence ≤ i64Max) (hrun : runFrom step r acts = some r') :
    r'.fence ≤ i64Max := by
  apply reach_invariant (P := fun r => r.fence ≤ i64Max) hle ?_ hrun
  intro s a t hs hstep
  cases hstep
  exact exec_fence_le hs a

theorem run_fence {acts : List Act} (hle : r.fence ≤ i64Max) (hrun : runFrom step r acts = some r') :
    r.fence ≤ r'.fence ∧
      (r.fence < r'.fence ↔ Occurs step Contends r acts ∨ Occurs step Acquires r acts) := by
  induction acts generalizing r with
  | nil =>
    cases hrun
    simp [Occurs]
  | cons a acts ih =>
    obtain ⟨t, hstep, hrest⟩ := runFrom_cons.1 hrun
    cases hstep
    obtain ⟨hmono, hiff⟩ := ih (exec_fence_le hle a) hrest
    simp only [Occurs, step]
    rcases exec_fence hle a with ⟨heq, hnot⟩ | ⟨heq, _, hmoved⟩
    · rw [heq] at hmono hiff
      refine ⟨hmono, ?_⟩
      rw [hiff]
      tauto
    · rw [heq] at hmono hiff
      refine ⟨by omega, ?_⟩
      constructor
      · intro _
        tauto
      · intro _
        omega

theorem acquireFenced_guard {t : String} {ttl fence : Nat}
    (h : r.acquireFenced token ttl = (.guard t fence, r')) : r'.fence = fence ∧ 0 < fence := by
  by_cases hfull : r.fence = i64Max
  · rw [acquireFenced_full hfull] at h
    cases h
  · by_cases hc : r.get.isSome ∨ r.validPx (ttlMillis ttl) = false
    · have hno := (@acquireFenced_contended r token ttl hfull hc).1
      rw [h] at hno
      exact absurd rfl (hno t fence)
    · rw [acquireFenced_free hfull hc] at h
      cases h
      exact ⟨rfl, Nat.succ_pos _⟩

theorem validateFence_false {fence : Nat} (hpos : 0 < fence) (hle : fence ≤ r.fence) :
    r.validateFence fence = false ↔ fence < r.fence := by
  simp only [validateFence, decide_eq_false_iff_not]
  omega

/-- A fence is rejected only after another acquisition exactly when no failed attempt came in
between without one. -/
theorem fence_rejected_iff (now : Nat) (before between : List Act) (r r₁ r₂ : Redis) (token t : String)
    (ttl fence : Nat) (hbefore : runFrom step (start now) before = some r)
    (hguard : r.acquireFenced token ttl = (.guard t fence, r₁)) (hbetween : runFrom step r₁ between = some r₂) :
    (r₂.validateFence fence = false → Occurs step Acquires r₁ between) ↔
      (Occurs step Contends r₁ between → Occurs step Acquires r₁ between) := by
  have hr : r.fence ≤ i64Max := run_fence_le (Nat.zero_le _) hbefore
  obtain ⟨hfence, hpos⟩ := acquireFenced_guard hguard
  have hr₁ : r₁.fence ≤ i64Max := by
    have hle := exec_fence_le hr (.acquireFenced token ttl)
    rwa [exec, hguard] at hle
  obtain ⟨hmono, hiff⟩ := run_fence hr₁ hbetween
  rw [hfence] at hmono hiff
  rw [validateFence_false hpos hmono, hiff]
  tauto

theorem fence_rejected_after_reacquire :
    (⟨some ⟨"b", 30000⟩, 2, 0⟩ : Redis).validateFence 1 = false ∧
    (((⟨some ⟨"b", 30000⟩, 2, 0⟩ : Redis).validateFence 1 = false →
        Occurs step Acquires ⟨some ⟨"a", 30000⟩, 1, 0⟩ [.release "a", .acquireFenced "b" 30000]) ↔
      (Occurs step Contends ⟨some ⟨"a", 30000⟩, 1, 0⟩ [.release "a", .acquireFenced "b" 30000] →
        Occurs step Acquires ⟨some ⟨"a", 30000⟩, 1, 0⟩ [.release "a", .acquireFenced "b" 30000])) :=
  ⟨rfl, fence_rejected_iff 0 [] [.release "a", .acquireFenced "b" 30000] (start 0) ⟨some ⟨"a", 30000⟩, 1, 0⟩
    ⟨some ⟨"b", 30000⟩, 2, 0⟩ "a" "a" 30000 1 rfl rfl rfl⟩

/-- The holder still holds the lock for twenty seconds when a contender's failed attempt has
its fence rejected. -/
theorem contender_rejects_holder :
    ¬ ∀ (now : Nat) (before between : List Act) (r r₁ r₂ : Redis) (token t : String) (ttl fence : Nat),
      runFrom step (start now) before = some r → r.acquireFenced token ttl = (.guard t fence, r₁) →
      runFrom step r₁ between = some r₂ → r₂.validateFence fence = false → Occurs step Acquires r₁ between := by
  intro h
  have hacq := h 0 [] [.tick 10000, .acquireFenced "b" 30000] (start 0) ⟨some ⟨"a", 30000⟩, 1, 0⟩
    ⟨some ⟨"a", 30000⟩, 2, 10000⟩ "a" "a" 30000 1 rfl rfl rfl rfl
  simp only [Occurs, Acquires, step, or_false] at hacq
  rcases hacq with ⟨t, f, hacq⟩ | ⟨t, f, hacq⟩
  · cases hacq
  · have hnone : (({ start 0 with lock := some ⟨"a", 30000⟩, fence := 1, now := 10000 } : Redis).exec
        (.acquireFenced "b" 30000)).1 = .none := by decide
    exact absurd (hnone.symm.trans hacq) (by simp)

end Redis

end Ecat.Lock
