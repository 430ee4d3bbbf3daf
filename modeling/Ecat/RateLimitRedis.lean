import Ecat.RateLimit
import Ecat.Results

/-! The Redis rate limiter: a script that counts and sets the window as the key's time to live, and
the runs in which it answers every check as the in-memory one does. -/

namespace Ecat.RateLimit

/-! ### Redis -/

def i64Max : Nat := 2 ^ 63 - 1

/-- A counter with the time from which it is gone. -/
structure RedisKey where
  value : Nat
  expiresAt : Option Nat
  deriving DecidableEq, Repr

def RedisKey.live (k : RedisKey) (now : Nat) : Bool := k.expiresAt.all (now < ·)

abbrev Redis := String → Option RedisKey

namespace Redis

def find (r : Redis) (key : String) (now : Nat) : Option RedisKey := (r key).filter (·.live now)

def incr (r : Redis) (key : String) (now : Nat) : Except String (Nat × Redis) :=
  match r.find key now with
  | none => .ok (1, Function.update r key (some ⟨1, none⟩))
  | some k =>
    if k.value < i64Max then .ok (k.value + 1, Function.update r key (some { k with value := k.value + 1 }))
    else .error "increment or decrement would overflow"

/-- `accepts` says which times to live the server takes. -/
def expire (accepts : Nat → Bool) (r : Redis) (key : String) (secs now : Nat) : Except String Redis :=
  if accepts secs then
    .ok (Function.update r key ((r.find key now).map fun k => { k with expiresAt := some (now + second * secs) }))
  else .error "invalid expire time"

def del (r : Redis) (key : String) : Redis := Function.update r key none

/-- `INCR_SCRIPT`. -/
def incrScript (accepts : Nat → Bool) (r : Redis) (key : String) (secs now : Nat) : Except String (Nat × Redis) := do
  let (c, r) ← r.incr key now
  if c = 1 then
    match r.expire accepts key secs now with
    | .ok r => return (c, r)
    | .error _ => return (c, r.del key)
  else return (c, r)

/-- `RedisRateLimitStore::check`, which lets a request through when the script fails. -/
def check (accepts : Nat → Bool) (r : Redis) (key : String) (max secs now : Nat) : Except String Unit × Redis :=
  match r.incrScript accepts ("rl:" ++ key) secs now with
  | .error _ => (.ok (), r)
  | .ok (count, r) => (if max < count % 2 ^ 32 then .error "rate limit exceeded" else .ok (), r)

end Redis

/-! ### Both stores -/

structure Call where
  time : Nat
  key : String

/-- The two stores and the time of the last call. -/
structure Stores where
  memory : MemoryStore
  redis : Redis
  now : Nat

/-- What holds for a key in every call: how many requests, in how many seconds. -/
structure Limits where
  max : String → Nat
  windowSecs : String → Nat

def Limits.window (limits : Limits) (key : String) : Nat := second * limits.windowSecs key

def Limits.check (limits : Limits) (c : Call) : Check :=
  ⟨c.key, limits.max c.key, limits.windowSecs c.key, .still c.time⟩

variable (accepts : Nat → Bool) (limits : Limits)

namespace Stores

def start (now : Nat) : Stores := ⟨.new now, fun _ => none, now⟩

def askMemory (s : Stores) (c : Call) : Except String Unit × MemoryStore := s.memory.check (limits.check c)

def askRedis (s : Stores) (c : Call) : Except String Unit × Redis :=
  s.redis.check accepts c.key (limits.max c.key) (limits.windowSecs c.key) c.time

def step (s : Stores) (c : Call) : Option Stores :=
  if c.time < s.now then none
  else some ⟨(s.askMemory limits c).2, (s.askRedis accepts limits c).2, c.time⟩

/-- Both stores give the same answer to a call that is not before the last one. -/
def Agree (s : Stores) (c : Call) : Prop :=
  s.now ≤ c.time → (s.askMemory limits c).1 = (s.askRedis accepts limits c).1

/-- The bucket that the in-memory store finds for the call, after the sweep. -/
def bucket (s : Stores) (c : Call) : Option Bucket := (s.memory.sweep (.still c.time)).buckets c.key

def counter (s : Stores) (c : Call) : Option RedisKey := s.redis.find ("rl:" ++ c.key) c.time

/-- The call is at no point where the stores part. -/
structure InStep (s : Stores) (c : Call) : Prop where
  /-- The sweep drops no bucket whose window still runs. -/
  swept : ∀ key b, s.memory.buckets key = some b → (s.memory.sweep (.still c.time)).buckets key = none →
    b.start + limits.window key ≤ c.time
  /-- The window of the key does not end at this very instant. -/
  boundary : ∀ b, s.bucket c = some b → b.start + limits.window c.key ≠ c.time
  /-- A window that has ended is not one that lets nothing through. -/
  zero : ∀ b, s.bucket c = some b → b.start + limits.window c.key < c.time → limits.max c.key ≠ 0
  /-- The server takes the time to live of a new window. -/
  accepted : s.counter c = none → accepts (limits.windowSecs c.key) = true
  /-- The counter is not at the end of its range. -/
  counts : ∀ k, s.counter c = some k → k.value < i64Max

/-- A bucket and a counter of one window; where there is no bucket, the counter has run out. -/
structure Matched (window now : Nat) (bucket : Option Bucket) (key : Option RedisKey) : Prop where
  gone : bucket = none → ∀ k, key = some k → k.live now = false
  same : ∀ b, bucket = some b → b.start ≤ now ∧
    ∃ v, key = some ⟨v, some (b.start + window)⟩ ∧ 1 ≤ v ∧ b.count = v % 2 ^ 32

def Synced (s : Stores) : Prop :=
  ∀ key, Matched (limits.window key) s.now (s.memory.buckets key) (s.redis ("rl:" ++ key))

end Stores

variable {accepts limits} {window now t : Nat} {bucket : Option Bucket} {key : Option RedisKey} {s s' : Stores}
  {c : Call}

theorem RedisKey.live_some {v expires : Nat} : (RedisKey.mk v (some expires)).live now = true ↔ now < expires := by
  simp [RedisKey.live]

theorem find_live {r : Redis} {rkey : String} {v expires : Nat} (h : r rkey = some ⟨v, some expires⟩)
    (hlt : now < expires) : r.find rkey now = some ⟨v, some expires⟩ := by
  rw [Redis.find, h, Option.filter_eq_some_iff]
  exact ⟨rfl, RedisKey.live_some.2 hlt⟩

theorem find_dead {r : Redis} {rkey : String} {v expires : Nat} (h : r rkey = some ⟨v, some expires⟩)
    (hle : expires ≤ now) : r.find rkey now = none := by
  rw [Redis.find, h, Option.filter_eq_none_iff]
  intro k hk
  cases hk
  rw [RedisKey.live_some]
  omega

/-! ### What the stores answer -/

theorem askRedis_fresh (hcounter : s.counter c = none) (haccepted : accepts (limits.windowSecs c.key) = true) :
    s.askRedis accepts limits c = (if limits.max c.key < 1 then .error "rate limit exceeded" else .ok (),
      Function.update s.redis ("rl:" ++ c.key) (some ⟨1, some (c.time + limits.window c.key)⟩)) := by
  have hincr : s.redis.incr ("rl:" ++ c.key) c.time =
      .ok (1, Function.update s.redis ("rl:" ++ c.key) (some ⟨1, none⟩)) := by
    rw [Redis.incr, show s.redis.find _ _ = none from hcounter]
  have hexpire : Redis.expire accepts (Function.update s.redis ("rl:" ++ c.key) (some ⟨1, none⟩)) ("rl:" ++ c.key)
      (limits.windowSecs c.key) c.time =
      .ok (Function.update s.redis ("rl:" ++ c.key) (some ⟨1, some (c.time + limits.window c.key)⟩)) := by
    have hfind : Redis.find (Function.update s.redis ("rl:" ++ c.key) (some ⟨1, none⟩)) ("rl:" ++ c.key) c.time =
        some ⟨1, none⟩ := by
      rw [Redis.find, Function.update_self]
      rfl
    rw [Redis.expire, if_pos haccepted, hfind, Function.update_idem]
    rfl
  rw [Stores.askRedis, Redis.check, Redis.incrScript, hincr]
  simp only [ok_bind, if_true, hexpire]
  rfl

theorem askRedis_counting {k : RedisKey} (hcounter : s.counter c = some k) (hpos : 1 ≤ k.value)
    (hlt : k.value < i64Max) :
    s.askRedis accepts limits c =
      (if limits.max c.key < (k.value + 1) % 2 ^ 32 then .error "rate limit exceeded" else .ok (),
        Function.update s.redis ("rl:" ++ c.key) (some { k with value := k.value + 1 })) := by
  have hincr : s.redis.incr ("rl:" ++ c.key) c.time =
      .ok (k.value + 1, Function.update s.redis ("rl:" ++ c.key) (some { k with value := k.value + 1 })) := by
    rw [Redis.incr, show s.redis.find _ _ = some k from hcounter]
    exact if_pos hlt
  have hne : k.value + 1 ≠ 1 := by omega
  rw [Stores.askRedis, Redis.check, Redis.incrScript, hincr]
  simp only [ok_bind, hne, if_false]
  rfl

theorem askMemory_counting {b : Bucket} (hentry : s.memory.entry (limits.check c) = b)
    (hruns : c.time ≤ b.start + limits.window c.key) :
    s.askMemory limits c = (if limits.max c.key < increment b.count then .error "rate limit exceeded" else .ok (),
      { s.memory.sweep (.still c.time) with
        buckets := Function.update (s.memory.sweep (.still c.time)).buckets c.key
          (some ⟨increment b.count, b.start⟩) }) := by
  have hrestarts : s.memory.restarts (limits.check c) = false := by
    rw [MemoryStore.restarts, hentry]
    apply decide_eq_false
    show ¬ limits.window c.key < c.time - b.start
    omega
  rw [Stores.askMemory, MemoryStore.check, hrestarts, hentry]
  rfl

theorem askMemory_restart {b : Bucket} (hentry : s.memory.entry (limits.check c) = b)
    (hover : b.start + limits.window c.key < c.time) :
    s.askMemory limits c = (.ok (), { s.memory.sweep (.still c.time) with
      buckets := Function.update (s.memory.sweep (.still c.time)).buckets c.key (some ⟨1, c.time⟩) }) := by
  have hrestarts : s.memory.restarts (limits.check c) = true := by
    rw [MemoryStore.restarts, hentry]
    apply decide_eq_true
    show limits.window c.key < c.time - b.start
    omega
  rw [Stores.askMemory, MemoryStore.check, hrestarts]
  rfl

/-- The wrapping counter of the bucket is the remainder of the other one. -/
theorem increment_mod (v : Nat) : increment (v % 2 ^ 32) = (v + 1) % 2 ^ 32 := by
  rw [increment, u32Max]
  split_ifs <;> omega

/-! ### The stores in step -/

namespace Stores

theorem Matched.later (h : Matched window now bucket key) (hle : now ≤ t) : Matched window t bucket key := by
  refine ⟨fun hb k hk => ?_, fun b hb => ?_⟩
  · have hdead := h.gone hb k hk
    obtain ⟨v, expires⟩ := k
    cases expires with
    | none => cases hdead
    | some x =>
      rw [← Bool.not_eq_true, RedisKey.live_some] at hdead ⊢
      omega
  · obtain ⟨hstart, hsame⟩ := h.same b hb
    exact ⟨hstart.trans hle, hsame⟩

theorem Matched.dropped {b : Bucket} (h : Matched window now (some b) key) (hover : b.start + window ≤ t) :
    Matched window t none key := by
  obtain ⟨_, v, rfl, _⟩ := h.same b rfl
  refine ⟨fun _ k hk => ?_, fun b hb => nomatch hb⟩
  cases hk
  rw [← Bool.not_eq_true, RedisKey.live_some]
  omega

theorem matched_some {start v : Nat} (hstart : start ≤ t) (hpos : 1 ≤ v) :
    Matched window t (some ⟨v % 2 ^ 32, start⟩) (some ⟨v, some (start + window)⟩) := by
  constructor
  · intro hb
    cases hb
  · intro b hb
    cases hb
    exact ⟨hstart, v, rfl, hpos, rfl⟩

theorem Synced.sweep (h : s.Synced limits) (hstep : s.InStep accepts limits c) (hnow : s.now ≤ c.time) (key : String) :
    Matched (limits.window key) c.time ((s.memory.sweep (.still c.time)).buckets key) (s.redis ("rl:" ++ key)) := by
  have hkey := h key
  rcases buckets_sweep s.memory (.still c.time) key with heq | heq
  · rw [heq]
    exact hkey.later hnow
  · cases hb : s.memory.buckets key with
    | none =>
      rw [hb] at hkey heq
      rw [heq]
      exact hkey.later hnow
    | some b =>
      cases hswept : (s.memory.sweep (.still c.time)).buckets key with
      | none =>
        rw [hb] at hkey
        exact hkey.dropped (hstep.swept key b hb hswept)
      | some b' =>
        rw [hswept, hb] at heq
        rw [(Option.filter_eq_some_iff.1 heq.symm).1] at hb
        rw [hb] at hkey
        exact hkey.later hnow

/-- The answers to one call, and the bucket and counter it leaves. -/
theorem Synced.ask (h : s.Synced limits) (hstep : s.InStep accepts limits c) (hnow : s.now ≤ c.time) :
    (s.askMemory limits c).1 = (s.askRedis accepts limits c).1 ∧
      ∃ b k,
        (s.askMemory limits c).2.buckets = Function.update (s.memory.sweep (.still c.time)).buckets c.key (some b) ∧
        (s.askRedis accepts limits c).2 = Function.update s.redis ("rl:" ++ c.key) (some k) ∧
        Matched (limits.window c.key) c.time (some b) (some k) := by
  have hmatched := h.sweep hstep hnow c.key
  cases hb : s.bucket c with
  | none =>
    have hentry : s.memory.entry (limits.check c) = ⟨0, c.time⟩ := entry_none hb
    rw [show (s.memory.sweep _).buckets _ = none from hb] at hmatched
    have hcounter : s.counter c = none := by
      rw [counter, Redis.find, Option.filter_eq_none_iff]
      intro k hk
      simpa using hmatched.gone rfl k hk
    have hmemory := askMemory_counting hentry (Nat.le_add_right _ _)
    have hredis := askRedis_fresh hcounter (hstep.accepted hcounter)
    rw [hmemory, hredis]
    exact ⟨rfl, _, _, rfl, rfl, matched_some le_rfl le_rfl⟩
  | some b =>
    have hentry : s.memory.entry (limits.check c) = b := by
      show (s.bucket c).getD _ = b
      rw [hb]
      rfl
    rw [show (s.memory.sweep _).buckets _ = some b from hb] at hmatched
    obtain ⟨hstart, v, hk, hpos, hcount⟩ := hmatched.same b rfl
    by_cases hruns : c.time < b.start + limits.window c.key
    · -- The window runs in both stores, which count on.
      have hcounter : s.counter c = some ⟨v, some (b.start + limits.window c.key)⟩ := find_live hk hruns
      have hmemory := askMemory_counting hentry hruns.le
      rw [hmemory, askRedis_counting hcounter hpos (hstep.counts _ hcounter), hcount, increment_mod]
      exact ⟨rfl, _, _, rfl, rfl, matched_some hstart (by omega)⟩
    · -- It has ended in both, and they start a new one.
      have hover : b.start + limits.window c.key < c.time := by
        have hne := hstep.boundary b hb
        omega
      have hcounter : s.counter c = none := find_dead hk hover.le
      have hmax := hstep.zero b hb hover
      have hmemory := askMemory_restart hentry hover
      have hredis := askRedis_fresh hcounter (hstep.accepted hcounter)
      rw [hmemory, hredis, if_neg (by omega)]
      exact ⟨rfl, _, _, rfl, rfl, matched_some le_rfl le_rfl⟩

theorem Synced.step (h : s.Synced limits) (hok : s.InStep accepts limits c)
    (hstep : s.step accepts limits c = some s') :
    s'.Synced limits := by
  unfold Stores.step at hstep
  split_ifs at hstep with hlt
  cases hstep
  have hnow := not_lt.1 hlt
  obtain ⟨_, b, k, hmemory, hredis, hmatched⟩ := h.ask hok hnow
  intro key
  show Matched _ c.time ((s.askMemory limits c).2.buckets key) ((s.askRedis accepts limits c).2 ("rl:" ++ key))
  rw [hmemory, hredis]
  by_cases hkey : key = c.key
  · subst hkey
    rw [Function.update_self, Function.update_self]
    exact hmatched
  · have hrkey : "rl:" ++ key ≠ "rl:" ++ c.key := by simpa using hkey
    rw [Function.update_of_ne hkey, Function.update_of_ne hrkey]
    exact h.sweep hok hnow key

theorem synced_start (now : Nat) : (start now).Synced limits := by
  intro key
  exact ⟨fun _ k hk => (nomatch hk), fun b hb => (nomatch hb)⟩

end Stores

/-- In every run of calls that are at no point where the stores part, both stores give every call the
same answer. -/
theorem stores_agree (accepts : Nat → Bool) (limits : Limits) (now : Nat) (calls : List Call)
    (h : Meets (Stores.step accepts limits) (Stores.InStep accepts limits) (.start now) calls) :
    Meets (Stores.step accepts limits) (Stores.Agree accepts limits) (.start now) calls := by
  apply h.imp (Stores.synced_start now)
  · intro s c s' hsynced hok hstep
    exact hsynced.step hok hstep
  · intro s c hsynced hok hnow
    exact (hsynced.ask hok hnow).1

/-- With windows of a day at the most the sweep drops none that still runs. -/
theorem swept_of_day (hday : ∀ key, limits.window key ≤ maxIdle) (s : Stores) (c : Call) (key : String) (b : Bucket)
    (hb : s.memory.buckets key = some b) (hswept : (s.memory.sweep (.still c.time)).buckets key = none) :
    b.start + limits.window key ≤ c.time := by
  have hwindow := hday key
  rcases buckets_sweep s.memory (.still c.time) key with heq | heq
  · rw [heq, hb] at hswept
    cases hswept
  · rw [heq, hb, Option.filter_eq_none_iff] at hswept
    by_contra hruns
    apply hswept b rfl
    exact decide_eq_true (show c.time < b.start + maxIdle by omega)

/-- The same limit and window for every key. -/
def Limits.all (max windowSecs : Nat) : Limits := ⟨fun _ => max, fun _ => windowSecs⟩

def callsAt (times : List Nat) : List Call := times.map fun t => ⟨t, "10.0.0.1"⟩

theorem stores_agree_two :
    Meets (Stores.step (fun _ => true) (.all 1 1)) (Stores.Agree (fun _ => true) (.all 1 1)) (.start 0)
      (callsAt [0, 2 * second]) := by
  apply stores_agree
  have hday : ∀ key, (Limits.all 1 1).window key ≤ maxIdle := fun _ => by
    norm_num [Limits.all, Limits.window, maxIdle, second]
  refine ⟨⟨swept_of_day hday _ _, ?_, ?_, fun _ => rfl, ?_⟩, ⟨swept_of_day hday _ _, ?_, ?_, fun _ => rfl, ?_⟩, trivial⟩
  · intro b hb
    cases hb
  · intro b hb
    cases hb
  · intro k hk
    cases hk
  · intro b hb
    cases hb
    show ¬ 0 + second * 1 = 2 * second
    norm_num [second]
  · intro b _ _
    exact one_ne_zero
  · intro k hk
    cases hk

/-- Two calls of one client are answered alike by both stores, the second of them at `t`. -/
def TwiceAlike (limits : Limits) (t : Nat) : Prop :=
  Meets (Stores.step (fun _ => true) limits) (Stores.Agree (fun _ => true) limits) (.start 0) (callsAt [0, t])

theorem TwiceAlike.second_call {limits : Limits} {t : Nat} (h : TwiceAlike limits t) :
    let s : Stores := ⟨((Stores.start 0).askMemory limits ⟨0, "10.0.0.1"⟩).2,
      ((Stores.start 0).askRedis (fun _ => true) limits ⟨0, "10.0.0.1"⟩).2, 0⟩
    (s.askMemory limits ⟨t, "10.0.0.1"⟩).1 = (s.askRedis (fun _ => true) limits ⟨t, "10.0.0.1"⟩).1 :=
  h.2.1 (Nat.zero_le t)

/-- A request that comes just when the window ends counts for the old one in memory and for a new one in
Redis; a window that lets nothing through lets one through in memory when it starts anew; a window of
more than a day is forgotten in memory. -/
theorem stores_part : ¬ TwiceAlike (.all 1 1) second ∧ ¬ TwiceAlike (.all 0 1) (second + 1) ∧
    ¬ TwiceAlike (.all 1 (25 * 3600)) maxIdle := by
  refine ⟨fun h => ?_, fun h => ?_, fun h => ?_⟩
  · exact absurd h.second_call (by decide +kernel)
  · exact absurd h.second_call (by decide +kernel)
  · exact absurd h.second_call (by decide +kernel)

end Ecat.RateLimit
