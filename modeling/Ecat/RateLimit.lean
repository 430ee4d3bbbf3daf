import Ecat.Runs
import Mathlib

/-! The in-memory rate limiter: buckets that count the requests of a window, the sweep of old
buckets, and how many requests a key gets through between two starts of its window. -/

namespace Ecat.RateLimit

/-- Times are in nanoseconds. -/
def second : Nat := 10 ^ 9

def sweepInterval : Nat := 60 * second

def maxIdle : Nat := 24 * 60 * 60 * second

def u32Max : Nat := 2 ^ 32 - 1

/-- `count += 1` on a `u32`, which wraps in a release build. -/
def increment (count : Nat) : Nat := if count < u32Max then count + 1 else 0

/-- The requests counted, as a `u32`, and the start of the window. -/
structure Bucket where
  count : Nat
  start : Nat
  deriving DecidableEq, Repr

structure MemoryStore where
  buckets : String → Option Bucket
  lastSweep : Nat

/-- The clock as one `check` reads it, in this order. -/
structure Readings where
  sweep : Nat
  cutoff : Nat
  swept : Nat
  inserted : Nat
  checked : Nat
  restarted : Nat
  sweep_le : sweep ≤ cutoff
  cutoff_le : cutoff ≤ swept
  swept_le : swept ≤ inserted
  inserted_le : inserted ≤ checked
  checked_le : checked ≤ restarted

structure Check where
  key : String
  max : Nat
  windowSecs : Nat
  times : Readings

namespace MemoryStore

def new (now : Nat) : MemoryStore := ⟨fun _ => none, now⟩

/-- The sweep compares the start of a bucket's window, whatever the last request was. -/
def sweep (s : MemoryStore) (t : Readings) : MemoryStore :=
  if sweepInterval ≤ t.sweep - s.lastSweep then
    { buckets := fun key => (s.buckets key).filter fun b => t.cutoff < b.start + maxIdle
      lastSweep := t.swept }
  else s

def entry (s : MemoryStore) (c : Check) : Bucket :=
  ((s.sweep c.times).buckets c.key).getD ⟨0, c.times.inserted⟩

def restarts (s : MemoryStore) (c : Check) : Bool :=
  second * c.windowSecs < c.times.checked - (s.entry c).start

def check (s : MemoryStore) (c : Check) : Except String Unit × MemoryStore :=
  let put := fun b : Bucket =>
    { s.sweep c.times with buckets := Function.update (s.sweep c.times).buckets c.key (some b) }
  if s.restarts c then (.ok (), put ⟨1, c.times.restarted⟩)
  else
    let count := increment (s.entry c).count
    (if c.max < count then .error "rate limit exceeded" else .ok (), put ⟨count, (s.entry c).start⟩)

/-- The windows that a check starts for its key. -/
def starts (s : MemoryStore) (c : Check) : List Nat :=
  (if ((s.sweep c.times).buckets c.key).isNone then [c.times.inserted] else []) ++
    if s.restarts c then [c.times.restarted] else []

end MemoryStore

/-- `window` is a `Duration`. -/
structure RateLimiter where
  maxRequests : Nat
  window : Nat

/-- The check that `allow` makes; it passes on `window.as_secs()`. -/
def RateLimiter.allow (limiter : RateLimiter) (key : String) (times : Readings) : Check :=
  ⟨key, limiter.maxRequests, limiter.window / second, times⟩

/-! ### Runs -/

structure Window where
  start : Nat
  admitted : Nat
  deriving DecidableEq, Repr

/-- The store, the time of its last check, and the windows of each key so far, the newest first. -/
structure Limited where
  store : MemoryStore
  now : Nat
  windows : String → List Window

namespace Limited

def begin (windows : List Window) (starts : List Nat) : List Window :=
  starts.foldl (fun ws t => ⟨t, 0⟩ :: ws) windows

def grant : List Window → List Window
  | [] => []
  | w :: ws => { w with admitted := w.admitted + 1 } :: ws

def step (s : Limited) (c : Check) : Option Limited :=
  if c.times.sweep < s.now then none
  else
    let ws := begin (s.windows c.key) (s.store.starts c)
    some {
      store := (s.store.check c).2
      now := c.times.restarted
      windows := Function.update s.windows c.key (if (s.store.check c).1.isOk then grant ws else ws) }

def start (now : Nat) : Limited := ⟨.new now, now, fun _ => []⟩

end Limited

/-- No window lets more than `max` requests through, and each starts at least `window` after the
one before. -/
structure Bounded (limiter : RateLimiter) (windows : List Window) : Prop where
  admitted : ∀ w ∈ windows, w.admitted ≤ limiter.maxRequests
  apart : windows.IsChain fun newer older => older.start + limiter.window ≤ newer.start

/-- The checks of the key are those of the limiter. -/
def RateLimiter.Guards (limiter : RateLimiter) (key : String) (checks : List Check) : Prop :=
  ∀ c ∈ checks, c.key = key → c = limiter.allow key c.times

/-- The key's counter is not at the end of its range. -/
def Limited.CountsOn (key : String) (s : Limited) (c : Check) : Prop :=
  c.key = key → (s.store.entry c).count < u32Max

/-- Every window of the key is within the limits, whatever checks are made and when. -/
def RateLimiter.Limits (limiter : RateLimiter) (key : String) : Prop :=
  ∀ now checks s, limiter.Guards key checks → Meets Limited.step (Limited.CountsOn key) (.start now) checks →
    runFrom Limited.step (.start now) checks = some s → Bounded limiter (s.windows key)

/-- At least one request, a window of whole seconds (or a nanosecond more), a day at the most. -/
structure RateLimiter.Sound (limiter : RateLimiter) : Prop where
  one_le : 1 ≤ limiter.maxRequests
  whole : limiter.window % second ≤ 1
  day : limiter.window ≤ maxIdle

/-! ### One key -/

/-- The bucket of a key counts the requests of its newest window; a bucket that is gone leaves none
that still runs. -/
structure Fits (limiter : RateLimiter) (now : Nat) (bucket : Option Bucket) (windows : List Window) : Prop where
  bounded : Bounded limiter windows
  gone : bucket = none → ∀ w ∈ windows.head?, w.start + limiter.window ≤ now
  kept : ∀ b, bucket = some b → b.start ≤ now ∧
    ∃ w ws, windows = w :: ws ∧ w.start = b.start ∧ w.admitted ≤ b.count

variable {limiter : RateLimiter} {now t : Nat} {bucket : Option Bucket} {b : Bucket} {ws : List Window}

theorem Fits.later (h : Fits limiter now bucket ws) (hle : now ≤ t) : Fits limiter t bucket ws := by
  refine ⟨h.bounded, fun hb w hw => (h.gone hb w hw).trans hle, fun b hb => ?_⟩
  obtain ⟨hstart, hw⟩ := h.kept b hb
  exact ⟨hstart.trans hle, hw⟩

theorem Fits.sweep (h : Fits limiter now bucket ws) (hday : limiter.window ≤ maxIdle) (hle : now ≤ t) :
    Fits limiter t (bucket.filter fun b => t < b.start + maxIdle) ws := by
  cases bucket with
  | none => exact h.later hle
  | some b =>
    obtain ⟨_, w, rest, rfl, hw, _⟩ := h.kept b rfl
    by_cases hlt : t < b.start + maxIdle
    · rw [Option.filter_some_pos (by simpa using hlt)]
      exact h.later hle
    · rw [Option.filter_some_neg (by simpa using hlt)]
      refine ⟨h.bounded, fun _ w' hw' => ?_, fun b hb => by cases hb⟩
      cases hw'
      omega

theorem fits_some {w : Window} (h : Bounded limiter (w :: ws)) (hstart : b.start ≤ now) (hw : w.start = b.start)
    (hcount : w.admitted ≤ b.count) : Fits limiter now (some b) (w :: ws) := by
  refine ⟨h, fun hb => ?_, ?_⟩
  · cases hb
  · rintro b' ⟨⟩
    exact ⟨hstart, w, ws, rfl, hw, hcount⟩

theorem Fits.insert (h : Fits limiter now none ws) : Fits limiter now (some ⟨0, now⟩) (⟨now, 0⟩ :: ws) := by
  refine fits_some ⟨?_, ?_⟩ le_rfl rfl le_rfl
  · exact List.forall_mem_cons.2 ⟨Nat.zero_le _, h.bounded.admitted⟩
  · rw [List.isChain_cons]
    exact ⟨h.gone rfl, h.bounded.apart⟩

theorem window_le (hwhole : limiter.window % second ≤ 1) {elapsed : Nat}
    (h : second * (limiter.window / second) < elapsed) : limiter.window ≤ elapsed := by
  have hdiv := Nat.div_add_mod limiter.window second
  omega

theorem Fits.restart (h : Fits limiter now (some b) ws) (hsound : limiter.Sound)
    (helapsed : second * (limiter.window / second) < now - b.start) (hle : now ≤ t) :
    Fits limiter t (some ⟨1, t⟩) (⟨t, 1⟩ :: ws) := by
  obtain ⟨_, w, rest, rfl, hw, _⟩ := h.kept b rfl
  have hwindow := window_le hsound.whole helapsed
  refine fits_some ⟨?_, ?_⟩ le_rfl rfl le_rfl
  · exact List.forall_mem_cons.2 ⟨hsound.one_le, h.bounded.admitted⟩
  · rw [List.isChain_cons_cons]
    refine ⟨?_, h.bounded.apart⟩
    show w.start + limiter.window ≤ t
    have hstart := (h.kept b rfl).1
    omega

theorem Fits.count (h : Fits limiter now (some b) ws) : Fits limiter now (some ⟨b.count + 1, b.start⟩)
    (if limiter.maxRequests < b.count + 1 then ws else Limited.grant ws) := by
  obtain ⟨hstart, w, rest, rfl, hw, hcount⟩ := h.kept b rfl
  split
  · exact fits_some h.bounded hstart hw (hcount.trans (Nat.le_succ _))
  · rename_i hle
    obtain ⟨_, hrest⟩ := List.forall_mem_cons.1 h.bounded.admitted
    refine fits_some ⟨List.forall_mem_cons.2 ⟨?_, hrest⟩, ?_⟩ hstart hw (Nat.succ_le_succ hcount)
    · show w.admitted + 1 ≤ limiter.maxRequests
      omega
    · have hchain := h.bounded.apart
      rw [List.isChain_cons] at hchain ⊢
      exact hchain

/-! ### One check -/

variable {key : String} {s s' : Limited} {c : Check}

theorem buckets_sweep (store : MemoryStore) (t : Readings) (key : String) :
    (store.sweep t).buckets key = store.buckets key ∨
      (store.sweep t).buckets key = (store.buckets key).filter fun b => t.cutoff < b.start + maxIdle := by
  unfold MemoryStore.sweep
  split
  · exact .inr rfl
  · exact .inl rfl

def Tracks (limiter : RateLimiter) (key : String) (s : Limited) : Prop :=
  Fits limiter s.now (s.store.buckets key) (s.windows key)

theorem Tracks.sweep (h : Tracks limiter key s) (hday : limiter.window ≤ maxIdle)
    (hnow : s.now ≤ c.times.sweep) :
    Fits limiter c.times.inserted ((s.store.sweep c.times).buckets key) (s.windows key) := by
  have hcutoff : s.now ≤ c.times.cutoff := hnow.trans c.times.sweep_le
  have hinserted : c.times.cutoff ≤ c.times.inserted := c.times.cutoff_le.trans c.times.swept_le
  rcases buckets_sweep s.store c.times key with heq | heq
  · rw [heq]
    exact h.later (hcutoff.trans hinserted)
  · rw [heq]
    exact (Fits.sweep h hday hcutoff).later hinserted

theorem Fits.entry (h : Fits limiter c.times.inserted ((s.store.sweep c.times).buckets c.key) (s.windows c.key)) :
    Fits limiter c.times.inserted (some (s.store.entry c)) (Limited.begin (s.windows c.key)
      (if ((s.store.sweep c.times).buckets c.key).isNone then [c.times.inserted] else [])) := by
  cases hb : (s.store.sweep c.times).buckets c.key with
  | none =>
    rw [hb] at h
    simpa [MemoryStore.entry, hb, Limited.begin] using h.insert
  | some b =>
    rw [hb] at h
    simpa [MemoryStore.entry, hb, Limited.begin] using h

theorem begin_snoc (ws : List Window) (starts : List Nat) (t : Nat) :
    Limited.begin ws (starts ++ [t]) = ⟨t, 0⟩ :: Limited.begin ws starts := by
  rw [Limited.begin, List.foldl_append]
  rfl

theorem Tracks.check (h : Tracks limiter c.key s) (hsound : limiter.Sound) (hallow : c = limiter.allow c.key c.times)
    (hcounts : (s.store.entry c).count < u32Max) (hnow : s.now ≤ c.times.sweep) :
    Fits limiter c.times.restarted ((s.store.check c).2.buckets c.key)
      (if (s.store.check c).1.isOk then Limited.grant (Limited.begin (s.windows c.key) (s.store.starts c))
        else Limited.begin (s.windows c.key) (s.store.starts c)) := by
  have hentry := ((h.sweep hsound.day hnow).entry).later c.times.inserted_le
  have hmax : c.max = limiter.maxRequests := congrArg Check.max hallow
  have hsecs : c.windowSecs = limiter.window / second := congrArg Check.windowSecs hallow
  cases hr : s.store.restarts c with
  | true =>
    have helapsed : second * (limiter.window / second) < c.times.checked - (s.store.entry c).start := by
      rw [← hsecs]
      exact of_decide_eq_true hr
    have hrestart := hentry.restart hsound helapsed c.times.checked_le
    rw [MemoryStore.check, if_pos hr, MemoryStore.starts, if_pos hr, begin_snoc]
    simp only [Function.update_self, Except.isOk, Except.toBool, if_true, Limited.grant, Nat.zero_add]
    exact hrestart
  | false =>
    have hcount := hentry.count.later c.times.checked_le
    have hnext : increment (s.store.entry c).count = (s.store.entry c).count + 1 := if_pos hcounts
    simp only [MemoryStore.check, MemoryStore.starts, hr, hnext, hmax, Bool.false_eq_true, if_false, List.append_nil,
      Function.update_self]
    split at hcount
    · rename_i hlt
      simpa [hlt, Except.isOk, Except.toBool] using hcount
    · rename_i hle
      simpa [hle, Except.isOk, Except.toBool] using hcount

theorem check_other (hne : c.key ≠ key) :
    (s.store.check c).2.buckets key = (s.store.sweep c.times).buckets key := by
  cases hr : s.store.restarts c <;>
    simp only [MemoryStore.check, hr, if_true, Bool.false_eq_true, if_false, ne_eq, hne.symm, not_false_eq_true,
      Function.update_of_ne]

theorem step_some (hstep : s.step c = some s') : s.now ≤ c.times.sweep ∧ s'.now = c.times.restarted ∧
    s'.store = (s.store.check c).2 ∧ s'.windows = Function.update s.windows c.key
      (if (s.store.check c).1.isOk then Limited.grant (Limited.begin (s.windows c.key) (s.store.starts c))
        else Limited.begin (s.windows c.key) (s.store.starts c)) := by
  unfold Limited.step at hstep
  split at hstep
  · cases hstep
  · rename_i hnow
    rw [Option.some.injEq] at hstep
    subst hstep
    exact ⟨not_lt.1 hnow, rfl, rfl, rfl⟩

theorem Tracks.step (h : Tracks limiter key s) (hsound : limiter.Sound)
    (hguards : c.key = key → c = limiter.allow key c.times) (hcounts : s.CountsOn key c)
    (hstep : s.step c = some s') : Tracks limiter key s' := by
  obtain ⟨hnow, hnow', hstore, hwindows⟩ := step_some hstep
  unfold Tracks
  rw [hnow', hstore, hwindows]
  by_cases hkey : c.key = key
  · subst hkey
    have hcheck := Tracks.check h hsound (hguards rfl) (hcounts rfl) hnow
    rw [Function.update_self]
    exact hcheck
  · have hinserted : c.times.inserted ≤ c.times.restarted := c.times.inserted_le.trans c.times.checked_le
    have hlater := (Tracks.sweep h hsound.day hnow).later hinserted
    rw [check_other hkey, Function.update_of_ne (Ne.symm hkey)]
    exact hlater

/-! ### The limits of the limiter -/

theorem Tracks.run {checks : List Check} (h : Tracks limiter key s) (hsound : limiter.Sound)
    (hguards : limiter.Guards key checks) (hmeets : Meets Limited.step (Limited.CountsOn key) s checks)
    (hrun : runFrom Limited.step s checks = some s') : Tracks limiter key s' := by
  induction checks generalizing s with
  | nil =>
    cases hrun
    exact h
  | cons c checks ih =>
    obtain ⟨t, hstep, hrest⟩ := runFrom_cons.1 hrun
    have hc : c.key = key → c = limiter.allow key c.times := hguards c List.mem_cons_self
    have htail : limiter.Guards key checks := fun c' hc' => hguards c' (List.mem_cons_of_mem c hc')
    exact ih (h.step hsound hc hmeets.1 hstep) htail (hmeets.tail hstep) hrest

theorem tracks_start (limiter : RateLimiter) (key : String) (now : Nat) : Tracks limiter key (.start now) := by
  refine ⟨⟨?_, .nil⟩, ?_, ?_⟩
  · intro w hw
    cases hw
  · intro _ w hw
    cases hw
  · intro b hb
    cases hb

theorem step_of_le (hnow : s.now ≤ c.times.sweep) : ∃ s', s.step c = some s' := by
  unfold Limited.step
  rw [if_neg (not_lt.2 hnow)]
  exact ⟨_, rfl⟩

theorem sweep_none {store : MemoryStore} (hb : store.buckets key = none) (t : Readings) :
    (store.sweep t).buckets key = none := by
  rcases buckets_sweep store t key with heq | heq
  · rw [heq, hb]
  · rw [heq, hb]
    rfl

theorem entry_none {store : MemoryStore} (hb : (store.sweep c.times).buckets c.key = none) :
    store.entry c = ⟨0, c.times.inserted⟩ := by
  rw [MemoryStore.entry, hb]
  rfl

/-- A check whose clock stands still opens one window where there is no bucket. -/
theorem step_fresh (hb : (s.store.sweep c.times).buckets c.key = none) (hstill : c.times.checked = c.times.inserted)
    (hstep : s.step c = some s') :
    (∃ n, s'.windows c.key = ⟨c.times.inserted, n⟩ :: s.windows c.key) ∧
      ∃ n, s'.store.buckets c.key = some ⟨n, c.times.inserted⟩ := by
  obtain ⟨_, _, hstore, hwindows⟩ := step_some hstep
  have hrestarts : s.store.restarts c = false := by
    rw [MemoryStore.restarts, entry_none hb, hstill, Nat.sub_self]
    exact decide_eq_false (Nat.not_lt_zero _)
  have hstarts : s.store.starts c = [c.times.inserted] := by
    simp [MemoryStore.starts, hb, hrestarts]
  constructor
  · rw [hwindows, Function.update_self, hstarts]
    split
    · exact ⟨1, rfl⟩
    · exact ⟨0, rfl⟩
  · simp only [hstore, MemoryStore.check, hrestarts, Bool.false_eq_true, if_false, Function.update_self, entry_none hb]
    exact ⟨_, rfl⟩

/-- The clock goes from `t` to `u` between the entry of the bucket and the look at its window. -/
def Readings.late (t u : Nat) (h : t ≤ u) : Readings := ⟨t, t, t, t, u, u, le_rfl, le_rfl, le_rfl, h, le_rfl⟩

def Readings.still (t : Nat) : Readings := .late t t le_rfl

theorem u32Max_pos : 0 < u32Max := by norm_num [u32Max]

theorem countsOn_fresh (hb : (s.store.sweep c.times).buckets c.key = none) : s.CountsOn key c := by
  intro _
  rw [entry_none hb]
  exact u32Max_pos

theorem guards_allow (limiter : RateLimiter) (key : String) (times : List Readings) :
    limiter.Guards key (times.map (limiter.allow key)) := by
  intro c hc _
  obtain ⟨t, _, rfl⟩ := List.mem_map.1 hc
  rfl

/-- A check that outlasts the window it has just opened opens a second one. -/
theorem step_outlasts (hb : (s.store.sweep c.times).buckets c.key = none)
    (hlong : second * c.windowSecs < c.times.checked - c.times.inserted) (hstep : s.step c = some s') :
    s'.windows c.key = ⟨c.times.restarted, 1⟩ :: ⟨c.times.inserted, 0⟩ :: s.windows c.key := by
  obtain ⟨_, _, _, hwindows⟩ := step_some hstep
  have hrestarts : s.store.restarts c = true := by
    rw [MemoryStore.restarts, entry_none hb]
    exact decide_eq_true hlong
  rw [hwindows, Function.update_self]
  simp [MemoryStore.check, MemoryStore.starts, hrestarts, hb, Except.isOk, Except.toBool, Limited.begin, Limited.grant]

theorem RateLimiter.Limits.restart (h : limiter.Limits key) :
    Bounded limiter [⟨second * (limiter.window / second) + 1, 1⟩, ⟨0, 0⟩] := by
  let c := limiter.allow key (.late 0 (second * (limiter.window / second) + 1) (Nat.zero_le _))
  obtain ⟨s, hstep⟩ := step_of_le (s := .start 0) (c := c) (Nat.zero_le _)
  have hb : ((Limited.start 0).store.sweep c.times).buckets c.key = none := sweep_none rfl _
  have hwindows : s.windows key = _ := step_outlasts hb (Nat.lt_succ_self _) hstep
  have hmeets : Meets Limited.step (Limited.CountsOn key) (.start 0) [c] := by
    refine ⟨countsOn_fresh hb, ?_⟩
    rw [hstep]
    trivial
  have hbounded := h 0 [c] s (guards_allow limiter key [c.times]) hmeets (runFrom_cons.2 ⟨s, hstep, rfl⟩)
  rwa [hwindows] at hbounded

theorem sweepInterval_le : sweepInterval ≤ maxIdle := by norm_num [sweepInterval, maxIdle, second]

theorem lastSweep_check (store : MemoryStore) (c : Check) :
    (store.check c).2.lastSweep = (store.sweep c.times).lastSweep := by
  unfold MemoryStore.check
  split
  · rfl
  · rfl

theorem sweep_old {store : MemoryStore} {t : Readings} (hlast : store.lastSweep + sweepInterval ≤ t.sweep)
    (hb : store.buckets key = some b) (hold : b.start + maxIdle ≤ t.cutoff) :
    (store.sweep t).buckets key = none := by
  have helapsed : sweepInterval ≤ t.sweep - store.lastSweep := by omega
  rw [MemoryStore.sweep, if_pos helapsed]
  show (store.buckets key).filter _ = none
  rw [hb, Option.filter_some_neg]
  simpa using hold

/-- A bucket a day old is swept away, and the next check opens a window. -/
theorem RateLimiter.Limits.sweep (h : limiter.Limits key) :
    ∃ n m, Bounded limiter [⟨maxIdle, n⟩, ⟨0, m⟩] := by
  let c := limiter.allow key (.still 0)
  let c' := limiter.allow key (.still maxIdle)
  obtain ⟨s, hstep⟩ := step_of_le (s := .start 0) (c := c) (Nat.zero_le _)
  have hb : ((Limited.start 0).store.sweep c.times).buckets c.key = none := sweep_none rfl _
  obtain ⟨⟨m, hwindows⟩, count, hbucket⟩ := step_fresh hb rfl hstep
  obtain ⟨_, hnow, hstore, _⟩ := step_some hstep
  obtain ⟨s', hstep'⟩ := step_of_le (s := s) (c := c') (by rw [hnow]; exact Nat.zero_le _)
  have hlast : s.store.lastSweep = 0 := by
    rw [hstore, lastSweep_check]
    unfold MemoryStore.sweep
    split
    · rfl
    · rfl
  have hb' : (s.store.sweep c'.times).buckets c'.key = none := by
    apply sweep_old _ hbucket
    · exact (Nat.zero_add maxIdle).le
    · rw [hlast, Nat.zero_add]
      exact sweepInterval_le
  obtain ⟨⟨n, hwindows'⟩, _⟩ := step_fresh hb' rfl hstep'
  have hmeets : Meets Limited.step (Limited.CountsOn key) (.start 0) [c, c'] := by
    refine ⟨countsOn_fresh hb, ?_⟩
    rw [hstep]
    refine ⟨countsOn_fresh hb', ?_⟩
    rw [hstep']
    trivial
  have hbounded := h 0 [c, c'] s' (guards_allow limiter key [c.times, c'.times]) hmeets
    (runFrom_cons.2 ⟨s, hstep, runFrom_cons.2 ⟨s', hstep', rfl⟩⟩)
  refine ⟨n, m, ?_⟩
  have hkey : s'.windows key = [⟨maxIdle, n⟩, ⟨0, m⟩] := hwindows'.trans (congrArg _ hwindows)
  rwa [hkey] at hbounded

/-- A key gets no more than `max` requests through a window, and its windows start `window` apart,
exactly where the limiter is sound. -/
theorem RateLimiter.limits_iff (limiter : RateLimiter) (key : String) : limiter.Limits key ↔ limiter.Sound := by
  constructor
  · intro h
    obtain ⟨hadmitted, hapart⟩ := h.restart
    obtain ⟨_, _, _, hday⟩ := h.sweep
    rw [List.isChain_pair] at hapart hday
    have hdiv := Nat.div_add_mod limiter.window second
    refine ⟨hadmitted _ List.mem_cons_self, ?_, ?_⟩
    · show limiter.window % second ≤ 1
      simp only at hapart
      omega
    · simpa using hday
  · intro hsound now checks s hguards hmeets hrun
    exact ((tracks_start limiter key now).run hsound hguards hmeets hrun).bounded

/-- One request in a second and a half: the second one, after 1.2 seconds, goes through as well. -/
theorem second_request_early :
    let limiter : RateLimiter := ⟨1, 1500000000⟩
    let checks := [limiter.allow "10.0.0.1" (.still 0), limiter.allow "10.0.0.1" (.still 1200000000)]
    limiter.Guards "10.0.0.1" checks ∧ (runFrom Limited.step (.start 0) checks).map (·.windows "10.0.0.1") =
      some [⟨1200000000, 1⟩, ⟨0, 1⟩] ∧ ¬ Bounded limiter [⟨1200000000, 1⟩, ⟨0, 1⟩] := by
  refine ⟨guards_allow _ _ [.still 0, .still 1200000000], by rfl, ?_⟩
  rintro ⟨_, hapart⟩
  rw [List.isChain_pair] at hapart
  norm_num at hapart

end Ecat.RateLimit
