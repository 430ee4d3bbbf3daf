import Ecat.ArchiveWalk

/-! One turn of the chunk loop, the final check, and the safety of DROP PARTITION in
every state of every run. -/

namespace Ecat.Archive

variable {S : Type} {cfg : Config} {digest : List Row → S} {insertOnly : Bool}

def TurnOk (cfg : Config) (r : Except TieringError Turn) (w : World S) : Prop :=
  ∀ t, r = .ok t → cfg.dryRun = false → match t with
    | .next k | .done k _ => Walked w.jobs k
    | .dropped _ => True

theorem turnOk_error {e : TieringError} {w : World S} : TurnOk cfg (.error e) w :=
  fun _ h => nomatch h

structure Fetched (cfg : Config) (k : Walk) (rows : List Row) (low high : Int) : Prop where
  bounds : idBounds cfg rows = .ok (some (low, high))
  above : ∀ r ∈ rows, k.cursor < r.id

theorem Fetched.cursor_lt {k : Walk} {rows : List Row} {low high : Int}
    (h : Fetched cfg k rows low high) : k.cursor < high := by
  obtain ⟨r, hr⟩ := List.exists_mem_of_ne_nil rows (ne_nil_of_idBounds h.bounds)
  have hlow := h.above r hr
  have hhigh := le_high h.bounds r hr
  omega

def Seeded (jobs : Nat → Option (JobState S)) (k : Walk) (rows : List Row) (high : Int) : Prop :=
  Walked jobs k ∧ ∃ st, jobs k.chunk = some st ∧ st.phase = .pending ∧ st.rows = rows.length ∧
    st.highId = high

theorem inv_copied {w : World S} (hi : Inv digest insertOnly w) {k : Walk} {rows : List Row}
    {low high : Int} (hf : Fetched cfg k rows low high) (hs : Seeded w.jobs k rows high)
    (hpres : Present insertOnly rows w) {st : JobState S} (hst : w.jobs k.chunk = some st) (time : Nat) :
    Inv digest insertOnly (w.setJob k.chunk (st.enter .copied (some (digest rows)) time)) := by
  obtain ⟨hwalk, s, hs, -, hrows, hhigh⟩ := hs
  have hss : s = st := Option.some.inj (hs.symm.trans hst)
  subst hss
  refine inv_setJob hi hst rfl (by simp [JobState.enter]) ⟨rows, rfl, hrows.symm, ?_, hpres, ?_⟩
  · intro r hr
    refine ⟨?_, ?_⟩
    · rw [← hwalk.cursor]
      exact hf.above r hr
    · rw [hhigh]
      exact le_high hf.bounds r hr
  · intro hne
    exact absurd rfl hne

variable [DecidableEq S]

theorem spec_resumeCopied (hdigest : Function.Injective digest) {k : Walk} {st : JobState S}
    (hp : st.phase = .copied) :
    (duty cfg digest insertOnly).Triple
      (fun w => w.jobs k.chunk = some st ∧ (cfg.dryRun = false → Walked w.jobs k))
      (resumeCopied cfg k st) (TurnOk cfg) := by
  unfold resumeCopied
  split
  · next hd =>
    refine Duty.triple_ret fun w _ _ t _ hf => ?_
    rw [hd] at hf
    cases hf
  · next hd =>
    have hfalse : cfg.dryRun = false := by simpa using hd
    split
    · exact Duty.triple_ret fun _ _ _ => turnOk_error
    · next checksum hc =>
      intro w hi hw
      obtain ⟨hst, hwalk⟩ := hw
      refine Duty.triple_bind (spec_verifyAndAdvance hdigest hst hp hc) ?_ w hi rfl
      rintro (e | outcome)
      · exact Duty.triple_ret fun _ _ _ => turnOk_error
      · refine Duty.triple_ret fun w' _ h t ht _ => ?_
        cases ht
        obtain ⟨st', hj, hrows, hhigh, hpend, hver⟩ := h outcome rfl
        rw [hj, ← hrows, ← hhigh]
        exact (hwalk hfalse).settle hpend hver

theorem spec_throttle {P : World S → Prop} (hP : Stable insertOnly P) (k : Walk) :
    (duty cfg digest insertOnly).Triple P (throttle cfg k) fun _ => P := by
  unfold throttle
  split
  · refine spec_time (.inl rfl) hP fun elapsed => ?_
    dsimp only
    split
    · exact spec_time (o := .wait _) (k := .ret) (.inr (.inr ⟨_, rfl⟩)) hP
        fun _ => Duty.triple_ret fun _ _ h => h
    · exact Duty.triple_ret fun _ _ h => h
  · exact Duty.triple_ret fun _ _ h => h

theorem spec_seedChunk {k : Walk} {seeded : Bool} {rows : List Row} {low high : Int} {checksum : S}
    (hf : Fetched cfg k rows low high) :
    (duty cfg digest insertOnly).Triple
      (fun w => (Walked w.jobs k ∧ if seeded then Seeded w.jobs k rows high else w.jobs k.chunk = none) ∧
        Present insertOnly rows w)
      (seedChunk k.chunk seeded rows.length low high checksum)
      fun r w => r = .ok () → Seeded w.jobs k rows high ∧ Present insertOnly rows w := by
  unfold seedChunk
  split
  · next hs => exact Duty.triple_ret fun w _ h _ => ⟨by simpa [hs] using h.1.2, h.2⟩
  · next hs =>
    refine spec_time (.inr (.inl rfl)) ((stable_off_hot fun _ _ h => h).and (stable_present rows))
      fun time => ?_
    unfold upsert
    split
    · exact Duty.triple_ret fun _ _ _ he => nomatch he
    split
    · exact Duty.triple_ret fun _ _ _ he => nomatch he
    refine spec_call (o := .upsert k.chunk ⟨low, high, rows.length, some checksum, .pending, time⟩)
      (k := .ret) (by simp) ((stable_off_hot fun _ _ h => h).and (stable_present rows))
      (fun r w => r = .ok () → Seeded w.jobs k rows high ∧ Present insertOnly rows w) ?_
      fun _ => Duty.triple_ret fun _ _ h => h
    rintro w c hi ⟨⟨hwalk, hnone⟩, hpres⟩ _ _
    have hn : w.jobs k.chunk = none := by simpa [hs] using hnone
    have hinv : Inv digest insertOnly
        (w.setJob k.chunk ⟨low, high, rows.length, some checksum, .pending, time⟩) := by
      refine inv_upsert hi hn rfl ?_ fun m hm => ?_
      · rw [← hwalk.cursor]
        exact hf.cursor_lt
      · obtain ⟨s, hs, hsp, -⟩ := hwalk.passed m hm
        exact ⟨s, hs, hsp⟩
    have hwalk' : Walked (Function.update w.jobs k.chunk
        (some ⟨low, high, rows.length, some checksum, .pending, time⟩)) k := by
      refine ⟨?_, ?_, ?_⟩
      · rw [floor_update_le _ _ le_rfl]
        exact hwalk.cursor
      · intro n hn
        obtain ⟨s, hs, hrest⟩ := hwalk.passed n hn
        exact ⟨s, (Function.update_of_ne (Nat.ne_of_lt hn) _ w.jobs).trans hs, hrest⟩
      · rw [hwalk.total]
        congr 1
        refine Finset.sum_congr rfl ?_
        intro n hn
        rw [Function.update_of_ne (Nat.ne_of_lt (Finset.mem_range.mp hn)) _ w.jobs]
    exact attempt_keeps (R := fun r w => r = .ok () → Seeded w.jobs k rows high ∧ Present insertOnly rows w)
      hi hinv (fun _ => ⟨⟨hwalk', _, Function.update_self .., rfl, rfl, rfl⟩, hpres⟩)
      fun e => ⟨fun he => (nomatch he), fun he => (nomatch he)⟩

theorem spec_writeChunk {α : Type} {k : Walk} {seeded : Bool} {rows : List Row} {low high : Int}
    (hf : Fetched cfg k rows low high) {f : Res (.writeChunk k.chunk rows) → Proc S α}
    {Q : α → World S → Prop}
    (h : ∀ r, (duty cfg digest insertOnly).Triple (fun w =>
      (∀ checksum, r = .ok checksum → checksum = digest rows) ∧
        (Walked w.jobs k ∧ if seeded then Seeded w.jobs k rows high else w.jobs k.chunk = none) ∧
        Present insertOnly rows w) (f r) Q) :
    (duty cfg digest insertOnly).Triple
      (fun w => (Walked w.jobs k ∧ if seeded then ∃ st, w.jobs k.chunk = some st ∧ st.phase = .pending
        else w.jobs k.chunk = none) ∧ Present insertOnly rows w)
      ((perform (.writeChunk k.chunk rows)).bind f) Q := by
  refine spec_call (by simp) ((stable_off_hot fun _ _ h => h).and (stable_present rows)) _ ?_ h
  rintro w c hi ⟨⟨hwalk, hrow⟩, hpres⟩ hrec _
  have hfree : ∀ st, w.jobs k.chunk = some st → st.phase = .pending := by
    intro st hst
    cases seeded with
    | false =>
      have hn : w.jobs k.chunk = none := by simpa using hrow
      rw [hn] at hst
      cases hst
    | true =>
      obtain ⟨s, hs, hp⟩ : ∃ s, w.jobs k.chunk = some s ∧ s.phase = .pending := by simpa using hrow
      rw [hs] at hst
      cases hst
      exact hp
  have hseed : if seeded then Seeded w.jobs k rows high else w.jobs k.chunk = none := by
    cases seeded with
    | false => simpa using hrow
    | true =>
      obtain ⟨s, hs, hp⟩ : ∃ s, w.jobs k.chunk = some s ∧ s.phase = .pending := by simpa using hrow
      obtain ⟨hlen, hhigh⟩ := hrec s low high hs hf.bounds
      simpa using ⟨hwalk, s, hs, hp, hlen.symm, hhigh.symm⟩
  have hinv := inv_write hi (c.stored.getD rows) hfree
  exact attempt_keeps (R := fun r w => (∀ checksum, r = .ok checksum → checksum = digest rows) ∧
      (Walked w.jobs k ∧ if seeded then Seeded w.jobs k rows high else w.jobs k.chunk = none) ∧
      Present insertOnly rows w) hi hinv
    ⟨fun _ h => (Except.ok.inj h).symm, ⟨hwalk, hseed⟩, hpres⟩
    fun e => ⟨⟨fun _ h => (nomatch h), ⟨hwalk, hseed⟩, hpres⟩,
      fun _ h => (nomatch h), ⟨hwalk, hseed⟩, hpres⟩

theorem spec_settleChunk (hdigest : Function.Injective digest) {jobs : Nat → Option (JobState S)} {k : Walk}
    (hwalk : Walked jobs k) (st : JobState S) {checksum : S} {rows : Nat} {high : Int}
    (hp : st.phase = .copied) (hc : st.checksum = some checksum) (hr : st.rows = rows)
    (hh : st.highId = high) :
    (duty cfg digest insertOnly).Triple (fun w => w.jobs = Function.update jobs k.chunk (some st))
      (do
        match ← verifyAndAdvance cfg k.chunk checksum with
        | .error e => return .error e
        | .ok outcome =>
          let k' := ((k.settle outcome).pass rows high).reported rows
          throttle cfg k'
          return .ok (.next k')) (TurnOk cfg) := by
  refine Duty.triple_bind (spec_verifyAndAdvance hdigest (Function.update_self ..) hp hc) ?_
  rintro (e | outcome)
  · exact Duty.triple_ret fun _ _ _ => turnOk_error
  refine Duty.triple_bind ((spec_throttle (P := fun w => Walked w.jobs
    (((k.settle outcome).pass rows high).reported rows))
    (stable_off_hot fun _ _ h => h) _).weaken ?_) ?_
  · intro w _ hout
    obtain ⟨st', hj, hrows, hhigh, hpend, hver⟩ := hout outcome rfl
    have hfin := walked_reported (hwalk.settle hpend hver) rows
    rw [hrows, hr, hhigh, hh] at hfin
    rw [hj, Function.update_idem]
    exact hfin
  · intro _
    refine Duty.triple_ret fun w _ h t ht _ => ?_
    cases ht
    exact h

theorem spec_storeChunk (hdigest : Function.Injective digest) {k : Walk}
    {seeded : Bool} {rows : List Row} {low high : Int} (hf : Fetched cfg k rows low high) :
    (duty cfg digest insertOnly).Triple
      (fun w => (Walked w.jobs k ∧ if seeded then ∃ st, w.jobs k.chunk = some st ∧ st.phase = .pending
        else w.jobs k.chunk = none) ∧ Present insertOnly rows w)
      (storeChunk cfg k seeded rows low high) (TurnOk cfg) := by
  refine spec_writeChunk hf ?_
  rintro (e | checksum)
  · exact Duty.triple_ret fun _ _ _ => turnOk_error
  by_cases hsum : checksum = digest rows
  · subst hsum
    refine Duty.triple_bind ((spec_seedChunk hf).weaken fun _ _ h => h.2) ?_
    rintro (e | u)
    · exact Duty.triple_ret fun _ _ _ => turnOk_error
    intro w hi hseed
    obtain ⟨hs, hpres⟩ := hseed rfl
    refine Duty.triple_bind (spec_advance w.jobs (Present insertOnly rows) (stable_present rows)
      (fun _ _ h => h) ?_) ?_ w hi ⟨rfl, hpres⟩
    · intro w' st time hi' hpres' hj hst _
      rw [← hj] at hs hst
      exact inv_copied hi' hf hs hpres' hst time
    rintro (e | u)
    · exact Duty.triple_ret fun _ _ _ => turnOk_error
    intro w₁ hi₁ hent
    obtain ⟨⟨st, time, hst, -, hj⟩, -⟩ := hent rfl
    obtain ⟨hwalk, s, hs', -, hrows, hhigh⟩ := hs
    have hss : s = st := Option.some.inj (hs'.symm.trans hst)
    subst hss
    exact spec_settleChunk hdigest hwalk (s.enter .copied (some (digest rows)) time) rfl rfl hrows hhigh
      w₁ hi₁ hj
  · exact fun w _ h => absurd (h.1 checksum rfl) hsum

def Open (cfg : Config) (k : Walk) (seeded : Bool) (w : World S) : Prop :=
  (cfg.dryRun = false → Walked w.jobs k) ∧
    if seeded then ∃ st, w.jobs k.chunk = some st ∧ st.phase = .pending else w.jobs k.chunk = none

theorem spec_copyChunk (hdigest : Function.Injective digest) (k : Walk) (seeded : Bool) :
    (duty cfg digest insertOnly).Triple (Open cfg k seeded) (copyChunk cfg k seeded) (TurnOk cfg) := by
  refine spec_call (by simp) (stable_off_hot fun _ _ h => h)
    (fun r w => Open cfg k seeded w ∧ ∀ rows, r = .ok rows →
      (∀ r ∈ rows, k.cursor < r.id) ∧ Present insertOnly rows w) ?_ ?_
  · intro w c hi h _ _
    refine attempt_keeps (R := fun r w => Open cfg k seeded w ∧ ∀ rows, r = .ok rows →
        (∀ r ∈ rows, k.cursor < r.id) ∧ Present insertOnly rows w) hi hi ⟨h, fun rows hr => ?_⟩
      fun e => ⟨⟨h, fun _ he => (nomatch he)⟩, h, fun _ he => (nomatch he)⟩
    cases hhot : w.hot with
    | none =>
      rw [hhot] at hr
      cases hr
    | some hot =>
      rw [hhot] at hr
      cases hr
      refine ⟨selectChunk_above cfg k.cursor hot, fun _ hot' hh => ?_⟩
      rw [hhot] at hh
      cases hh
      exact selectChunk_subperm cfg k.cursor hot
  rintro (e | rows)
  · exact Duty.triple_ret fun _ _ _ => turnOk_error
  dsimp only
  split
  · exact Duty.triple_ret fun _ _ _ => turnOk_error
  · refine Duty.triple_ret fun w _ h t ht hd => ?_
    cases ht
    exact h.1.1 hd
  · next low high hb =>
    split
    · next hd =>
      refine Duty.triple_ret fun w _ _ t _ hf => ?_
      rw [hd] at hf
      cases hf
    · next hd =>
      intro w hi h
      have hfetched : Fetched cfg k rows low high := ⟨hb, (h.2 rows rfl).1⟩
      exact spec_storeChunk hdigest hfetched w hi
        ⟨⟨h.1.1 (by simpa using hd), h.1.2⟩, (h.2 rows rfl).2⟩

theorem spec_turn (hdigest : Function.Injective digest) (k : Walk) :
    (duty cfg digest insertOnly).Triple (fun w => cfg.dryRun = false → Walked w.jobs k)
      (turn cfg k) (TurnOk cfg) := by
  refine spec_time (.inl rfl) (stable_off_hot fun _ _ h => h) fun elapsed => ?_
  split
  · refine Duty.triple_ret fun w _ h t ht hd => ?_
    cases ht
    exact h hd
  refine Duty.triple_bind (spec_load (stable_off_hot fun _ _ h => h)) ?_
  rintro (e | _ | st)
  · exact Duty.triple_ret fun _ _ _ => turnOk_error
  · refine (spec_copyChunk hdigest k false).weaken fun w _ h => ⟨h.1, ?_⟩
    simpa using h.2 none rfl
  dsimp only
  split
  · refine Duty.triple_ret fun w _ h t ht hd => ?_
    cases ht
    trivial
  · next hp =>
    refine Duty.triple_ret fun w _ h t ht hd => ?_
    cases ht
    exact (h.1 hd).pass_present (h.2 _ rfl) hp
  · next hp => exact (spec_resumeCopied hdigest hp).weaken fun w _ h => ⟨h.2 _ rfl, h.1⟩
  · next hp =>
    refine (spec_copyChunk hdigest k true).weaken fun w _ h => ⟨h.1, ?_⟩
    simpa using ⟨st, h.2 _ rfl, hp⟩

theorem spec_retentionPassed {P : World S → Prop} (hP : Stable insertOnly P) (verifiedAt : Option Nat) :
    (duty cfg digest insertOnly).Triple P (retentionPassed cfg verifiedAt) fun _ => P := by
  cases verifiedAt with
  | none => exact Duty.triple_ret fun _ _ h => h
  | some t =>
    exact spec_time (.inr (.inl rfl)) hP fun _ => Duty.triple_ret fun _ _ h => h

omit [DecidableEq S] in
theorem inv_counted {w : World S} (hi : Inv digest insertOnly w) (counted : List Row) :
    Inv digest insertOnly { w with counted } :=
  fun n st hst => ⟨(hi n st hst).prior, (hi n st hst).above, (hi n st hst).content⟩

omit [DecidableEq S] in
theorem covered_at_count {w : World S} (hi : Inv digest insertOnly w) {k : Walk}
    (hwalk : Walked w.jobs k) (hv : k.allVerified = true) {hot : List Row} (hhot : w.hot = some hot)
    (hsize : hot.length < 2 ^ 63) (hcount : hot.length = k.archivedRows)
    (hkept : insertOnly = false → KeysKeptAtCount .countRows w) :
    Covered insertOnly { w with counted := hot } := by
  have hall : ∀ n < k.chunk, Archived w n := by
    intro n hn
    obtain ⟨st, hst, -, hver⟩ := hwalk.passed n hn
    exact ⟨st, hst, hver hv⟩
  have htotal : ∑ n ∈ Finset.range k.chunk, recordedRows w n = hot.length := by
    have ht := hwalk.total
    have hu : u64Max = 2 ^ 64 - 1 := rfl
    simp only [recordedRows]
    omega
  constructor
  · intro hio hot' hh r hr
    have hh' : w.hot = some hot' := hh
    rw [hhot] at hh'
    cases hh'
    have hcov := covered_of_total id (fun a b h => congrArg Row.id h) hi hall htotal
      (fun n hn => by simpa using (archived_chunk hi (hall n hn)).2.2 hio hot hhot) r hr
    obtain ⟨n, hn, hmem⟩ := hcov
    exact ⟨n, hn, by simpa using hmem⟩
  · intro hio r hr
    exact covered_of_total Row.id (fun a b h => h) hi hall htotal (hkept hio hot hhot _ hall htotal) r hr

theorem spec_rowCountMatches {k : Walk} (hv : k.allVerified = true) :
    (duty cfg digest insertOnly).Triple (fun w => Walked w.jobs k) (rowCountMatches k.archivedRows)
      fun r w => r = .ok true → Covered insertOnly w := by
  refine spec_call (by simp) (stable_off_hot fun _ _ h => h)
    (fun r w => ∀ actual, r = .ok actual → actual = k.archivedRows → Covered insertOnly w) ?_ ?_
  · intro w c hi hwalk _ hkept
    obtain ⟨hot, jobs, cold, counted⟩ := w
    cases hot with
    | none =>
      exact attempt_keeps (R := fun r w => ∀ actual, r = .ok actual → actual = k.archivedRows →
        Covered insertOnly w) hi hi (fun _ he => nomatch he)
        fun e => ⟨fun _ he => (nomatch he), fun _ he => (nomatch he)⟩
    | some hot =>
      refine attempt_keeps (R := fun r w => ∀ actual, r = .ok actual → actual = k.archivedRows →
        Covered insertOnly w) hi (inv_counted hi hot) ?_
        fun e => ⟨fun _ he => (nomatch he), fun _ he => (nomatch he)⟩
      split
      · next hsize =>
        intro actual ha hm
        cases ha
        exact covered_at_count hi hwalk hv rfl hsize hm hkept
      · exact fun _ he => nomatch he
  · rintro (e | actual)
    · exact Duty.triple_ret fun _ _ _ he => nomatch he
    · exact Duty.triple_ret fun w _ h he => h actual rfl (by simpa using Except.ok.inj he)

theorem spec_markDropped (ns : List Nat) :
    (duty cfg digest insertOnly).Triple (fun _ => True) (markDropped cfg ns) fun _ _ => True := by
  induction ns with
  | nil => exact Duty.triple_ret fun _ _ _ => trivial
  | cons n ns ih =>
    intro w hi _
    refine Duty.triple_bind (spec_advance w.jobs (fun _ => True)
      (fun _ _ _ _ h => h) (fun _ _ h => h) ?_) ?_ w hi ⟨rfl, trivial⟩
    · intro w' st time hi' _ hj hst hp
      rw [← hj] at hst
      have hv : st.phase = .verified := Option.some.inj hp
      obtain ⟨rows, hsum, hlen, hid, hsub, hcold⟩ := (hi' n st hst).content (by simp [hv])
      exact inv_setJob hi' hst rfl (by simp [JobState.enter])
        ⟨rows, by simpa [JobState.enter] using hsum, hlen, hid, hsub, fun _ => hcold (by simp [hv])⟩
    · rintro (e | u)
      · exact Duty.triple_ret fun _ _ _ => trivial
      · exact ih.weaken fun _ _ _ => trivial

theorem spec_dropAndMark (k : Walk) :
    (duty cfg digest insertOnly).Triple (Covered insertOnly) (dropAndMark cfg k) fun _ _ => True := by
  refine Duty.triple_call (fun _ _ => True) ?_ ?_ ?_
  · rintro w w' h ⟨hot, rfl, -, hio⟩ _
    refine ⟨fun ht => ?_, h.2⟩
    have hsame : hot = w.hot := (hio ht).2 rfl
    subst hsame
    exact h.1 ht
  · intro w c hi h _
    exact ⟨fun _ => h, attempt_keeps (R := fun _ _ => True) hi (inv_drop hi) trivial
      fun _ => ⟨trivial, trivial⟩⟩
  · rintro (e | u)
    · exact Duty.triple_ret fun _ _ _ => trivial
    · refine Duty.triple_bind (spec_markDropped _) ?_
      rintro (e | u)
      · exact Duty.triple_ret fun _ _ _ => trivial
      · exact Duty.triple_ret fun _ _ _ => trivial

theorem spec_finish (k : Walk) (complete : Bool) :
    (duty cfg digest insertOnly).Triple (fun w => cfg.dryRun = false → Walked w.jobs k)
      (finish cfg k complete) fun _ _ => True := by
  unfold finish
  split
  · next h =>
    have hd : cfg.dryRun = false := by simpa using h.2.2.2.2
    refine Duty.triple_bind (spec_retentionPassed (stable_off_hot fun _ _ h => h) k.verifiedAt) ?_
    rintro (_ | _)
    · exact Duty.triple_ret fun _ _ _ => trivial
    · refine Duty.triple_bind ((spec_rowCountMatches h.2.1).weaken fun w _ hw => hw hd) ?_
      rintro (e | _ | _)
      · exact Duty.triple_ret fun _ _ _ => trivial
      · exact Duty.triple_ret fun _ _ _ => trivial
      · exact (spec_dropAndMark k).weaken fun _ _ hc => hc rfl
  · exact Duty.triple_ret fun _ _ _ => trivial

theorem spec_walk (hdigest : Function.Injective digest) (fuel : Nat) (k : Walk) :
    (duty cfg digest insertOnly).Triple (fun w => cfg.dryRun = false → Walked w.jobs k)
      (walk cfg fuel k) fun _ _ => True := by
  induction fuel generalizing k with
  | zero => exact Duty.triple_ret fun _ _ _ => trivial
  | succ fuel ih =>
    refine Duty.triple_bind (spec_turn hdigest k) ?_
    rintro (e | k' | ⟨k', complete⟩ | k')
    · exact Duty.triple_ret fun _ _ _ => trivial
    · exact (ih k').weaken fun w _ h hd => h _ rfl hd
    · exact (spec_finish k' complete).weaken fun w _ h hd => h _ rfl hd
    · exact Duty.triple_ret fun _ _ _ => trivial

end Ecat.Archive
