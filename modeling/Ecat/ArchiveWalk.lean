import Ecat.ArchiveRules

/-! The chunk loop: what its variables say about the state table, and that the
partition is dropped only when nothing of it is outside the verified chunks. -/

namespace Ecat.Archive

variable {S : Type}

/-- The loop variables agree with the state rows of the chunks passed so far. -/
structure Walked (jobs : Nat → Option (JobState S)) (k : Walk) : Prop where
  cursor : k.cursor = floor jobs k.chunk
  passed : ∀ n < k.chunk, ∃ st, jobs n = some st ∧ st.phase ≠ .pending ∧
    (k.allVerified = true → st.phase = .verified)
  total : k.archivedRows = min (∑ n ∈ Finset.range k.chunk, (jobs n).elim 0 (·.rows)) u64Max

theorem walked_begin (jobs : Nat → Option (JobState S)) (report : Report) :
    Walked jobs (Walk.begin report) :=
  ⟨rfl, fun _ h => absurd h (Nat.not_lt_zero _), by simp [Walk.begin]⟩

theorem Walked.pass {jobs : Nat → Option (JobState S)} {k : Walk} (h : Walked jobs k) {st : JobState S}
    (all : Bool) (time : Option Nat) (report : Report) (hp : st.phase ≠ .pending)
    (hall : all = true → k.allVerified = true ∧ st.phase = .verified) :
    Walked (Function.update jobs k.chunk (some st))
      (Walk.pass { k with allVerified := all, verifiedAt := time, report } st.rows st.highId) := by
  refine ⟨?_, ?_, ?_⟩
  · simp [Walk.pass, floor, Function.update_self]
  · intro n hn
    by_cases he : n = k.chunk
    · exact ⟨st, he ▸ Function.update_self .., hp, fun ha => (hall ha).2⟩
    · have hlt : n < k.chunk := by
        simp only [Walk.pass] at hn
        omega
      obtain ⟨s, hs, hsp, hsv⟩ := h.passed n hlt
      exact ⟨s, (Function.update_of_ne he _ jobs).trans hs, hsp, fun ha => hsv (hall ha).1⟩
  · have hsum : ∑ n ∈ Finset.range k.chunk, (Function.update jobs k.chunk (some st) n).elim 0 (·.rows) =
        ∑ n ∈ Finset.range k.chunk, (jobs n).elim 0 (·.rows) := by
      refine Finset.sum_congr rfl ?_
      intro n hn
      rw [Function.update_of_ne (Nat.ne_of_lt (Finset.mem_range.mp hn)) _ jobs]
    simp only [Walk.pass, saturatingAdd, Finset.sum_range_succ, hsum, Function.update_self, Option.elim_some, h.total]
    omega

theorem Walked.pass_present {jobs : Nat → Option (JobState S)} {k : Walk} (h : Walked jobs k)
    {st : JobState S} {time : Option Nat} (hst : jobs k.chunk = some st) (hp : st.phase = .verified) :
    Walked jobs (Walk.pass { k with verifiedAt := time } st.rows st.highId) := by
  have hpending : st.phase ≠ .pending := by simp [hp]
  have hh := h.pass k.allVerified time k.report hpending fun ha => ⟨ha, hp⟩
  rwa [Function.update_eq_self_iff.2 hst.symm] at hh

theorem Walked.settle {jobs : Nat → Option (JobState S)} {k : Walk} (h : Walked jobs k)
    {st : JobState S} {outcome : Option Nat} (hp : st.phase ≠ .pending)
    (hv : outcome ≠ none → st.phase = .verified) :
    Walked (Function.update jobs k.chunk (some st)) ((k.settle outcome).pass st.rows st.highId) := by
  cases outcome with
  | none => exact h.pass false k.verifiedAt k.report hp fun ha => nomatch ha
  | some time =>
    exact h.pass k.allVerified (some time) k.report hp fun ha => ⟨ha, hv (by simp)⟩

theorem walked_reported {jobs : Nat → Option (JobState S)} {k : Walk} (h : Walked jobs k) (rows : Nat) :
    Walked jobs (k.reported rows) :=
  ⟨h.cursor, h.passed, h.total⟩

theorem le_high_of_idBoundsFrom {cfg : Config} {rows : List Row} {bounds : Option (Int × Int)}
    {low high : Int} (h : idBoundsFrom cfg bounds rows = .ok (some (low, high))) :
    (∀ r ∈ rows, r.id ≤ high) ∧ ∀ l b, bounds = some (l, b) → b ≤ high := by
  induction rows generalizing bounds with
  | nil =>
    have hb : bounds = some (low, high) := Except.ok.inj h
    refine ⟨by simp, ?_⟩
    intro l b he
    rw [hb] at he
    cases he
    exact le_rfl
  | cons r rows ih =>
    unfold idBoundsFrom at h
    split at h
    · cases h
    · next id hid =>
      have hrid : id = r.id := by
        unfold asI64 at hid
        split at hid
        · exact (Option.some.inj hid).symm
        · cases hid
      split at h
      · obtain ⟨hall, hb⟩ := ih h
        refine ⟨?_, fun _ _ he => nomatch he⟩
        have hle := hb id id rfl
        simpa [hrid ▸ hle] using hall
      · next l b =>
        obtain ⟨hall, hb⟩ := ih h
        have hle := hb _ _ rfl
        refine ⟨?_, ?_⟩
        · have hr : r.id ≤ high := by omega
          simpa [hr] using hall
        · intro l' b' he
          cases he
          omega

theorem le_high {cfg : Config} {rows : List Row} {low high : Int}
    (h : idBounds cfg rows = .ok (some (low, high))) : ∀ r ∈ rows, r.id ≤ high :=
  (le_high_of_idBoundsFrom h).1

theorem ne_nil_of_idBounds {cfg : Config} {rows : List Row} {b : Int × Int}
    (h : idBounds cfg rows = .ok (some b)) : rows ≠ [] := by
  rintro rfl
  cases h

theorem selectChunk_subperm (cfg : Config) (cursor : Int) (rows : List Row) :
    (selectChunk cfg cursor rows).Subperm rows := by
  refine (List.take_sublist _ _).subperm.trans ?_
  exact (List.perm_insertionSort _ _).subperm.trans List.filter_sublist.subperm

theorem selectChunk_above (cfg : Config) (cursor : Int) (rows : List Row) :
    ∀ r ∈ selectChunk cfg cursor rows, cursor < r.id := by
  intro r hr
  have hm := (List.perm_insertionSort _ _).mem_iff.mp ((List.take_sublist _ _).subset hr)
  have hc := (List.mem_filter.mp hm).2
  simp only [Bool.decide_and, Bool.and_eq_true, decide_eq_true_eq] at hc
  exact hc.1

variable [DecidableEq S] {cfg : Config} {digest : List Row → S} {insertOnly : Bool}

theorem spec_verifyAndAdvance (hdigest : Function.Injective digest) {jobs : Nat → Option (JobState S)}
    {n : Nat} {st : JobState S} {checksum : S} (hst : jobs n = some st) (hp : st.phase = .copied)
    (hc : st.checksum = some checksum) :
    (duty cfg digest insertOnly).Triple (fun w => w.jobs = jobs) (verifyAndAdvance cfg n checksum)
      fun r w => ∀ outcome, r = .ok outcome → ∃ st', w.jobs = Function.update jobs n (some st') ∧
        st'.rows = st.rows ∧ st'.highId = st.highId ∧ st'.phase ≠ .pending ∧
        (outcome ≠ none → st'.phase = .verified) := by
  refine spec_call (by simp) (stable_off_hot fun _ _ h => h)
    (fun r w => w.jobs = jobs ∧ (r = .ok true → digest (w.cold n) = checksum)) ?_ ?_
  · intro w c hi hj _ _
    refine attempt_keeps (R := fun r w => w.jobs = jobs ∧ (r = .ok true → digest (w.cold n) = checksum))
      hi hi ⟨hj, fun h => ?_⟩ fun e => ⟨⟨hj, fun he => (nomatch he)⟩, hj, fun he => (nomatch he)⟩
    have hb := Except.ok.inj h
    simp only [decide_eq_true_eq] at hb
    exact hb.1
  rintro (e | _ | _)
  · exact Duty.triple_ret fun _ _ _ _ he => nomatch he
  · refine Duty.triple_ret fun w _ h outcome he => ⟨st, ?_, rfl, rfl, by simp [hp], ?_⟩
    · rw [Function.update_eq_self_iff.2 hst.symm]
      exact h.1
    · cases he
      exact fun h => absurd rfl h
  · refine Duty.triple_bind ((spec_advance jobs (fun w => digest (w.cold n) = checksum)
      (stable_off_hot fun _ _ h => h) (fun _ _ h => h) ?_).weaken fun w _ h => ⟨h.1, h.2 rfl⟩) ?_
    · intro w s time hi hF hj hs _
      have hss : s = st := Option.some.inj (hs.symm.trans hst)
      subst hss
      rw [← hj] at hs
      obtain ⟨rows, hsum, hlen, hid, hsub, -⟩ := (hi n s hs).content (by simp [hp])
      have hcold : w.cold n = rows := hdigest (hF.trans (Option.some.inj (hc.symm.trans hsum)))
      exact inv_setJob hi hs rfl (by simp [JobState.enter])
        ⟨rows, by simpa [JobState.enter] using hsum, hlen, hid, hsub, fun _ => hcold⟩
    · rintro (e | u)
      · exact Duty.triple_ret fun _ _ _ _ he => nomatch he
      · refine spec_time (P := Entered jobs n .verified none) (.inr (.inl rfl))
          (stable_off_hot fun _ _ h => h) ?_ |>.weaken fun _ _ h => (h rfl).1
        intro time
        refine Duty.triple_ret fun w _ h outcome _ => ?_
        obtain ⟨s, t, hs, -, hw⟩ := h
        have hss : s = st := Option.some.inj (hs.symm.trans hst)
        subst hss
        exact ⟨s.enter .verified none t, hw, rfl, rfl, by simp [JobState.enter], fun _ => rfl⟩

end Ecat.Archive
