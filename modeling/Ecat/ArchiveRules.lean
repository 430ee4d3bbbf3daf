import Ecat.ArchiveInvariant

/-! Rules for the calls of `archive_partition`, and specifications of the state
moves it makes for one chunk. -/

namespace Ecat.Archive

variable {S : Type}

variable {cfg : Config} {digest : List Row → S} {insertOnly : Bool} {α : Type}

theorem attempt_keeps {γ : Type} {I : World S → Prop} {R : Except TieringError γ → World S → Prop}
    {c : Reply} {answer : Except TieringError γ} {w w' : World S} (hi : I w) (hi' : I w')
    (hanswer : R answer w') (hlost : ∀ e, R (.error e) w ∧ R (.error e) w') :
    I (attempt c answer w w').2 ∧ R (attempt c answer w w').1 (attempt c answer w w').2 := by
  unfold attempt
  split
  · exact ⟨hi', hanswer⟩
  · next applied e _ =>
    cases applied with
    | false => exact ⟨hi, (hlost e).1⟩
    | true => exact ⟨hi', (hlost e).2⟩

theorem stable_off_hot {P : World S → Prop} (h : ∀ w hot, P w → P { w with hot }) :
    Stable insertOnly P := by
  rintro w next w' ⟨hot, rfl, -, -⟩ hP
  exact h w hot hP

theorem Stable.and {P Q : World S → Prop} (hP : Stable insertOnly P) (hQ : Stable insertOnly Q) :
    Stable insertOnly fun w => P w ∧ Q w :=
  fun w next w' hm h => ⟨hP w next w' hm h.1, hQ w next w' hm h.2⟩

/-- The rows of a chunk that has been read are still in a partition that only grows. -/
def Present (insertOnly : Bool) (rows : List Row) (w : World S) : Prop :=
  insertOnly = true → ∀ hot, w.hot = some hot → rows.Subperm hot

theorem stable_present (rows : List Row) : Stable (S := S) insertOnly (Present insertOnly rows) := by
  rintro w next w' ⟨hot, rfl, hsome, hio⟩ hP ht b hb
  have hb' : hot = some b := hb
  obtain ⟨a, ha⟩ : ∃ a, w.hot = some a := by
    rw [← Option.isSome_iff_exists, ← hsome, hb', Option.isSome_some]
  exact (hP ht a ha).trans ((hio ht).1 a b ha hb')

variable [DecidableEq S]

def duty (cfg : Config) (digest : List Row → S) (insertOnly : Bool) :
    Duty (Op S) Res (World S) Reply where
  exec := exec cfg digest
  allowed o _ w := RewriteAsRecorded cfg o w ∧ (insertOnly = false → KeysKeptAtCount o w)
  inv := Inv digest insertOnly
  rely := Mutates insertOnly
  guar o w _ := o = .dropPartition → Covered insertOnly w

theorem spec_call {o : Op S} {k : Res o → Proc S α} {P : World S → Prop} {Q : α → World S → Prop}
    (hd : o ≠ .dropPartition) (hP : Stable insertOnly P) (R : Res o → World S → Prop)
    (step : ∀ w c, Inv digest insertOnly w → P w → RewriteAsRecorded cfg o w →
      (insertOnly = false → KeysKeptAtCount o w) →
      Inv digest insertOnly (exec cfg digest o c w).2 ∧
        R (exec cfg digest o c w).1 (exec cfg digest o c w).2)
    (hk : ∀ r, (duty cfg digest insertOnly).Triple (R r) (k r) Q) :
    (duty cfg digest insertOnly).Triple P ((perform o).bind k) Q := by
  refine Duty.triple_call R (fun w w' h hr _ => hP w _ w' hr h) ?_ hk
  intro w c hi h hc
  obtain ⟨hi', hR⟩ := step w c hi h hc.1 hc.2
  exact ⟨fun he => absurd he hd, hi', hR⟩

theorem spec_time {o : Op S} {k : Res o → Proc S α} {P : World S → Prop} {Q : α → World S → Prop}
    (ho : o = .elapsed ∨ o = .now ∨ ∃ d, o = .wait d) (hP : Stable insertOnly P)
    (hk : ∀ r, (duty cfg digest insertOnly).Triple P (k r) Q) :
    (duty cfg digest insertOnly).Triple P ((perform o).bind k) Q := by
  refine spec_call ?_ hP (fun _ => P) ?_ hk
  · rcases ho with rfl | rfl | ⟨d, rfl⟩ <;> simp
  · intro w c hi h _ _
    rcases ho with rfl | rfl | ⟨d, rfl⟩ <;> exact ⟨hi, h⟩

theorem spec_load {n : Nat} {P : World S → Prop} (hP : Stable insertOnly P) :
    (duty cfg digest insertOnly).Triple P (load n) fun r w => P w ∧ ∀ st, r = .ok st → w.jobs n = st := by
  by_cases hn : i64Max < n
  · rw [load, if_pos hn]
    exact Duty.triple_ret fun w _ h => ⟨h, fun _ he => by cases he⟩
  · rw [load, if_neg hn]
    refine spec_call (o := .load n) (k := .ret) (by simp) hP
      (fun r w => P w ∧ ∀ st, r = .ok st → w.jobs n = st) ?_ fun _ => Duty.triple_ret fun _ _ h => h
    intro w c hi h _ _
    exact attempt_keeps (R := fun r w => P w ∧ ∀ st, r = .ok st → w.jobs n = st) hi hi
      ⟨h, fun st hst => Except.ok.inj hst⟩
      fun e => ⟨⟨h, fun _ he => by cases he⟩, h, fun _ he => by cases he⟩

def Entered (jobs : Nat → Option (JobState S)) (n : Nat) (target : Phase) (checksum : Option S)
    (w : World S) : Prop :=
  ∃ st time, jobs n = some st ∧ some st.phase = target.predecessor ∧
    w.jobs = Function.update jobs n (some (st.enter target checksum time))

theorem spec_update {jobs : Nat → Option (JobState S)} {n time : Nat} {target : Phase}
    {checksum : Option S} {k : Res (.update n target checksum time) → Proc S α} {F : World S → Prop}
    {Q : α → World S → Prop} (hF : Stable insertOnly F) (hjobs : ∀ w jobs, F w → F { w with jobs })
    (hinv : ∀ w st time, Inv digest insertOnly w → F w → w.jobs = jobs → jobs n = some st →
      some st.phase = target.predecessor → Inv digest insertOnly (w.setJob n (st.enter target checksum time)))
    (hk : ∀ r, (duty cfg digest insertOnly).Triple
      (fun w => F w ∧ ∀ a, r = .ok (a + 1) → Entered jobs n target checksum w) (k r) Q) :
    (duty cfg digest insertOnly).Triple (fun w => w.jobs = jobs ∧ F w)
      ((perform (.update n target checksum time)).bind k) Q := by
  refine spec_call (by simp) ((stable_off_hot fun _ _ h => h).and hF)
    (fun r w => F w ∧ ∀ a, r = .ok (a + 1) → Entered jobs n target checksum w) ?_ hk
  rintro w c hi ⟨hj, h⟩ _ _
  have moved : Inv digest insertOnly (w.update n target checksum time).2 ∧
      F (w.update n target checksum time).2 ∧
      ∀ a, (w.update n target checksum time).1 = a + 1 →
        Entered jobs n target checksum (w.update n target checksum time).2 := by
    unfold World.update
    split
    · next st hst =>
      split
      · next hp =>
        exact ⟨hinv w st time hi h hj (hj ▸ hst) hp, hjobs w _ h,
          fun _ _ => ⟨st, time, hj ▸ hst, hp, by rw [← hj]; rfl⟩⟩
      · exact ⟨hi, h, fun _ he => nomatch he⟩
    · exact ⟨hi, h, fun _ he => nomatch he⟩
  exact attempt_keeps (R := fun r w => F w ∧ ∀ a, r = .ok (a + 1) → Entered jobs n target checksum w)
    hi moved.1 ⟨moved.2.1, fun a ha => moved.2.2 a (Except.ok.inj ha)⟩
    fun e => ⟨⟨h, fun _ he => (nomatch he)⟩, moved.2.1, fun _ he => (nomatch he)⟩

theorem spec_advance (jobs : Nat → Option (JobState S)) (F : World S → Prop) {n : Nat} {target : Phase}
    {checksum : Option S} (hF : Stable insertOnly F)
    (hjobs : ∀ w jobs, F w → F { w with jobs })
    (hinv : ∀ w st time, Inv digest insertOnly w → F w → w.jobs = jobs → jobs n = some st →
      some st.phase = target.predecessor →
      Inv digest insertOnly (w.setJob n (st.enter target checksum time))) :
    (duty cfg digest insertOnly).Triple (fun w => w.jobs = jobs ∧ F w) (advance cfg n target checksum)
      fun r w => r = .ok () → Entered jobs n target checksum w ∧ F w := by
  unfold advance
  split
  · exact Duty.triple_ret fun _ _ _ he => nomatch he
  · refine spec_time (.inr (.inl rfl)) ((stable_off_hot fun _ _ h => h).and hF) fun time => ?_
    split
    · exact Duty.triple_ret fun _ _ _ he => nomatch he
    · refine spec_update hF hjobs hinv ?_
      rintro (e | a)
      · exact Duty.triple_ret fun _ _ _ he => nomatch he
      · cases a with
        | succ a => exact Duty.triple_ret fun w _ h _ => ⟨h.2 a rfl, h.1⟩
        | zero =>
          refine Duty.triple_bind ((spec_load hF).weaken fun _ _ h => h.1) ?_
          rintro (e | _ | current)
          · exact Duty.triple_ret fun _ _ _ he => nomatch he
          · exact Duty.triple_ret fun _ _ _ he => nomatch he
          · exact Duty.triple_ret fun _ _ _ he => nomatch he

end Ecat.Archive
