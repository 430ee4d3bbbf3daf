import Ecat.ArchiveHost
import Ecat.Counting

/-! What the state table says about the sink. The rows of successive chunks have ids
in successive intervals, so recorded row counts of verified chunks never count a
row twice. -/

namespace Ecat.Archive

variable {S : Type} (cfg : Config) (digest : List Row → S) (insertOnly : Bool)

/-- The highest id that the chunks before chunk `n` claim to have archived. -/
def floor (jobs : Nat → Option (JobState S)) : Nat → Int
  | 0 => i64Min
  | n + 1 => (jobs n).elim i64Min (·.highId)

structure ChunkOk (w : World S) (n : Nat) (st : JobState S) : Prop where
  prior : ∀ m < n, ∃ s, w.jobs m = some s ∧ s.phase ≠ .pending
  above : floor w.jobs n < st.highId
  content : st.phase ≠ .pending → ∃ rows, st.checksum = some (digest rows) ∧ rows.length = st.rows ∧
    (∀ r ∈ rows, floor w.jobs n < r.id ∧ r.id ≤ st.highId) ∧
    (insertOnly = true → ∀ hot, w.hot = some hot → rows.Subperm hot) ∧
    (st.phase ≠ .copied → w.cold n = rows)

def Inv (w : World S) : Prop := ∀ n st, w.jobs n = some st → ChunkOk digest insertOnly w n st

/-- Every row of the partition is in a verified chunk; when others may also delete
rows, this is said of the keys seen by the final count. -/
def Covered (w : World S) : Prop :=
  (insertOnly = true → ∀ hot, w.hot = some hot → ∀ r ∈ hot, ∃ n, Archived w n ∧ r ∈ w.cold n) ∧
  (insertOnly = false → ∀ r ∈ w.counted, ∃ n, Archived w n ∧ r.id ∈ (w.cold n).map (·.id))

def Stable (P : World S → Prop) : Prop := ∀ w next w', Mutates insertOnly next w w' → P w → P w'

variable {cfg digest insertOnly}

theorem floor_update_le (jobs : Nat → Option (JobState S)) {n m : Nat} (st : Option (JobState S))
    (h : m ≤ n) : floor (Function.update jobs n st) m = floor jobs m := by
  cases m with
  | zero => rfl
  | succ m => simp [floor, Function.update_of_ne (show m ≠ n by omega) st jobs]

theorem floor_update {jobs : Nat → Option (JobState S)} {n : Nat} {st st' : JobState S}
    (hst : jobs n = some st) (hh : st'.highId = st.highId) (m : Nat) :
    floor (Function.update jobs n (some st')) m = floor jobs m := by
  cases m with
  | zero => rfl
  | succ m =>
    by_cases hm : m = n
    · subst hm
      simp [floor, Function.update_self, hst, hh]
    · simp [floor, Function.update_of_ne hm _ jobs]

theorem floor_mono {w : World S} (hinv : Inv digest insertOnly w) {k m n : Nat}
    (hall : ∀ i < k, ∃ st, w.jobs i = some st) (hmn : m ≤ n) (hn : n ≤ k) :
    floor w.jobs m ≤ floor w.jobs n := by
  induction n with
  | zero => simp_all
  | succ n ih =>
    rcases Nat.lt_or_eq_of_le hmn with hlt | rfl
    · obtain ⟨st, hst⟩ := hall n (by omega)
      have hab := (hinv n st hst).above
      have hle := ih (by omega) (by omega)
      have hsucc : floor w.jobs (n + 1) = st.highId := by simp [floor, hst]
      omega
    · exact le_rfl

theorem mutates_inv {next : Option (Op S)} {w w' : World S} (h : Mutates insertOnly next w w')
    (hi : Inv digest insertOnly w) : Inv digest insertOnly w' := by
  obtain ⟨hot', rfl, hsome, hio⟩ := h
  intro n st hst
  have hok := hi n st hst
  refine ⟨hok.prior, hok.above, ?_⟩
  intro hp
  obtain ⟨rows, hsum, hlen, hid, hsub, hcold⟩ := hok.content hp
  refine ⟨rows, hsum, hlen, hid, ?_, hcold⟩
  intro htrue b hb
  have hb' : hot' = some b := hb
  obtain ⟨a, ha⟩ : ∃ a, w.hot = some a := by
    rw [← Option.isSome_iff_exists, ← hsome, hb', Option.isSome_some]
  exact (hsub htrue a ha).trans ((hio htrue).1 a b ha hb')

theorem mutates_refl (next : Option (Op S)) (w : World S) : Mutates insertOnly next w w :=
  ⟨w.hot, rfl, rfl, fun _ => ⟨fun a b ha hb => by
    rw [ha] at hb
    cases hb
    exact List.Subperm.refl a, fun _ => rfl⟩⟩

theorem mutates_trans {next : Option (Op S)} {a b c : World S} (hab : Mutates insertOnly next a b)
    (hbc : Mutates insertOnly next b c) : Mutates insertOnly next a c := by
  obtain ⟨hot₁, rfl, hs₁, hio₁⟩ := hab
  obtain ⟨hot₂, rfl, hs₂, hio₂⟩ := hbc
  refine ⟨hot₂, rfl, hs₂.trans hs₁, fun ht => ⟨?_, ?_⟩⟩
  · intro l l' hl hl'
    obtain ⟨m, hm⟩ : ∃ m, hot₁ = some m := by
      rw [← Option.isSome_iff_exists, hs₁, hl, Option.isSome_some]
    exact ((hio₁ ht).1 l m hl hm).trans ((hio₂ ht).1 m l' hm hl')
  · intro hn
    exact ((hio₂ ht).2 hn).trans ((hio₁ ht).2 hn)

theorem inv_write {w : World S} (hi : Inv digest insertOnly w) {n : Nat} (rows : List Row)
    (hn : ∀ st, w.jobs n = some st → st.phase = .pending) :
    Inv digest insertOnly { w with cold := Function.update w.cold n rows } := by
  intro m st hst
  have hok := hi m st hst
  refine ⟨hok.prior, hok.above, ?_⟩
  intro hp
  have hne : m ≠ n := by
    rintro rfl
    exact hp (hn st hst)
  obtain ⟨kept, hsum, hlen, hid, hsub, hcold⟩ := hok.content hp
  refine ⟨kept, hsum, hlen, hid, hsub, ?_⟩
  intro hc
  rw [← hcold hc]
  exact Function.update_of_ne hne rows w.cold

theorem inv_setJob {w : World S} (hi : Inv digest insertOnly w) {n : Nat} {st st' : JobState S}
    (hst : w.jobs n = some st) (hh : st'.highId = st.highId) (hph : st'.phase ≠ .pending)
    (hcontent : ∃ rows, st'.checksum = some (digest rows) ∧ rows.length = st'.rows ∧
      (∀ r ∈ rows, floor w.jobs n < r.id ∧ r.id ≤ st.highId) ∧
      (insertOnly = true → ∀ hot, w.hot = some hot → rows.Subperm hot) ∧
      (st'.phase ≠ .copied → w.cold n = rows)) :
    Inv digest insertOnly (w.setJob n st') := by
  have hfloor : ∀ m, floor (w.setJob n st').jobs m = floor w.jobs m := floor_update hst hh
  intro m s hs
  have hprior : ∀ m, (∀ i < m, ∃ s, w.jobs i = some s ∧ s.phase ≠ .pending) →
      ∀ i < m, ∃ s, (w.setJob n st').jobs i = some s ∧ s.phase ≠ .pending := by
    intro m hm i hi
    by_cases he : i = n
    · exact ⟨st', he ▸ Function.update_self .., hph⟩
    · obtain ⟨s, hs, hp⟩ := hm i hi
      exact ⟨s, (Function.update_of_ne he _ w.jobs).trans hs, hp⟩
  by_cases hm : m = n
  · subst hm
    have hs' : some st' = some s := (Function.update_self m _ w.jobs).symm.trans hs
    cases hs'
    have hok := hi m st hst
    refine ⟨hprior m hok.prior, ?_, fun _ => ?_⟩
    · rw [hfloor, hh]
      exact hok.above
    · rw [hfloor, hh]
      exact hcontent
  · have hs' : w.jobs m = some s := (Function.update_of_ne hm _ w.jobs).symm.trans hs
    have hok := hi m s hs'
    refine ⟨hprior m hok.prior, ?_, ?_⟩
    · rw [hfloor]
      exact hok.above
    · rw [hfloor]
      exact hok.content

theorem inv_upsert {w : World S} (hi : Inv digest insertOnly w) {n : Nat} {st : JobState S}
    (hn : w.jobs n = none) (hp : st.phase = .pending) (habove : floor w.jobs n < st.highId)
    (hprior : ∀ m < n, ∃ s, w.jobs m = some s ∧ s.phase ≠ .pending) :
    Inv digest insertOnly (w.setJob n st) := by
  have hkeep : ∀ m ≤ n, (∀ i < m, ∃ s, w.jobs i = some s ∧ s.phase ≠ .pending) →
      ∀ i < m, ∃ s, (w.setJob n st).jobs i = some s ∧ s.phase ≠ .pending := by
    intro m hm h i hi
    obtain ⟨s, hs, hp⟩ := h i hi
    exact ⟨s, (Function.update_of_ne (by omega) _ w.jobs).trans hs, hp⟩
  intro m s hs
  by_cases hm : m = n
  · subst hm
    have hs' : some st = some s := (Function.update_self m _ w.jobs).symm.trans hs
    cases hs'
    refine ⟨hkeep m le_rfl hprior, ?_, fun h => absurd hp h⟩
    have hf : floor (w.setJob m st).jobs m = floor w.jobs m := floor_update_le _ _ le_rfl
    rw [hf]
    exact habove
  · have hs' : w.jobs m = some s := (Function.update_of_ne hm _ w.jobs).symm.trans hs
    have hok := hi m s hs'
    have hle : m ≤ n := by
      by_contra hlt
      obtain ⟨t, ht, -⟩ := hok.prior n (by omega)
      rw [hn] at ht
      cases ht
    have hf : floor (w.setJob n st).jobs m = floor w.jobs m := floor_update_le _ _ hle
    refine ⟨hkeep m hle hok.prior, ?_, ?_⟩
    · rw [hf]
      exact hok.above
    · rw [hf]
      exact hok.content

theorem inv_drop {w : World S} (hi : Inv digest insertOnly w) :
    Inv digest insertOnly { w with hot := none } := by
  intro n st hst
  have hok := hi n st hst
  refine ⟨hok.prior, hok.above, ?_⟩
  intro hp
  obtain ⟨rows, hsum, hlen, hid, -, hcold⟩ := hok.content hp
  exact ⟨rows, hsum, hlen, hid, fun _ _ h => (nomatch h), hcold⟩

theorem archived_chunk {w : World S} (hi : Inv digest insertOnly w) {n : Nat} (h : Archived w n) :
    (w.cold n).length = recordedRows w n ∧
    (∀ r ∈ w.cold n, floor w.jobs n < r.id ∧ r.id ≤ floor w.jobs (n + 1)) ∧
    (insertOnly = true → ∀ hot, w.hot = some hot → (w.cold n).Subperm hot) := by
  obtain ⟨st, hst, hp⟩ := h
  obtain ⟨rows, -, hlen, hid, hsub, hcold⟩ := (hi n st hst).content (by simp [hp])
  have hc : w.cold n = rows := hcold (by simp [hp])
  rw [hc]
  refine ⟨by simp [recordedRows, hst, hlen], ?_, hsub⟩
  simpa [floor, hst] using hid

theorem archived_disjoint {w : World S} (hi : Inv digest insertOnly w) {k m n : Nat}
    (hall : ∀ i < k, Archived w i) (hm : m < k) (hn : n < k) {r r' : Row} (hr : r ∈ w.cold m)
    (hr' : r' ∈ w.cold n) (hid : r.id = r'.id) : m = n := by
  have hex : ∀ i < k, ∃ st, w.jobs i = some st := fun i hik => ⟨_, (hall i hik).choose_spec.1⟩
  have hrm := (archived_chunk hi (hall m hm)).2.1 r hr
  have hrn := (archived_chunk hi (hall n hn)).2.1 r' hr'
  rcases Nat.lt_trichotomy m n with hlt | he | hgt
  · have hle := floor_mono hi hex (show m + 1 ≤ n by omega) (by omega)
    omega
  · exact he
  · have hle := floor_mono hi hex (show n + 1 ≤ m by omega) (by omega)
    omega

/-- When the recorded rows add up to the size of the partition and every verified
chunk is still in it, by rows or by keys, nothing of it is outside the chunks. -/
theorem covered_of_total {α : Type} (key : Row → α) (hkey : ∀ r r', key r = key r' → r.id = r'.id)
    {w : World S} (hi : Inv digest insertOnly w) {k : Nat} {hot : List Row}
    (hall : ∀ n < k, Archived w n) (htotal : ∑ n ∈ Finset.range k, recordedRows w n = hot.length)
    (hsub : ∀ n < k, ((w.cold n).map key).Subperm (hot.map key)) :
    ∀ r ∈ hot, ∃ n, Archived w n ∧ key r ∈ (w.cold n).map key := by
  intro r hr
  have hcover : ∃ n ∈ Finset.range k, key r ∈ (((w.cold n).map key : List α) : Multiset α) :=
    mem_part_of_card_eq (fun n hn => Multiset.coe_le.mpr (hsub n (Finset.mem_range.mp hn))) ?_ ?_
      (Multiset.mem_coe.mpr (List.mem_map_of_mem hr))
  · obtain ⟨n, hn, hmem⟩ := hcover
    exact ⟨n, hall n (Finset.mem_range.mp hn), Multiset.mem_coe.mp hmem⟩
  · intro m hm n hn x hxm hxn
    obtain ⟨a, ha, rfl⟩ := List.mem_map.mp (Multiset.mem_coe.mp hxm)
    obtain ⟨b, hb, he⟩ := List.mem_map.mp (Multiset.mem_coe.mp hxn)
    exact archived_disjoint hi hall (Finset.mem_range.mp hm) (Finset.mem_range.mp hn) ha hb
      (hkey a b he.symm)
  · rw [Multiset.coe_card, List.length_map, ← htotal]
    refine Finset.sum_congr rfl ?_
    intro n hn
    rw [Multiset.coe_card, List.length_map]
    exact (archived_chunk hi (hall n (Finset.mem_range.mp hn))).1

end Ecat.Archive
