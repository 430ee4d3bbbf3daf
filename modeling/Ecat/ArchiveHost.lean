import Ecat.ArchiveModel

/-! One archiver working on a partition that others write to. Runs may stop or
crash at any call; the state table, the sink and the partition survive. -/

namespace Ecat.Archive

variable {S : Type}

/-- Others change the partition, never whether it exists. Under `insertOnly` they
only add rows, and only until the final row count. -/
def Mutates (insertOnly : Bool) (next : Option (Op S)) (w w' : World S) : Prop :=
  ∃ hot, w' = { w with hot } ∧ hot.isSome = w.hot.isSome ∧
    (insertOnly = true → (∀ a b, w.hot = some a → hot = some b → a.Subperm b) ∧
      (next = some .dropPartition → hot = w.hot))

def host [DecidableEq S] (cfg : Config) (digest : List Row → S) (insertOnly : Bool) :
    Host Unit (Op S) Res (Except TieringError Report) (World S) Reply Report where
  exec _ := exec cfg digest
  prog _ := archivePartition cfg
  admits _ _ _ := True
  crash := id
  env next := Mutates insertOnly (next ())

def init (rows : List Row) : Sys Unit (Op S) Res (Except TieringError Report) (World S) :=
  ⟨⟨some rows, fun _ => none, fun _ => [], []⟩, fun _ => none⟩

/-- A chunk is written again only with as many rows, and up to the same id, as
its state row says. -/
def RewriteAsRecorded (cfg : Config) (o : Op S) (w : World S) : Prop :=
  match o with
  | .writeChunk n rows => ∀ st low high, w.jobs n = some st →
      idBounds cfg rows = .ok (some (low, high)) → rows.length = st.rows ∧ high = st.highId
  | _ => True

def Archived (w : World S) (n : Nat) : Prop := ∃ st, w.jobs n = some st ∧ st.phase = .verified

def recordedRows (w : World S) (n : Nat) : Nat := (w.jobs n).elim 0 (·.rows)

/-- When the recorded rows of the archived chunks add up to the size of the
partition, all their keys are still in the partition. -/
def KeysKeptAtCount (o : Op S) (w : World S) : Prop :=
  match o with
  | .countRows => ∀ hot, w.hot = some hot → ∀ k, (∀ n < k, Archived w n) →
      ∑ n ∈ Finset.range k, recordedRows w n = hot.length →
      ∀ n < k, ((w.cold n).map (·.id)).Subperm (hot.map (·.id))
  | _ => True

/-! ### The chunk loop ends -/

def Advances (k : Walk) (r : Except TieringError Turn) : Prop :=
  ∀ k', r = .ok (.next k') → k'.chunk = k.chunk + 1

theorem advances_error {k : Walk} {e : TieringError} : Advances k (.error e) :=
  fun _ h => nomatch h

theorem returns_storeChunk (cfg : Config) (k : Walk) (seeded : Bool) (rows : List Row) (low high : Int) :
    (storeChunk (S := S) cfg k seeded rows low high).Returns (Advances k) := by
  refine CallTree.returns_bind _ ?_
  rintro (e | checksum)
  · exact advances_error
  refine CallTree.returns_bind _ ?_
  rintro (e | u)
  · exact advances_error
  refine CallTree.returns_bind _ ?_
  rintro (e | u)
  · exact advances_error
  refine CallTree.returns_bind _ ?_
  rintro (e | outcome)
  · exact advances_error
  refine CallTree.returns_bind _ ?_
  rintro _ k' h
  cases h
  cases outcome <;> rfl

theorem returns_resumeCopied (cfg : Config) (k : Walk) (st : JobState S) :
    (resumeCopied cfg k st).Returns (Advances k) := by
  unfold resumeCopied
  split
  · rintro k' h
    cases h
    rfl
  split
  · exact advances_error
  refine CallTree.returns_bind _ ?_
  rintro (e | outcome)
  · exact advances_error
  rintro k' h
  cases h
  cases outcome <;> rfl

theorem returns_copyChunk (cfg : Config) (k : Walk) (seeded : Bool) :
    (copyChunk (S := S) cfg k seeded).Returns (Advances k) := by
  refine CallTree.returns_bind _ ?_
  rintro (e | rows)
  · exact advances_error
  dsimp only
  split
  · exact advances_error
  · exact fun _ h => nomatch h
  split
  · rintro k' h
    cases h
    rfl
  · exact returns_storeChunk cfg k seeded rows _ _

theorem returns_turn (cfg : Config) (k : Walk) :
    (turn (S := S) cfg k).Returns (Advances k) := by
  refine CallTree.returns_bind _ fun time => ?_
  split
  · exact fun _ h => nomatch h
  refine CallTree.returns_bind _ ?_
  rintro (e | _ | st)
  · exact advances_error
  · exact returns_copyChunk cfg k false
  dsimp only
  split
  · exact fun _ h => nomatch h
  · rintro k' h
    cases h
    rfl
  · exact returns_resumeCopied cfg k st
  · exact returns_copyChunk cfg k true

theorem returns_turn_beyond (cfg : Config) {k : Walk} (hk : i64Max < k.chunk) :
    (turn (S := S) cfg k).Returns fun r => ∀ k', r ≠ .ok (.next k') := by
  refine CallTree.returns_bind _ fun time => ?_
  split
  · exact fun _ h => nomatch h
  rw [load, if_pos hk]
  exact fun _ h => nomatch h

theorem walk_beyond (cfg : Config) (n m : Nat) {k : Walk} (hk : i64Max < k.chunk) :
    walk (S := S) cfg (n + 1) k = walk cfg (m + 1) k := by
  refine CallTree.bind_congr (returns_turn_beyond cfg hk) ?_
  rintro (e | k' | ⟨k', complete⟩ | k') hnext
  · rfl
  · exact absurd rfl (hnext k')
  · rfl
  · rfl

/-- Once the chunk numbers leave `i64`, more turns of the loop change nothing. -/
theorem walk_enough (cfg : Config) (fuel more : Nat) {k : Walk} (hk : 2 ^ 63 ≤ k.chunk + fuel) :
    walk (S := S) cfg (fuel + more + 1) k = walk cfg (fuel + 1) k := by
  induction fuel generalizing k with
  | zero => exact walk_beyond cfg _ _ (by simp only [i64Max]; omega)
  | succ fuel ih =>
    refine CallTree.bind_congr (returns_turn cfg k) ?_
    rintro (e | k' | ⟨k', complete⟩ | k') hnext
    · rfl
    · have hc := hnext k' rfl
      rw [show fuel + 1 + more = fuel + more + 1 by omega]
      exact ih (by omega)
    · rfl
    · rfl

theorem archivePartition_eq_walk (cfg : Config) (report : Report) (more : Nat) :
    archivePartition (S := S) cfg report = walk cfg (2 ^ 63 + more + 1) (Walk.begin report) := by
  have hk : 2 ^ 63 ≤ (Walk.begin report).chunk + 2 ^ 63 := Nat.le_add_left _ _
  rw [archivePartition, walk_enough cfg _ more hk]

end Ecat.Archive
