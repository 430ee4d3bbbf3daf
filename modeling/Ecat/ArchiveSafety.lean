import Ecat.ArchiveDrop

/-! DROP PARTITION over whole runs with crashes, re-runs, lost calls and other
writers: what is safe, and the runs in which rows are lost. -/

namespace Ecat.Archive

variable {S : Type} [DecidableEq S]

def certificate (cfg : Config) (digest : List Row → S) (insertOnly : Bool)
    (hdigest : Function.Injective digest) : (host cfg digest insertOnly).Certificate
      fun _ o _ w => RewriteAsRecorded cfg o w ∧ (insertOnly = false → KeysKeptAtCount o w) where
  inv := Inv digest insertOnly
  rely _ := Mutates insertOnly
  guar _ o w _ := o = .dropPartition → Covered insertOnly w
  post _ _ _ := True
  compat _ _ := True
  rely_refl _ := mutates_refl
  rely_trans _ _ _ _ _ := mutates_trans
  post_stable _ _ _ _ _ _ _ := trivial
  start s _ report hi _ := spec_walk hdigest _ _ s.world hi fun _ => walked_begin _ report
  apart _ _ _ _ _ _ _ _ := ⟨trivial, trivial⟩
  peer _ _ _ _ _ _ hne := absurd rfl hne
  crash _ hi := hi
  env _ _ _ h hi := ⟨mutates_inv h hi, fun _ => h⟩

variable {cfg : Config} {digest : List Row → S} {insertOnly : Bool}

theorem covered_at_drop (hdigest : Function.Injective digest) {rows : List Row}
    {s : Sys Unit (Op S) Res (Except TieringError Report) (World S)}
    (h : (host cfg digest insertOnly).Reach
      (fun _ o _ w => RewriteAsRecorded cfg o w ∧ (insertOnly = false → KeysKeptAtCount o w)) (init rows) s)
    {k : Res (.dropPartition : Op S) → Proc S (Except TieringError Report)}
    (hdrop : s.thread () = some (.call .dropPartition k)) : Covered insertOnly s.world := by
  have hgood := (certificate cfg digest insertOnly hdigest).good_of_reach (w := (init rows).world)
    (fun _ _ h => nomatch h) h
  exact (hgood.call hdrop (c := .ok) ⟨trivial, fun _ => trivial⟩).1 rfl

/-- While others only insert, the partition is dropped only when every row of it
is in a verified chunk, in runs that rewrite no pending chunk differently. -/
theorem drop_only_archived (hdigest : Function.Injective digest) {rows : List Row}
    {s : Sys Unit (Op S) Res (Except TieringError Report) (World S)}
    (h : (host cfg digest true).Reach (fun _ o _ w => RewriteAsRecorded cfg o w) (init rows) s)
    {k : Res (.dropPartition : Op S) → Proc S (Except TieringError Report)}
    (hdrop : s.thread () = some (.call .dropPartition k)) :
    ∀ hot, s.world.hot = some hot → ∀ r ∈ hot, ∃ n, Archived s.world n ∧ r ∈ s.world.cold n :=
  (covered_at_drop hdigest (h.mono fun _ _ _ _ ha => ⟨ha, fun hf => nomatch hf⟩) hdrop).1 rfl

/-- While others insert and delete, every key that the final count saw is in a
verified chunk, in runs that also keep the archived keys until that count. -/
theorem drop_only_archived_keys (hdigest : Function.Injective digest) {rows : List Row}
    {s : Sys Unit (Op S) Res (Except TieringError Report) (World S)}
    (h : (host cfg digest false).Reach
      (fun _ o _ w => RewriteAsRecorded cfg o w ∧ KeysKeptAtCount o w) (init rows) s)
    {k : Res (.dropPartition : Op S) → Proc S (Except TieringError Report)}
    (hdrop : s.thread () = some (.call .dropPartition k)) :
    ∀ r ∈ s.world.counted, ∃ n, Archived s.world n ∧ r.id ∈ (s.world.cold n).map (·.id) :=
  (covered_at_drop hdigest (h.mono fun _ _ _ _ ha => ⟨ha.1, fun _ => ha.2⟩) hdrop).2 rfl

def events : Config := ⟨"events", "p2026_01", "id", 2, 1, none, 0, none, false⟩

def noReport : Report := ⟨0, 0, 0, 0⟩

def World.insertRow (w : World S) (r : Row) : World S := { w with hot := w.hot.map (r :: ·) }

omit [DecidableEq S] in
theorem mutates_insertRow (w : World S) (r : Row) : Mutates true none w (w.insertRow r) := by
  refine ⟨w.hot.map (r :: ·), rfl, by simp, fun _ => ⟨?_, fun h => nomatch h⟩⟩
  intro a b ha hb
  rw [ha] at hb
  cases hb
  exact (List.sublist_cons_self r a).subperm

/-- The first run dies after it has seeded chunk 0; a row comes in before the second one archives both chunks. -/
theorem drop_only_archived_two_runs :
    ∃ s k, (host events (id : List Row → List Row) true).Reach (fun _ o _ w => RewriteAsRecorded events o w)
        (init [⟨10, "a"⟩, ⟨20, "b"⟩, ⟨30, "c"⟩]) s ∧
      s.thread () = some (.call .dropPartition k) ∧
      s.world.hot = some [⟨40, "d"⟩, ⟨10, "a"⟩, ⟨20, "b"⟩, ⟨30, "c"⟩] ∧
      ∀ r ∈ [(⟨40, "d"⟩ : Row), ⟨10, "a"⟩, ⟨20, "b"⟩, ⟨30, "c"⟩],
        ∃ n, Archived s.world n ∧ r ∈ s.world.cold n := by
  have seeded := Host.Reach.launch_crash (host events (id : List Row → List Row) true)
    (fun _ o _ w => RewriteAsRecorded events o w) () noReport (List.replicate 6 .ok)
    (init [⟨10, "a"⟩, ⟨20, "b"⟩, ⟨30, "c"⟩]).world trivial
    ⟨trivial, trivial, trivial, fun _ _ _ h => (nomatch h), trivial, trivial, trivial⟩
  have inserted := seeded.tail (Host.Step.env _ (mutates_insertRow _ ⟨40, "d"⟩))
  have hrun := inserted.trans (Host.Reach.launch (host events (id : List Row → List Row) true)
    (fun _ o _ w => RewriteAsRecorded events o w) () noReport (List.replicate 27 .ok) _ rfl trivial
    ⟨trivial, trivial, trivial, by rintro st low high ⟨⟩ ⟨⟩; exact ⟨rfl, rfl⟩, trivial, trivial, trivial, trivial,
      trivial, trivial, trivial, trivial, trivial, fun _ _ _ h => (nomatch h), trivial, trivial, trivial, trivial,
      trivial, trivial, trivial, trivial, trivial, trivial, trivial, trivial, trivial, trivial⟩)
  exact ⟨_, _, hrun, rfl, rfl, drop_only_archived Function.injective_id hrun rfl _ rfl⟩

/-- As before, and row 30, which no chunk has yet, is deleted when the other row comes in. -/
theorem drop_only_archived_keys_two_runs :
    ∃ s k, (host events (id : List Row → List Row) false).Reach
        (fun _ o _ w => RewriteAsRecorded events o w ∧ KeysKeptAtCount o w)
        (init [⟨10, "a"⟩, ⟨20, "b"⟩, ⟨30, "c"⟩]) s ∧
      s.thread () = some (.call .dropPartition k) ∧
      s.world.counted = [⟨40, "d"⟩, ⟨10, "a"⟩, ⟨20, "b"⟩] ∧
      ∀ r ∈ s.world.counted, ∃ n, Archived s.world n ∧ r.id ∈ (s.world.cold n).map (·.id) := by
  have seeded := Host.Reach.launch_crash (host events (id : List Row → List Row) false)
    (fun _ o _ w => RewriteAsRecorded events o w ∧ KeysKeptAtCount o w) () noReport (List.replicate 6 .ok)
    (init [⟨10, "a"⟩, ⟨20, "b"⟩, ⟨30, "c"⟩]).world trivial
    ⟨⟨trivial, trivial⟩, ⟨trivial, trivial⟩, ⟨trivial, trivial⟩, ⟨fun _ _ _ h => (nomatch h), trivial⟩,
      ⟨trivial, trivial⟩, ⟨trivial, trivial⟩, trivial⟩
  have replaced := seeded.tail (Host.Step.env _
    ⟨some [⟨40, "d"⟩, ⟨10, "a"⟩, ⟨20, "b"⟩], rfl, rfl, fun h => nomatch h⟩)
  have hrun := replaced.trans (Host.Reach.launch (host events (id : List Row → List Row) false)
    (fun _ o _ w => RewriteAsRecorded events o w ∧ KeysKeptAtCount o w) () noReport (List.replicate 27 .ok) _ rfl
    trivial
    ⟨⟨trivial, trivial⟩, ⟨trivial, trivial⟩, ⟨trivial, trivial⟩,
      ⟨by rintro st low high ⟨⟩ ⟨⟩; exact ⟨rfl, rfl⟩, trivial⟩,
      ⟨trivial, trivial⟩, ⟨trivial, trivial⟩, ⟨trivial, trivial⟩, ⟨trivial, trivial⟩, ⟨trivial, trivial⟩,
      ⟨trivial, trivial⟩, ⟨trivial, trivial⟩, ⟨trivial, trivial⟩, ⟨trivial, trivial⟩,
      ⟨fun _ _ _ h => (nomatch h), trivial⟩, ⟨trivial, trivial⟩, ⟨trivial, trivial⟩, ⟨trivial, trivial⟩,
      ⟨trivial, trivial⟩, ⟨trivial, trivial⟩, ⟨trivial, trivial⟩, ⟨trivial, trivial⟩, ⟨trivial, trivial⟩,
      ⟨trivial, trivial⟩, ⟨trivial, trivial⟩, ⟨trivial, trivial⟩, ⟨trivial, trivial⟩, ⟨trivial, by
        intro hot hhot k hall _ n hn
        cases hhot
        have hk : k ≤ 2 := by
          by_contra hne
          obtain ⟨st, hst, -⟩ := hall 2 (by omega)
          cases hst
        obtain rfl | rfl : n = 0 ∨ n = 1 := by omega
        · decide
        · decide⟩, trivial⟩)
  exact ⟨_, _, hrun, rfl, rfl, drop_only_archived_keys Function.injective_id hrun rfl⟩

/-- Two crashes leave chunk 1 pending after chunk 0 was written anew around a late
insert; its rewrite drops row 20, which the stale row count still includes. -/
theorem drop_loses_row :
    ¬∀ s, (host events (id : List Row → List Row) true).Reach Host.Free
        (init [⟨10, "a"⟩, ⟨20, "b"⟩, ⟨30, "c"⟩]) s →
      ∀ k, s.thread () = some (.call .dropPartition k) → ∀ hot, s.world.hot = some hot →
        ∀ r ∈ hot, ∃ n, Archived s.world n ∧ r ∈ s.world.cold n := by
  intro hall
  have run := fun (n : Nat) (w : World (List Row)) =>
    Host.Reach.launch_crash (host events (id : List Row → List Row) true) Host.Free ()
      noReport (List.replicate n .ok) w trivial (Host.permits_free ..)
  have seeded := run 6 (init [⟨10, "a"⟩, ⟨20, "b"⟩, ⟨30, "c"⟩]).world
  have inserted := seeded.tail (Host.Step.env _ (mutates_insertRow _ ⟨5, "d"⟩))
  have rewritten := inserted.trans (run 16 _)
  have settled := rewritten.trans (run 17 _)
  have dropping := settled.trans (Host.Reach.launch (host events (id : List Row → List Row) true)
    Host.Free () noReport (List.replicate 9 .ok) _ rfl trivial (Host.permits_free ..))
  obtain ⟨n, -, hn⟩ := hall _ dropping _ rfl _ rfl ⟨20, "b"⟩ (by decide)
  rcases n with _ | _ | n
  · exact absurd hn (by decide)
  · exact absurd hn (by decide)
  · exact absurd hn (List.not_mem_nil)

/-- A row inserted below the cursor and a deleted one cancel out in the count. -/
theorem drop_loses_key :
    ¬∀ s, (host events (id : List Row → List Row) false).Reach Host.Free
        (init [⟨10, "a"⟩, ⟨20, "b"⟩]) s →
      ∀ k, s.thread () = some (.call .dropPartition k) →
        ∀ r ∈ s.world.counted, ∃ n, Archived s.world n ∧ r.id ∈ (s.world.cold n).map (·.id) := by
  intro hall
  have archived := Host.Reach.launch_crash (host events (id : List Row → List Row) false)
    Host.Free () noReport (List.replicate 12 .ok) (init [⟨10, "a"⟩, ⟨20, "b"⟩]).world
    trivial (Host.permits_free ..)
  have replaced := archived.tail (Host.Step.env _
    ⟨some [⟨5, "d"⟩, ⟨20, "b"⟩], rfl, rfl, fun h => nomatch h⟩)
  have dropping := replaced.trans (Host.Reach.launch (host events (id : List Row → List Row) false)
    Host.Free () noReport (List.replicate 7 .ok) _ rfl trivial (Host.permits_free ..))
  obtain ⟨n, -, hn⟩ := hall _ dropping _ rfl ⟨5, "d"⟩ (by decide)
  rcases n with _ | n
  · exact absurd hn (by decide)
  · exact absurd hn (List.not_mem_nil)

end Ecat.Archive
