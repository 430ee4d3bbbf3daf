import Ecat.ArchiveJobs
import Ecat.ArchiveSafety

/-! Restoring a partition. The rows of a staging table are exchanged into the partition, and only
then are its chunk states reset, so a crash in between leaves states of rows archived before. -/

namespace Ecat.Archive

inductive RestoreSource
  | clickhouse | s3
  deriving DecidableEq, Repr

def sourceName : RestoreSource → String
  | .clickhouse => "ClickHouse"
  | .s3 => "S3"

structure RestorePlan where
  table : String
  partition : String
  source : RestoreSource

def stagingName (plan : RestorePlan) : Except TieringError String := do
  let staging := s!"{plan.table}_restore_{plan.partition}"
  validateIdent staging
  return staging

inductive RestoreOp
  | countStaging
  | countPartition
  | exchange
  | resetPartition

abbrev RestoreRes : RestoreOp → Type
  | .countStaging | .countPartition => Except TieringError Int
  | .exchange | .resetPartition => Except TieringError Nat

abbrev RestoreProc := CallTree RestoreOp RestoreRes (Except TieringError Nat)

def askRestore (o : RestoreOp) : CallTree RestoreOp RestoreRes (RestoreRes o) := CallTree.perform o

def checkPlan (mySql : Bool) (plan : RestorePlan) : Except TieringError String := do
  validateIdent plan.table
  validateIdent plan.partition
  if mySql then stagingName plan else .error .unsupportedDialect

def restorePartition (mySql : Bool) (plan : RestorePlan) : RestoreProc :=
  match checkPlan mySql plan with
  | .error e => return .error e
  | .ok staging => do
    match ← askRestore .countStaging with
    | .error e => return .error e
    | .ok stagingRows =>
      if stagingRows = 0 then
        return .error (.state (s!"staging table `{staging}` is empty; load it from {sourceName plan.source} " ++
          s!"before restoring `{plan.table}`.`{plan.partition}`"))
      else
        match ← askRestore .countPartition with
        | .error e => return .error e
        | .ok partitionExists =>
          if partitionExists = 0 then
            return .error (.state (s!"partition `{plan.partition}` does not exist on `{plan.table}`; " ++
              "ADD PARTITION or REORGANIZE it first"))
          else
            match ← askRestore .exchange with
            | .error e => return .error e
            | .ok rows =>
              match ← askRestore .resetPartition with
              | .error e => return .error e
              | .ok _ => return .ok rows

/-! ### Archiving and restoring one partition -/

/-- The archiver with its partition, the staging table, and a restore that is on its way. `stale` marks
the chunks whose state was recorded before the partition was last added or exchanged; no program
reads it. -/
structure Site (S : Type) where
  archive : Sys Unit (Op S) Res (Except TieringError Report) (World S)
  staging : Option (List Row)
  restore : Option RestoreProc
  stale : Nat → Bool

/-- A call may be lost, before or after its effect. -/
structure RestoreReply where
  lost : Option (Bool × TieringError)
  affected : Nat

def RestoreReply.ok : RestoreReply := ⟨none, 0⟩

namespace Site

variable {S : Type}

def init (rows : List Row) : Site S := ⟨Archive.init rows, none, none, fun _ => false⟩

def recorded (s : Site S) : Nat → Bool := fun n => (s.archive.world.jobs n).isSome

def setWorld (s : Site S) (w : World S) : Site S := { s with archive := { s.archive with world := w } }

/-- The partition holds other rows from now on, whatever its chunk states say. -/
def refill (s : Site S) (rows : List Row) : Site S :=
  { s.setWorld { s.archive.world with hot := some rows } with stale := s.recorded }

def exchange (s : Site S) (rows staged : List Row) : Site S := { s.refill staged with staging := some rows }

def resetPartition (s : Site S) : Site S :=
  { s.setWorld { s.archive.world with jobs := fun _ => none } with stale := fun _ => false }

def answer {α : Type} (s s' : Site S) (c : RestoreReply) (result : Except TieringError α) :
    Except TieringError α × Site S :=
  match c.lost with
  | none => (result, s')
  | some (applied, e) => (.error e, if applied then s' else s)

def exchangeCall (s : Site S) (c : RestoreReply) : Except TieringError Nat × Site S :=
  match s.archive.world.hot, s.staging with
  | some rows, some staged => s.answer (s.exchange rows staged) c (.ok c.affected)
  | none, _ => s.answer s c (.error (.db "Unknown partition"))
  | some _, none => s.answer s c (.error (.db "Unknown table"))

def restoreExec (s : Site S) : (o : RestoreOp) → RestoreReply → RestoreRes o × Site S
  | .countStaging, c =>
    s.answer s c (s.staging.elim (.error (.db "Unknown table")) fun rows => .ok rows.length)
  | .countPartition, c => s.answer s c (.ok (if s.archive.world.hot.isSome then 1 else 0))
  | .exchange, c => s.exchangeCall c
  | .resetPartition, c => s.answer s.resetPartition c (.ok c.affected)

variable [DecidableEq S]

/-- Archiving and restoring do not overlap. A run of the archiver may start in the states that `fit`
allows; between runs the partition may be added again, and the staging table loaded. -/
inductive Step (cfg : Config) (digest : List Row → S) (mySql : Bool) (plan : RestorePlan)
    (allowed : Unit → Op S → Reply → World S → Prop) (fit : Site S → Prop) : Site S → Site S → Prop
  | archive {s : Site S} (a : Sys Unit (Op S) Res (Except TieringError Report) (World S))
      (step : (host cfg digest true).Step allowed s.archive a)
      (start : s.archive.thread () = none → (a.thread ()).isSome → s.restore = none ∧ fit s) :
      Step cfg digest mySql plan allowed fit s { s with archive := a }
  | addPartition {s : Site S} (idle : s.archive.thread () = none) (gone : s.archive.world.hot = none) :
      Step cfg digest mySql plan allowed fit s (s.refill [])
  | stage {s : Site S} (rows : List Row) :
      Step cfg digest mySql plan allowed fit s { s with staging := some rows }
  | restore {s : Site S} (idle : s.archive.thread () = none) (free : s.restore = none) :
      Step cfg digest mySql plan allowed fit s { s with restore := some (restorePartition mySql plan) }
  | call {s : Site S} {o : RestoreOp} {k : RestoreRes o → RestoreProc} (c : RestoreReply)
      (idle : s.archive.thread () = none) (at_call : s.restore = some (.call o k)) :
      Step cfg digest mySql plan allowed fit s
        { (s.restoreExec o c).2 with restore := some (k (s.restoreExec o c).1) }
  | stop {s : Site S} : Step cfg digest mySql plan allowed fit s { s with restore := none }

abbrev Reach (cfg : Config) (digest : List Row → S) (mySql : Bool) (plan : RestorePlan)
    (allowed : Unit → Op S → Reply → World S → Prop) (fit : Site S → Prop) :=
  Relation.ReflTransGen (Step cfg digest mySql plan allowed fit)

end Site

/-- DROP PARTITION is called only when every row of the partition is in a verified chunk whose state was
recorded since the partition was last restored. -/
def Justified {S : Type} (s : Site S) : Prop :=
  ∀ k, s.archive.thread () = some (.call .dropPartition k) → ∀ hot, s.archive.world.hot = some hot →
    ∀ r ∈ hot, ∃ n, Archived s.archive.world n ∧ s.stale n = false ∧ r ∈ s.archive.world.cold n

/-! ### A partition whose first chunk is marked dropped -/

def Sealed {S : Type} (w : World S) : Prop := ∃ st, w.jobs 0 = some st ∧ st.phase = .dropped

section

variable {S : Type} [DecidableEq S] {cfg : Config} {digest : List Row → S}

def sealedDuty (cfg : Config) (digest : List Row → S) (allowed : Unit → Op S → Reply → World S → Prop) :
    Duty (Op S) Res (World S) Reply where
  exec := exec cfg digest
  allowed := allowed ()
  inv := Sealed
  rely _ w w' := w'.jobs = w.jobs
  guar o w w' := o ≠ .dropPartition ∧ w' = w

variable {allowed : Unit → Op S → Reply → World S → Prop}

omit [DecidableEq S] in
theorem attempt_same {α : Type} (c : Reply) (answer : Except TieringError α) (w : World S) :
    (attempt c answer w w).2 = w ∧
      ((attempt c answer w w).1 = answer ∨ ∃ e, (attempt c answer w w).1 = .error e) := by
  unfold attempt
  split
  · exact ⟨rfl, .inl rfl⟩
  next applied e _ => exact ⟨by split <;> rfl, .inr ⟨e, rfl⟩⟩

/-- The first turn of a sealed partition ends the loop: nothing is copied and nothing complete. -/
def Stops (k : Walk) (r : Except TieringError Turn) : Prop :=
  (∃ e, r = .error e) ∨ r = .ok (.done k false) ∨ r = .ok (.dropped k)

theorem sealed_turn {k : Walk} (hk : k.chunk = 0) :
    (sealedDuty cfg digest allowed).Triple (fun _ => True) (turn cfg k) fun r _ => Stops k r := by
  unfold turn
  refine Duty.triple_call (fun _ _ => True) (fun _ _ _ _ _ => trivial) ?_ ?_
  · intro w c hw _ _
    exact ⟨⟨by simp, rfl⟩, hw, trivial⟩
  intro time
  split
  · exact Duty.triple_ret fun _ _ _ => .inr (.inl rfl)
  rw [hk, load, if_neg (by simp [i64Max])]
  refine Duty.triple_call (fun r _ => (∃ e, r = .error e) ∨ ∃ st, r = .ok (some st) ∧ st.phase = .dropped)
    (fun _ _ _ _ _ => trivial) ?_ ?_
  · intro w c hw _ _
    obtain ⟨hsame, hanswer⟩ := attempt_same c (.ok (w.jobs 0)) w
    have hexec : exec cfg digest (.load 0) c w = attempt c (.ok (w.jobs 0)) w w := rfl
    refine ⟨⟨by simp, hsame⟩, ?_, ?_⟩
    · change Sealed (attempt c (.ok (w.jobs 0)) w w).2
      rwa [hsame]
    · change (∃ e, (attempt c (.ok (w.jobs 0)) w w).1 = .error e) ∨
        ∃ st, (attempt c (.ok (w.jobs 0)) w w).1 = .ok (some st) ∧ st.phase = .dropped
      obtain ⟨st, hst, hphase⟩ := hw
      rcases hanswer with heq | herror
      · exact .inr ⟨st, by rw [heq, hst], hphase⟩
      · exact .inl herror
  intro r w _ hr
  rcases hr with ⟨e, rfl⟩ | ⟨st, rfl, hphase⟩
  · exact .inl ⟨e, rfl⟩
  · simp only [hphase]
    exact .inr (.inr rfl)

omit [DecidableEq S] in
theorem finish_incomplete (k : Walk) : finish (S := S) cfg k false = .ret (.ok k.report) := by
  unfold finish
  exact if_neg (by simp)

theorem sealed_archive (report : Report) : (sealedDuty cfg digest allowed).Triple (fun _ => True)
    (archivePartition (S := S) cfg report) fun _ _ => True := by
  rw [archivePartition, walk]
  refine Duty.triple_bind (sealed_turn rfl) ?_
  rintro r w _ (⟨e, rfl⟩ | rfl | rfl)
  · trivial
  · change (sealedDuty cfg digest allowed).Safe _ (finish cfg _ false) w
    rw [finish_incomplete]
    trivial
  · trivial

def sealedCertificate (cfg : Config) (digest : List Row → S)
    (allowed : Unit → Op S → Reply → World S → Prop) : (host cfg digest true).Certificate allowed where
  inv := Sealed
  rely _ _ w w' := w'.jobs = w.jobs
  guar _ o w w' := o ≠ .dropPartition ∧ w' = w
  post _ _ _ := True
  compat _ _ := True
  rely_refl _ _ _ := rfl
  rely_trans _ _ _ _ _ hab hbc := hbc.trans hab
  post_stable _ _ _ _ _ _ _ := trivial
  start s _ report hi _ := sealed_archive report s.world hi trivial
  apart _ _ _ _ _ _ _ _ := ⟨trivial, trivial⟩
  peer _ _ _ _ _ _ hne := absurd rfl hne
  crash _ hi := hi
  env := by
    rintro _ w _ ⟨hot, rfl, -, -⟩ hi
    exact ⟨hi, fun _ => rfl⟩

end

/-! ### Over every run -/

section

variable {S : Type} [DecidableEq S] {cfg : Config} {digest : List Row → S} {mySql : Bool} {plan : RestorePlan}

def Recording (cfg : Config) (_ : Unit) (o : Op S) (_ : Reply) (w : World S) : Prop := RewriteAsRecorded cfg o w

/-- No chunk state is left of what was archived before the partition was last restored, or the first
one says that the partition was dropped. -/
def ReadyToArchive (s : Site S) : Prop := (∀ n, s.stale n = false) ∨ Sealed s.archive.world

theorem recording_step {a b : Sys Unit (Op S) Res (Except TieringError Report) (World S)}
    (h : (host cfg digest true).Step (Recording cfg) a b) :
    (host cfg digest true).Step
      (fun _ o _ w => RewriteAsRecorded cfg o w ∧ (true = false → KeysKeptAtCount o w)) a b :=
  h.mono fun _ _ _ _ hok => ⟨hok, fun hf => nomatch hf⟩

theorem good_of_idle {allowed : Unit → Op S → Reply → World S → Prop}
    (C : (host cfg digest true).Certificate allowed)
    {a : Sys Unit (Op S) Res (Except TieringError Report) (World S)} (hidle : a.thread () = none)
    (hinv : C.inv a.world) : C.Good a := by
  have hnone : ∀ t p, a.thread t ≠ some p := by
    intro t p h
    rw [hidle] at h
    cases h
  exact ⟨hinv, fun t p h => absurd h (hnone t p), fun t _ p _ h => absurd h (hnone t p)⟩

/-- Steps on a sealed partition change no more than others change of its rows. -/
theorem sealed_step_inv {allowed : Unit → Op S → Reply → World S → Prop}
    {a b : Sys Unit (Op S) Res (Except TieringError Report) (World S)}
    (hgood : (sealedCertificate cfg digest allowed).Good a) (h : (host cfg digest true).Step allowed a b)
    (hinv : Inv digest true a.world) : Inv digest true b.world := by
  cases h with
  | start t c _ _ => exact hinv
  | call c hcall ok =>
    have hsame := (hgood.call hcall ok).1.2
    change Inv digest true ((host cfg digest true).exec _ _ c a.world).2
    rw [hsame]
    exact hinv
  | stop t => exact hinv
  | crash => exact hinv
  | env w ok => exact mutates_inv ok hinv

structure SiteInv (cfg : Config) (hdigest : Function.Injective digest) (s : Site S) : Prop where
  fresh : (∀ n, s.stale n = false) → Inv digest true s.archive.world
  runs : s.archive.thread () = none ∨
    ((∀ n, s.stale n = false) ∧ (certificate cfg digest true hdigest).Good s.archive) ∨
    (sealedCertificate cfg digest (Recording cfg)).Good s.archive

variable {hdigest : Function.Injective digest}

omit [DecidableEq S] in
theorem inv_of_no_jobs {w : World S} (h : ∀ n, w.jobs n = none) : Inv digest true w := by
  intro n st hst
  rw [h n] at hst
  cases hst

theorem siteInv_init (rows : List Row) : SiteInv cfg hdigest (Site.init rows) :=
  ⟨fun _ => inv_of_no_jobs fun _ => rfl, .inl rfl⟩

omit [DecidableEq S] in
theorem inv_of_recorded {s : Site S} (w : World S) (hjobs : w.jobs = s.archive.world.jobs)
    (h : ∀ n, s.recorded n = false) : Inv digest true w := by
  apply inv_of_no_jobs
  intro n
  have hnone : (s.archive.world.jobs n).isSome = false := h n
  rw [hjobs]
  exact Option.not_isSome_iff_eq_none.1 (by rw [hnone]; exact Bool.false_ne_true)

theorem SiteInv.archive {s : Site S} (h : SiteInv cfg hdigest s)
    {a : Sys Unit (Op S) Res (Except TieringError Report) (World S)}
    (hstep : (host cfg digest true).Step (Recording cfg) s.archive a)
    (hstart : s.archive.thread () = none → (a.thread ()).isSome → s.restore = none ∧ ReadyToArchive s) :
    SiteInv cfg hdigest { s with archive := a } := by
  have hclean : (∀ n, s.stale n = false) → (certificate cfg digest true hdigest).Good s.archive →
      SiteInv cfg hdigest { s with archive := a } := by
    intro hfresh hgood
    have hafter := (certificate cfg digest true hdigest).good_step hgood (recording_step hstep)
    exact ⟨fun _ => hafter.inv, .inr (.inl ⟨hfresh, hafter⟩)⟩
  have hsealed : (sealedCertificate cfg digest (Recording cfg)).Good s.archive →
      SiteInv cfg hdigest { s with archive := a } := by
    intro hgood
    have hafter := (sealedCertificate cfg digest (Recording cfg)).good_step hgood hstep
    exact ⟨fun hfresh => sealed_step_inv hgood hstep (h.fresh hfresh), .inr (.inr hafter)⟩
  rcases h.runs with hidle | ⟨hfresh, hgood⟩ | hgood
  · by_cases hfresh : ∀ n, s.stale n = false
    · exact hclean hfresh (good_of_idle _ hidle (h.fresh hfresh))
    · cases hthread : a.thread () with
      | none => exact ⟨fun hall => absurd hall hfresh, .inl hthread⟩
      | some p =>
        rcases (hstart hidle (by rw [hthread]; rfl)).2 with hall | hseal
        · exact absurd hall hfresh
        · exact hsealed (good_of_idle _ hidle hseal)
  · exact hclean hfresh hgood
  · exact hsealed hgood

theorem SiteInv.answer {α : Type} {s s' : Site S} (h : SiteInv cfg hdigest s)
    (h' : SiteInv cfg hdigest s') (c : RestoreReply) (result : Except TieringError α) :
    SiteInv cfg hdigest (s.answer s' c result).2 := by
  unfold Site.answer
  split
  · exact h'
  next applied e _ =>
    cases applied with
    | false => exact h
    | true => exact h'

theorem SiteInv.refill {s : Site S} (hidle : s.archive.thread () = none) (rows : List Row) :
    SiteInv cfg hdigest (s.refill rows) :=
  ⟨fun hnone => inv_of_recorded (s := s) _ rfl hnone, .inl hidle⟩

theorem SiteInv.restoreExec {s : Site S} (h : SiteInv cfg hdigest s)
    (hidle : s.archive.thread () = none) (o : RestoreOp) (c : RestoreReply) :
    SiteInv cfg hdigest (s.restoreExec o c).2 := by
  cases o with
  | countStaging => exact h.answer h c _
  | countPartition => exact h.answer h c _
  | exchange =>
    change SiteInv cfg hdigest (s.exchangeCall c).2
    unfold Site.exchangeCall
    split
    next rows staged _ _ =>
      have hrefill : SiteInv cfg hdigest (s.refill staged) := SiteInv.refill hidle staged
      have hexchange : SiteInv cfg hdigest (s.exchange rows staged) := ⟨hrefill.fresh, hrefill.runs⟩
      exact h.answer hexchange c _
    next => exact h.answer h c _
    next => exact h.answer h c _
  | resetPartition =>
    have hreset : SiteInv cfg hdigest s.resetPartition := ⟨fun _ => inv_of_no_jobs fun _ => rfl, .inl hidle⟩
    exact h.answer hreset c _

theorem step_siteInv {s t : Site S} (h : SiteInv cfg hdigest s)
    (hstep : Site.Step cfg digest mySql plan (Recording cfg) ReadyToArchive s t) :
    SiteInv cfg hdigest t := by
  cases hstep with
  | archive a hstep hstart => exact h.archive hstep hstart
  | addPartition hidle _ => exact SiteInv.refill hidle []
  | stage rows => exact ⟨h.fresh, h.runs⟩
  | restore hidle _ => exact ⟨h.fresh, h.runs⟩
  | call c hidle hcall =>
    have hafter := h.restoreExec hidle ‹RestoreOp› c
    exact ⟨hafter.fresh, hafter.runs⟩
  | stop => exact ⟨h.fresh, h.runs⟩

theorem SiteInv.justified {s : Site S} (h : SiteInv cfg hdigest s) : Justified s := by
  intro k hdrop hot hhot r hr
  rcases h.runs with hidle | ⟨hfresh, hgood⟩ | hgood
  · rw [hidle] at hdrop
    cases hdrop
  · have hcovered := (hgood.call hdrop (c := .ok) ⟨trivial, fun hf => nomatch hf⟩).1 rfl
    obtain ⟨n, harchived, hmem⟩ := hcovered.1 rfl hot hhot r hr
    exact ⟨n, harchived, hfresh n, hmem⟩
  · exact absurd rfl (hgood.call hdrop (c := .ok) trivial).1.1

/-- While others only insert, and in runs that rewrite no pending chunk differently and start the
archiver only where no state of an earlier archive is left or the first one is marked dropped, the
partition is dropped only for what was archived since its last restore. -/
theorem restored_not_redropped (hdigest : Function.Injective digest) {rows : List Row} {s : Site S}
    (h : Site.Reach cfg digest mySql plan (Recording cfg) ReadyToArchive (.init rows) s) : Justified s := by
  have hinv : SiteInv cfg hdigest s := by
    induction h with
    | refl => exact siteInv_init rows
    | tail _ hstep ih => exact step_siteInv ih hstep
  exact hinv.justified

/-! ### A restore that is cut short -/

variable {allowed : Unit → Op S → Reply → World S → Prop} {fit : Site S → Prop}

theorem reach_archive {s : Site S} (hrestore : s.restore = none) (hfit : ∀ a, fit { s with archive := a })
    {a : Sys Unit (Op S) Res (Except TieringError Report) (World S)}
    (h : (host cfg digest true).Reach allowed s.archive a) :
    Site.Reach cfg digest mySql plan allowed fit s { s with archive := a } := by
  induction h with
  | refl => exact .refl
  | tail _ hstep ih => exact ih.tail (.archive _ hstep fun _ _ => ⟨hrestore, hfit _⟩)

end

def eventsPlan : RestorePlan := ⟨"events", "p2026_01", .s3⟩

/-- The archiver dies after the drop, a first restore after its exchange; the second restore goes through,
a row comes in, and the next run is about to drop the partition again. -/
theorem restored_not_redropped_again :
    ∃ s k, Site.Reach events (id : List Row → List Row) true eventsPlan (Recording events) ReadyToArchive
        (.init [⟨1, "a"⟩, ⟨2, "b"⟩, ⟨3, "c"⟩]) s ∧
      s.archive.thread () = some (.call .dropPartition k) ∧
      s.archive.world.hot = some [⟨4, "d"⟩, ⟨1, "a"⟩, ⟨2, "b"⟩, ⟨3, "c"⟩] ∧ Justified s := by
  have hdropped : Site.Reach events (id : List Row → List Row) true eventsPlan (Recording events) ReadyToArchive
      (.init [⟨1, "a"⟩, ⟨2, "b"⟩, ⟨3, "c"⟩]) _ := reach_archive rfl (fun _ => .inl fun _ => rfl)
    (Host.Reach.launch_crash (host events (id : List Row → List Row) true) (Recording events) () noReport
      (List.replicate 32 .ok) (init [⟨1, "a"⟩, ⟨2, "b"⟩, ⟨3, "c"⟩]).world trivial
      ⟨trivial, trivial, trivial, fun _ _ _ h => (nomatch h), trivial, trivial, trivial, trivial, trivial,
        trivial, trivial, trivial, trivial, trivial, trivial, fun _ _ _ h => (nomatch h), trivial, trivial,
        trivial, trivial, trivial, trivial, trivial, trivial, trivial, trivial, trivial, trivial, trivial,
        trivial, trivial, trivial, trivial⟩)
  have hadded := (hdropped.tail (.addPartition rfl rfl)).tail (.stage [⟨1, "a"⟩, ⟨2, "b"⟩, ⟨3, "c"⟩])
  have hcut := ((((hadded.tail (.restore rfl rfl)).tail (.call .ok rfl rfl)).tail (.call .ok rfl rfl)).tail
    (.call .ok rfl rfl)).tail .stop
  have hstaged := hcut.tail (.stage [⟨1, "a"⟩, ⟨2, "b"⟩, ⟨3, "c"⟩])
  have hrestored := (((((hstaged.tail (.restore rfl rfl)).tail (.call .ok rfl rfl)).tail (.call .ok rfl rfl)).tail
    (.call .ok rfl rfl)).tail (.call .ok rfl rfl)).tail .stop
  have hinserted := hrestored.trans (reach_archive rfl (fun _ => .inl fun _ => rfl)
    (.single (Host.Step.env _ (mutates_insertRow _ ⟨4, "d"⟩))))
  have hrun := hinserted.trans (reach_archive rfl (fun _ => .inl fun _ => rfl)
    (Host.Reach.launch (host events (id : List Row → List Row) true) (Recording events) () noReport
      (List.replicate 29 .ok) _ rfl trivial
      ⟨trivial, trivial, trivial, fun _ _ _ h => (nomatch h), trivial, trivial, trivial, trivial, trivial,
        trivial, trivial, trivial, trivial, trivial, trivial, fun _ _ _ h => (nomatch h), trivial, trivial,
        trivial, trivial, trivial, trivial, trivial, trivial, trivial, trivial, trivial, trivial, trivial,
        trivial⟩))
  exact ⟨_, _, hrun, rfl, rfl, restored_not_redropped Function.injective_id hrun⟩

/-- The archiver crashes between the drop and the marking of its chunks, the restore between the exchange
and the reset of the chunk states; the next run takes the stale states for the restored rows. -/
theorem restored_redropped : ¬ ∀ s, Site.Reach events (id : List Row → List Row) true eventsPlan Host.Free
    (fun _ => True) (.init [⟨1, "a"⟩]) s → Justified s := by
  intro hall
  have hdropped : Site.Reach events (id : List Row → List Row) true eventsPlan Host.Free (fun _ => True)
      (.init [⟨1, "a"⟩]) _ := reach_archive rfl (fun _ => trivial)
    (Host.Reach.launch_crash (host events (id : List Row → List Row) true) Host.Free () noReport
      (List.replicate 18 .ok) (init [⟨1, "a"⟩]).world trivial (Host.permits_free ..))
  have hstaged := (hdropped.tail (.addPartition rfl rfl)).tail (.stage [⟨1, "a"⟩])
  have hexchanged := (((hstaged.tail (.restore rfl rfl)).tail (.call .ok rfl rfl)).tail
    (.call .ok rfl rfl)).tail (.call .ok rfl rfl)
  have hcrashed := hexchanged.tail .stop
  have hdropping := hcrashed.trans (reach_archive rfl (fun _ => trivial)
    (Host.Reach.launch (host events (id : List Row → List Row) true) Host.Free () noReport
      (List.replicate 7 .ok) _ rfl trivial (Host.permits_free ..)))
  obtain ⟨n, -, hfresh, hmem⟩ := hall _ hdropping _ rfl _ rfl ⟨1, "a"⟩ (by decide)
  cases n with
  | zero => cases hfresh
  | succ n => exact absurd hmem List.not_mem_nil

end Ecat.Archive
