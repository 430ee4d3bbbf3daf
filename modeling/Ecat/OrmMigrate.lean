import Ecat.OrmEntity
import Ecat.Runs
import Mathlib

/-! The migration runner: version numbers from names, the ledger of applied versions, and what a
history of releases that add migrations has executed. -/

namespace Ecat.Orm.Migrate

inductive Error
  | invalidMigrationName (name : String)
  | migration (version : Nat) (name : String)
  | rdbms (message : String)
  deriving DecidableEq, Repr

/-- The digits before the first underscore, as an `i64`. -/
def parseVersion (name : String) : Except Error Nat :=
  let digits := name.toList.takeWhile (· != '_')
  if digits.isEmpty || !digits.all Char.isDigit then .error (.invalidMigrationName name)
  else
    let version := digits.foldl (fun n c => 10 * n + (c.toNat - '0'.toNat)) 0
    if version < 2 ^ 63 then .ok version else .error (.invalidMigrationName name)

structure Migration where
  version : Nat
  name : String
  sql : String
  deriving DecidableEq, Repr

/-- A name and the forward half of a `MigrationBuilder`. -/
structure Declared where
  name : String
  forward : Dialect → String

def Declared.build (dialect : Dialect) (version : Nat) (d : Declared) : Migration :=
  ⟨version, d.name, d.forward dialect⟩

/-- The version table, and the forward statements that took effect, in order. -/
structure Database where
  ledger : List (Nat × String)
  executed : List Migration
  deriving DecidableEq, Repr

structure MigrationStatus where
  applied : List Nat
  pending : List Nat
  unknown : List Nat
  deriving DecidableEq, Repr

def classify (applied known : List Nat) : MigrationStatus where
  applied := (applied.filter known.contains).insertionSort (· ≤ ·)
  pending := (known.filter fun v => !applied.contains v).insertionSort (· ≤ ·)
  unknown := (applied.filter fun v => !known.contains v).insertionSort (· ≤ ·)

def resolve (dialect : Dialect) (declared : List Declared) : Except Error (List Migration) :=
  declared.mapM fun d => do return d.build dialect (← parseVersion d.name)

def readApplied (db : Database) : List Nat := db.ledger.map Prod.fst

/-- The version is the primary key of the table. -/
def record (m : Migration) (db : Database) : Except Error Database :=
  if (readApplied db).contains m.version then .error (.rdbms "UNIQUE constraint failed: _ecat_migrations.version")
  else .ok { db with ledger := db.ledger ++ [(m.version, m.name)] }

def sortByVersion (ms : List Migration) : List Migration := ms.insertionSort fun a b => a.version ≤ b.version

/-- The loop of `run`; the `k`-th statement of the run fails, without effect, where `fails k`. -/
def applyAll (applied : List Nat) (fails : Nat → Bool) :
    Nat → List Migration → Database → Except Error Unit × Database
  | _, [], db => (.ok (), db)
  | k, m :: ms, db =>
    if applied.contains m.version then applyAll applied fails k ms db
    else if fails k then (.error (.migration m.version m.name), db)
    else
      let db := { db with executed := db.executed ++ [m] }
      match record m db with
      | .error error => (.error error, db)
      | .ok db => applyAll applied fails (k + 1) ms db

def run (dialect : Dialect) (declared : List Declared) (fails : Nat → Bool) (db : Database) :
    Except Error Unit × Database :=
  match resolve dialect declared with
  | .error error => (.error error, db)
  | .ok ms => applyAll (readApplied db) fails 0 (sortByVersion ms) db

/-! ### Histories -/

/-- One call of `run` by a release of the program. -/
structure Release where
  declared : List Declared
  fails : Nat → Bool

/-- The migrations as they are once their names are read. -/
def known (dialect : Dialect) (declared : List Declared) : List Migration := (resolve dialect declared).toOption.getD []

def fresh (applied : List Nat) (ms : List Migration) : List Migration := ms.filter fun m => !applied.contains m.version

def pending (dialect : Dialect) (declared : List Declared) (db : Database) : List Migration :=
  fresh (readApplied db) (sortByVersion (known dialect declared))

/-- What a run promises: nothing is executed twice, what this run has executed is the beginning of the
pending migrations in ascending order, and after success all is done for good. -/
structure Keeps (dialect : Dialect) (db : Database) (r : Release) : Prop where
  once : (run dialect r.declared r.fails db).2.executed.Subperm (known dialect r.declared)
  ascending : ∃ new, (run dialect r.declared r.fails db).2.executed = db.executed ++ new ∧
    new <+: pending dialect r.declared db
  done : (run dialect r.declared r.fails db).1 = .ok () →
    (known dialect r.declared).Subperm (run dialect r.declared r.fails db).2.executed
  idle : (run dialect r.declared r.fails db).1 = .ok () → ∀ fails,
    run dialect r.declared fails (run dialect r.declared r.fails db).2 =
      (.ok (), (run dialect r.declared r.fails db).2)

def next (dialect : Dialect) (db : Database) (r : Release) : Option Database :=
  some (run dialect r.declared r.fails db).2

/-- Each release has the migrations of the one before, and all are from the list, in any order. -/
structure Grows (all : List Declared) (history : List Release) : Prop where
  from_all : ∀ r ∈ history, r.declared.Subperm all
  extends_last : history.IsChain fun r r' => r.declared.Subperm r'.declared

def Accepted (name : String) : Prop := ∃ v, parseVersion name = .ok v

def versionOf (name : String) : Nat := (parseVersion name).toOption.getD 0

/-! ### One run -/

variable {dialect : Dialect} {declared all : List Declared} {applied : List Nat} {fails : Nat → Bool}
  {ms : List Migration} {db : Database}

theorem resolve_eq (hnames : ∀ d ∈ declared, Accepted d.name) :
    resolve dialect declared = .ok (declared.map fun d => d.build dialect (versionOf d.name)) := by
  induction declared with
  | nil => rfl
  | cons d declared ih =>
    obtain ⟨⟨v, hv⟩, hrest⟩ := List.forall_mem_cons.1 hnames
    have hversion : versionOf d.name = v := by simp [versionOf, hv, Except.toOption]
    have htail := ih hrest
    unfold resolve at htail ⊢
    rw [List.mapM_cons, htail, hv, List.map_cons, hversion]
    rfl

theorem known_eq (hnames : ∀ d ∈ declared, Accepted d.name) :
    known dialect declared = declared.map fun d => d.build dialect (versionOf d.name) := by
  rw [known, resolve_eq hnames]
  rfl

theorem run_eq (hnames : ∀ d ∈ declared, Accepted d.name) : run dialect declared fails db =
    applyAll (readApplied db) fails 0 (sortByVersion (known dialect declared)) db := by
  rw [run, known, resolve_eq hnames]
  rfl

def Database.after (db : Database) (new : List Migration) : Database :=
  ⟨db.ledger ++ new.map fun m => (m.version, m.name), db.executed ++ new⟩

theorem applyAll_skip (hall : fresh applied ms = []) (k : Nat) : applyAll applied fails k ms db = (.ok (), db) := by
  induction ms with
  | nil => rfl
  | cons m ms ih =>
    rw [fresh, List.filter_cons] at hall
    split at hall
    · cases hall
    · rename_i hm
      rw [applyAll, if_pos (by simpa using hm)]
      exact ih hall

/-- Where no two of them have one version, the loop applies the fresh migrations one after another,
up to the first that fails. -/
theorem applyAll_fresh (fails : Nat → Bool) (hnodup : ((fresh applied ms).map Migration.version).Nodup)
    (hunrecorded : ∀ m ∈ fresh applied ms, m.version ∉ readApplied db) (k : Nat) :
    ∃ new, new <+: fresh applied ms ∧ (applyAll applied fails k ms db).2 = db.after new ∧
      ((applyAll applied fails k ms db).1 = .ok () → new = fresh applied ms) := by
  induction ms generalizing k db with
  | nil => exact ⟨[], List.nil_prefix, by simp [applyAll, Database.after], fun _ => rfl⟩
  | cons m ms ih =>
    by_cases hm : applied.contains m.version = true
    · have hfresh : fresh applied (m :: ms) = fresh applied ms := List.filter_cons_of_neg (by simpa using hm)
      rw [hfresh] at hnodup hunrecorded ⊢
      rw [applyAll, if_pos hm]
      exact ih hnodup hunrecorded k
    · have hfresh : fresh applied (m :: ms) = m :: fresh applied ms := List.filter_cons_of_pos (by simpa using hm)
      rw [hfresh] at hnodup hunrecorded ⊢
      rw [applyAll, if_neg hm]
      by_cases hfails : fails k = true
      · rw [if_pos hfails]
        exact ⟨[], List.nil_prefix, by simp [Database.after], fun hok => by cases hok⟩
      · obtain ⟨hnew, hrest⟩ := List.forall_mem_cons.1 hunrecorded
        obtain ⟨hhead, htail⟩ := List.nodup_cons.1 hnodup
        have hrecord : record m { db with executed := db.executed ++ [m] } = .ok (db.after [m]) := by
          rw [record, if_neg (by simpa [readApplied] using hnew)]
          rfl
        have hunrecorded' : ∀ m' ∈ fresh applied ms, m'.version ∉ readApplied (db.after [m]) := by
          intro m' hm' hmem
          have hne : m'.version ≠ m.version := by
            intro heq
            exact hhead (heq ▸ List.mem_map_of_mem hm')
          simp only [readApplied, Database.after, List.map_append, List.mem_append, List.map_cons, List.map_nil,
            List.mem_singleton] at hmem
          exact hmem.elim (hrest m' hm') hne
        obtain ⟨new, hprefix, hafter, hok⟩ := ih htail hunrecorded' (k + 1)
        simp only [hfails, Bool.false_eq_true, if_false, hrecord]
        refine ⟨m :: new, List.cons_prefix_cons.2 ⟨rfl, hprefix⟩, ?_, ?_⟩
        · rw [hafter]
          simp [Database.after]
        · intro h
          rw [hok h]

/-! ### The ledger -/

/-- The ledger has a row for each migration executed, and all of them are known. -/
structure Recorded (ms : List Migration) (db : Database) : Prop where
  ledger : db.ledger = db.executed.map fun m => (m.version, m.name)
  known : db.executed.Subperm ms

theorem Recorded.versions (h : Recorded ms db) : readApplied db = db.executed.map Migration.version := by
  rw [readApplied, h.ledger, List.map_map]
  rfl

theorem Recorded.mono {ms' : List Migration} (h : Recorded ms db) (hsub : ms.Subperm ms') : Recorded ms' db :=
  ⟨h.ledger, h.known.trans hsub⟩

theorem Recorded.perm (h : Recorded ms db) (hnodup : (ms.map Migration.version).Nodup) :
    (db.executed ++ fresh (readApplied db) (sortByVersion ms)).Perm ms := by
  have hms : ms.Nodup := hnodup.of_map
  have hknown : db.executed.Nodup := by
    obtain ⟨l, hperm, hsub⟩ := h.known
    exact hperm.nodup_iff.1 (hsub.nodup hms)
  have hexecuted : db.executed.Perm (ms.filter fun m => (readApplied db).contains m.version) := by
    rw [List.perm_ext_iff_of_nodup hknown (hms.filter _)]
    intro m
    rw [List.mem_filter, List.contains_iff_mem, h.versions]
    constructor
    · intro hm
      exact ⟨h.known.subset hm, List.mem_map_of_mem hm⟩
    · rintro ⟨hm, hversion⟩
      obtain ⟨m', hm', heq⟩ := List.mem_map.1 hversion
      rwa [← List.inj_on_of_nodup_map hnodup (h.known.subset hm') hm heq]
  have hfresh : (fresh (readApplied db) (sortByVersion ms)).Perm
      (ms.filter fun m => !(readApplied db).contains m.version) :=
    (List.perm_insertionSort _ ms).filter _
  exact (hexecuted.append hfresh).trans (List.filter_append_perm _ ms)

theorem applyAll_recorded (h : Recorded ms db) (hnodup : (ms.map Migration.version).Nodup) (fails : Nat → Bool) :
    ∃ new, new <+: fresh (readApplied db) (sortByVersion ms) ∧
      (applyAll (readApplied db) fails 0 (sortByVersion ms) db).2 = db.after new ∧ Recorded ms (db.after new) ∧
      ((applyAll (readApplied db) fails 0 (sortByVersion ms) db).1 = .ok () →
        new = fresh (readApplied db) (sortByVersion ms)) := by
  have hperm := h.perm hnodup
  have hversions : (db.executed.map Migration.version ++
      (fresh (readApplied db) (sortByVersion ms)).map Migration.version).Nodup := by
    rw [← List.map_append]
    exact (hperm.map Migration.version).nodup_iff.2 hnodup
  have hunrecorded : ∀ m ∈ fresh (readApplied db) (sortByVersion ms), m.version ∉ readApplied db := by
    intro m hm
    have hnot := (List.mem_filter.1 hm).2
    simpa using hnot
  obtain ⟨new, hprefix, hafter, hok⟩ := applyAll_fresh fails (List.nodup_append.1 hversions).2.1 hunrecorded 0
  refine ⟨new, hprefix, hafter, ⟨?_, ?_⟩, hok⟩
  · simp [Database.after, h.ledger]
  · exact ((List.Sublist.refl db.executed).append hprefix.sublist).subperm.trans hperm.subperm

/-- A run on a sound ledger keeps what it promises and leaves a sound ledger. -/
theorem keeps_run {r : Release} (hnames : ∀ d ∈ r.declared, Accepted d.name)
    (hnodup : ((known dialect r.declared).map Migration.version).Nodup)
    (h : Recorded (known dialect r.declared) db) :
    Keeps dialect db r ∧ Recorded (known dialect r.declared) (run dialect r.declared r.fails db).2 := by
  obtain ⟨new, hprefix, hafter, hrecorded, hok⟩ := applyAll_recorded h hnodup r.fails
  rw [← run_eq hnames] at hafter hok
  have hdone : (run dialect r.declared r.fails db).1 = .ok () → (db.after new).executed.Perm (known dialect r.declared) := by
    intro h'
    rw [hok h']
    exact h.perm hnodup
  refine ⟨⟨?_, ?_, ?_, ?_⟩, ?_⟩
  · rw [hafter]
    exact hrecorded.known
  · exact ⟨new, by rw [hafter]; rfl, hprefix⟩
  · intro h'
    rw [hafter]
    exact (hdone h').symm.subperm
  · intro h' fails
    rw [hafter, run_eq hnames]
    apply applyAll_skip
    rw [fresh, List.filter_eq_nil_iff]
    intro m hm
    have hknown : m ∈ known dialect r.declared := (List.perm_insertionSort _ _).mem_iff.1 hm
    have hexecuted : m ∈ (db.after new).executed := (hdone h').mem_iff.2 hknown
    simpa [hrecorded.versions] using ⟨m, hexecuted, rfl⟩
  · rw [hafter]
    exact hrecorded

/-! ### Whole histories -/

theorem known_versions (hnames : ∀ d ∈ declared, Accepted d.name) :
    (known dialect declared).map Migration.version = declared.map fun d => versionOf d.name := by
  rw [known_eq hnames, List.map_map]
  rfl

/-- `status` reports as pending what `run` would apply. -/
theorem classify_pending (dialect : Dialect) (declared : List Declared) (db : Database) :
    (classify (readApplied db) ((known dialect declared).map Migration.version)).pending =
      (pending dialect declared db).map Migration.version := by
  have hsorted : ((pending dialect declared db).map Migration.version).Pairwise (· ≤ ·) := by
    rw [List.pairwise_map]
    exact (List.pairwise_insertionSort _ _).filter _
  have hperm : ((known dialect declared).map Migration.version |>.filter fun v => !(readApplied db).contains v).Perm
      ((pending dialect declared db).map Migration.version) := by
    rw [List.filter_map]
    exact (((List.perm_insertionSort _ _).symm).filter _).map _
  exact ((List.perm_insertionSort _ _).trans hperm).eq_of_pairwise' (List.pairwise_insertionSort _ _) hsorted

theorem subperm_map {α β : Type} {l l' : List α} (f : α → β) (h : l.Subperm l') : (l.map f).Subperm (l'.map f) := by
  obtain ⟨x, hperm, hsub⟩ := h
  exact ⟨x.map f, hperm.map f, hsub.map f⟩

theorem known_subperm {later : List Declared} (hnames : ∀ d ∈ later, Accepted d.name)
    (hsub : declared.Subperm later) : (known dialect declared).Subperm (known dialect later) := by
  rw [known_eq hnames, known_eq fun d hd => hnames d (hsub.subset hd)]
  exact subperm_map _ hsub

theorem keeps_history {history : List Release} (hnames : ∀ d ∈ all, Accepted d.name)
    (hnodup : (all.map fun d => versionOf d.name).Nodup) (hgrows : Grows all history)
    (h : ∀ r ∈ history.head?, Recorded (known dialect r.declared) db) :
    Meets (next dialect) (Keeps dialect) db history := by
  induction history generalizing db with
  | nil => trivial
  | cons r history ih =>
    obtain ⟨hr, hrest⟩ := List.forall_mem_cons.1 hgrows.from_all
    obtain ⟨hlater, hchain⟩ := List.isChain_cons.1 hgrows.extends_last
    have hnames' : ∀ d ∈ r.declared, Accepted d.name := fun d hd => hnames d (hr.subset hd)
    have hnodup' : ((known dialect r.declared).map Migration.version).Nodup := by
      rw [known_versions hnames']
      obtain ⟨l, hperm, hsub⟩ := subperm_map (fun d : Declared => versionOf d.name) hr
      exact hperm.nodup_iff.1 (hsub.nodup hnodup)
    obtain ⟨hkeeps, hrecorded⟩ := keeps_run hnames' hnodup' (h r rfl)
    refine ⟨hkeeps, ?_⟩
    apply ih ⟨hrest, hchain⟩
    intro r' hr'
    have hmem : r' ∈ history := List.mem_of_mem_head? hr'
    exact hrecorded.mono (known_subperm (fun d hd => hnames d ((hrest r' hmem).subset hd)) (hlater r' hr'))

theorem run_one (d : Declared) (hname : Accepted d.name) :
    run dialect [d] (fun _ => false) ⟨[], []⟩ =
      (.ok (), ⟨[(versionOf d.name, d.name)], [d.build dialect (versionOf d.name)]⟩) := by
  have hnames : ∀ d' ∈ [d], Accepted d'.name := by simpa using hname
  rw [run_eq hnames, known_eq hnames]
  rfl

/-- A migration whose version is in the ledger already is passed over without a word. -/
theorem run_again (dialect : Dialect) {d d' : Declared} (db : Database) (hnames : ∀ x ∈ [d, d'], Accepted x.name)
    (hd : versionOf d.name ∈ readApplied db) (hd' : versionOf d'.name ∈ readApplied db) :
    run dialect [d, d'] (fun _ => false) db = (.ok (), db) := by
  rw [run_eq hnames, known_eq hnames]
  apply applyAll_skip
  rw [fresh, List.filter_eq_nil_iff]
  intro m hm
  have hmem := (List.perm_insertionSort _ _).mem_iff.1 hm
  obtain ⟨x, hx, rfl⟩ := List.mem_map.1 hmem
  rcases List.mem_pair.1 hx with rfl | rfl
  · simpa [Declared.build] using hd
  · simpa [Declared.build] using hd'

/-- Every history of releases keeps its promises exactly where no two migrations have one version. -/
theorem keeps_iff (dialect : Dialect) {all : List Declared} (hnames : ∀ d ∈ all, Accepted d.name) :
    (∀ history, Grows all history → Meets (next dialect) (Keeps dialect) ⟨[], []⟩ history) ↔
      (all.map fun d => versionOf d.name).Nodup := by
  constructor
  · intro h
    rw [List.nodup_iff_sublist]
    intro v hv
    obtain ⟨l, hl, hmap⟩ := List.sublist_map_iff.1 hv
    obtain ⟨d, d', rfl⟩ : ∃ d d', l = [d, d'] := List.length_eq_two.1 (by simpa using (congrArg List.length hmap).symm)
    have hpair : ∀ x ∈ [d, d'], Accepted x.name := fun x hx => hnames x (hl.subset hx)
    have hsame : v = versionOf d.name ∧ v = versionOf d'.name := by simpa using hmap
    -- The first release has `d` alone; the second adds `d'`, which it takes for applied.
    have hgrows : Grows all [⟨[d], fun _ => false⟩, ⟨[d, d'], fun _ => false⟩] := by
      have hfirst : [d].Sublist [d, d'] := by simp
      constructor
      · intro r hr
        rcases List.mem_pair.1 hr with rfl | rfl
        · exact (hfirst.trans hl).subperm
        · exact hl.subperm
      · rw [List.isChain_pair]
        exact hfirst.subperm
    have hkeeps := ((h _ hgrows).tail rfl).1
    rw [run_one d (hpair d (by simp))] at hkeeps
    have hrun := run_again dialect ⟨[(versionOf d.name, d.name)], [d.build dialect (versionOf d.name)]⟩ hpair
      (by simp [readApplied]) (by simp [readApplied, ← hsame.1, ← hsame.2])
    have hdone := hkeeps.done (by rw [hrun])
    rw [hrun, known_eq hpair] at hdone
    have hlength := hdone.length_le
    simp at hlength
  · intro hnodup history hgrows
    apply keeps_history hnames hnodup hgrows
    intro r _
    exact ⟨rfl, List.nil_subperm⟩

def users : Declared := ⟨"001_users", fun _ => "CREATE TABLE users (id)"⟩

def posts : Declared := ⟨"002_posts", fun _ => "CREATE TABLE posts (id)"⟩

theorem users_posts_keep : (∀ d ∈ [posts, users], Accepted d.name) ∧
    ∀ history, Grows [posts, users] history → Meets (next .sqlite) (Keeps .sqlite) ⟨[], []⟩ history := by
  have hnames : ∀ d ∈ [posts, users], Accepted d.name := by
    intro d hd
    rcases List.mem_pair.1 hd with rfl | rfl
    · exact ⟨2, by decide⟩
    · exact ⟨1, by decide⟩
  exact ⟨hnames, (keeps_iff .sqlite hnames).2 (by decide)⟩

def tags : Declared := ⟨"1_tags", fun _ => "CREATE TABLE tags (id)"⟩

/-- The release that adds `1_tags` to an applied `001_users` succeeds and never creates the table. -/
theorem tags_never_created :
    let db := (run .sqlite [users] (fun _ => false) ⟨[], []⟩).2
    run .sqlite [users, tags] (fun _ => false) db = (.ok (), db) ∧
      db.executed = [⟨1, "001_users", "CREATE TABLE users (id)"⟩] ∧
      ¬ Keeps .sqlite db ⟨[users, tags], fun _ => false⟩ := by
  refine ⟨by decide, by decide, ?_⟩
  intro h
  have hlength := (h.done (by decide)).length_le
  revert hlength
  decide

end Ecat.Orm.Migrate
