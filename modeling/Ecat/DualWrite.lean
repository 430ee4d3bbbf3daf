import Ecat.ShardRouting
import Ecat.Updates

/-! Dual writes while rows move between two topologies: a statement runs on the shard that owns its key
in the primary topology, and then on the one that owns it in the mirror, each in a call of its own. -/

namespace Ecat.Shard

open Json

inductive IdentityPolicy
  | error | writeBoth | primaryOnly
  deriving DecidableEq, Repr

structure DualWrite (Client : Type) where
  primary : Router Client
  mirror : Router Client
  primaryTopology : String
  mirrorTopology : String
  identity : IdentityPolicy

variable {Client : Type}

namespace DualWrite

def beforeCutover (old new : Router Client) : DualWrite Client := ⟨old, new, "old", "new", .error⟩

def afterCutover (new old : Router Client) : DualWrite Client := ⟨new, old, "new", "old", .error⟩

def assumeDistinct (d : DualWrite Client) : DualWrite Client := { d with identity := .writeBoth }

def assumeSame (d : DualWrite Client) : DualWrite Client := { d with identity := .primaryOnly }

end DualWrite

structure DualWriteClient (Client : Type) where
  primary : Client
  mirror : Option Client
  deriving DecidableEq, Repr

def unprovenIdentity (primaryShard primaryTopology mirrorShard mirrorTopology : String) : ShardError :=
  .config (s!"dual-write: shard `{primaryShard}` in the {primaryTopology} topology and shard " ++
    s!"`{mirrorShard}` in the {mirrorTopology} topology use different clients; physical " ++
    "identity is unproven. Call DualWrite::assume_same() if they are the same " ++
    "physical shard, or DualWrite::assume_distinct() (requires " ++
    "idempotent/replay-safe SQL) to write both.")

/-- Clients are the same when their pointers are. `none` is the panic of a router. -/
def DualWrite.forKey [DecidableEq Client] (d : DualWrite Client) (table : String) (key : Value) :
    Option (Except ShardError (DualWriteClient Client)) :=
  match d.primary.forKeyWithShard table key with
  | none => none
  | some (.error e) => some (.error e)
  | some (.ok (primaryShard, primary)) =>
    match d.mirror.forKeyWithShard table key with
    | none => none
    | some (.error e) => some (.error e)
    | some (.ok (mirrorShard, mirror)) =>
      if primary = mirror then some (.ok ⟨primary, none⟩)
      else
        match d.identity with
        | .error => some (.error (unprovenIdentity primaryShard d.primaryTopology mirrorShard d.mirrorTopology))
        | .writeBoth => some (.ok ⟨primary, some mirror⟩)
        | .primaryOnly => some (.ok ⟨primary, none⟩)

/-! ### Writes in flight -/

/-- The two topologies, the rows that keys stand for, and the database behind a client. -/
structure Topologies (K Client Target : Type) where
  old : Router Client
  new : Router Client
  table : K → String
  value : K → Value
  target : Client → Target

/-- A write whose primary has committed and whose mirror is owed the statement. -/
structure Owed (K V Client : Type) where
  key : K
  stmt : V → V
  mirror : Client

/-- `log` keeps what the primaries committed, and `failed` the keys with a write that is on one side
only for good; no call reads them. -/
structure Written (K V Client Target : Type) where
  rows : Target → K → V
  owed : List (Owed K V Client)
  log : K → List (V → V)
  failed : K → Bool

inductive Reply
  | ok
  | failed (applied : Bool)
  deriving DecidableEq, Repr

/-- `write` runs a statement on the primary, `mirror` the owed one on the mirror, which is also how it
is replayed on `mirror_client()` after a failure, and `drop` gives it up. -/
inductive Dual (K V : Type)
  | write (cutover : Bool) (identity : IdentityPolicy) (key : K) (stmt : V → V) (reply : Reply)
  | mirror (i : Nat) (reply : Reply)
  | drop (i : Nat)

variable {K V Target : Type}

def Topologies.dual (X : Topologies K Client Target) (cutover : Bool) (identity : IdentityPolicy) :
    DualWrite Client :=
  { if cutover then DualWrite.afterCutover X.new X.old else DualWrite.beforeCutover X.old X.new with identity }

namespace Written

variable [DecidableEq K] [DecidableEq Target] (s : Written K V Client Target)

def put (target : Target) (key : K) (stmt : V → V) : Written K V Client Target :=
  { s with rows := fun t k => if t = target ∧ k = key then stmt (s.rows t k) else s.rows t k }

def commit (key : K) (stmt : V → V) : Written K V Client Target :=
  { s with log := fun k => if k = key then s.log k ++ [stmt] else s.log k }

def fail (key : K) : Written K V Client Target := { s with failed := fun k => if k = key then true else s.failed k }

end Written

variable (X : Topologies K Client Target)

def dualStep [DecidableEq K] [DecidableEq Client] [DecidableEq Target] (s : Written K V Client Target) : Dual K V → Option (Written K V Client Target)
  | .write cutover identity key stmt reply =>
    match (X.dual cutover identity).forKey (X.table key) (X.value key) with
    | none => none
    | some (.error _) => some s
    | some (.ok c) =>
      match reply with
      | .failed applied => some (if applied then (s.put (X.target c.primary) key stmt).fail key else s)
      | .ok =>
        let s := (s.put (X.target c.primary) key stmt).commit key stmt
        match c.mirror with
        | none => some s
        | some mirror => some { s with owed := s.owed ++ [⟨key, stmt, mirror⟩] }
  | .mirror i reply =>
    match s.owed[i]? with
    | none => none
    | some w =>
      match reply with
      | .ok => some { s.put (X.target w.mirror) w.key w.stmt with owed := s.owed.eraseIdx i }
      | .failed applied => some (if applied then s.put (X.target w.mirror) w.key w.stmt else s)
  | .drop i =>
    match s.owed[i]? with
    | none => none
    | some w => some { s.fail w.key with owed := s.owed.eraseIdx i }

/-! ### Both sides agree -/

/-- The client of a key in the old topology, or in the new one. -/
def Topologies.client (cutover : Bool) (key : K) : Option Client :=
  match (if cutover then X.new else X.old).forKeyWithShard (X.table key) (X.value key) with
  | some (.ok (_, client)) => some client
  | _ => none

/-- Statements on one key that overlap commute, `assume_same()` is said of one database only, and a
statement that may run twice on a database does nothing the second time. -/
def Sound (s : Written K V Client Target) : Dual K V → Prop
  | .write _ identity key stmt _ => (∀ w ∈ s.owed, w.key = key → Function.Commute stmt w.stmt) ∧
    ∀ a b, X.client false key = some a → X.client true key = some b →
      (identity = .primaryOnly → X.target a = X.target b) ∧
      (identity = .writeBoth → X.target a = X.target b → ∀ x, stmt (stmt x) = stmt x)
  | .mirror i (.failed true) => ∀ w, s.owed[i]? = some w → ∀ x, w.stmt (w.stmt x) = w.stmt x
  | _ => True

def owing [DecidableEq K] (key : K) (owed : List (Owed K V Client)) : List (Owed K V Client) := owed.filter fun w => w.key = key

/-- What a database is still owed for a key. -/
def pending [DecidableEq K] [DecidableEq Target] (key : K) (target : Target) (owed : List (Owed K V Client)) : List (V → V) :=
  ((owing key owed).filter fun w => X.target w.mirror = target).map Owed.stmt

/-- With what it is owed, each side has what the primaries committed; where both sides are one database
it has that already. -/
structure Synced [DecidableEq K] [DecidableEq Target] (k : K) (a b : Target) (x : V) (s : Written K V Client Target) : Prop where
  commute : ∀ w ∈ owing k s.owed, ∀ w' ∈ owing k s.owed, Function.Commute w.stmt w'.stmt
  apart : s.failed k = false → a ≠ b → ∀ t, t = a ∨ t = b →
    applyAll (pending X k t s.owed) (s.rows t k) = applyAll (s.log k) x
  same : s.failed k = false → a = b → s.rows a k = applyAll (s.log k) x ∧
    ∀ w ∈ owing k s.owed, w.stmt (s.rows a k) = s.rows a k

variable {X} {s s' : Written K V Client Target} {k key : K} {a b t : Target} {x : V} {stmt : V → V}

theorem forKey_ok [DecidableEq Client] {d : DualWrite Client} {table : String} {key : Value} {c : DualWriteClient Client}
    (h : d.forKey table key = some (.ok c)) :
    ∃ shard shard' mirror, d.primary.forKeyWithShard table key = some (.ok (shard, c.primary)) ∧
      d.mirror.forKeyWithShard table key = some (.ok (shard', mirror)) ∧
      (c.mirror = none ∧ (c.primary = mirror ∨ d.identity = .primaryOnly) ∨
        c.mirror = some mirror ∧ d.identity = .writeBoth) := by
  unfold DualWrite.forKey at h
  split at h
  · cases h
  · cases h
  · next shard primary hprimary =>
    split at h
    · cases h
    · cases h
    · next shard' mirror hmirror =>
      split at h
      · next heq =>
        cases h
        exact ⟨shard, shard', mirror, hprimary, hmirror, .inl ⟨rfl, .inl heq⟩⟩
      · split at h
        · cases h
        · next hboth =>
          cases h
          exact ⟨shard, shard', mirror, hprimary, hmirror, .inr ⟨rfl, hboth⟩⟩
        · next honly =>
          cases h
          exact ⟨shard, shard', mirror, hprimary, hmirror, .inl ⟨rfl, .inr honly⟩⟩

theorem dual_ok [DecidableEq Client] {cutover : Bool} {identity : IdentityPolicy} {c : DualWriteClient Client}
    (h : (X.dual cutover identity).forKey (X.table key) (X.value key) = some (.ok c)) :
    X.client cutover key = some c.primary ∧ ∃ mirror, X.client (!cutover) key = some mirror ∧
      (c.mirror = none ∧ (c.primary = mirror ∨ identity = .primaryOnly) ∨
        c.mirror = some mirror ∧ identity = .writeBoth) := by
  obtain ⟨shard, shard', mirror, hprimary, hmirror, hcase⟩ := forKey_ok h
  cases cutover with
  | false => exact ⟨by rw [Topologies.client]; exact hprimary ▸ rfl, mirror, by
      rw [Topologies.client]; exact hmirror ▸ rfl, hcase⟩
  | true => exact ⟨by rw [Topologies.client]; exact hprimary ▸ rfl, mirror, by
      rw [Topologies.client]; exact hmirror ▸ rfl, hcase⟩

section Rows

variable [DecidableEq K]

theorem mem_owing {owed : List (Owed K V Client)} {w : Owed K V Client} :
    w ∈ owing k owed ↔ w ∈ owed ∧ w.key = k := by
  simp [owing]

theorem owing_eraseIdx_of_ne {i : Nat} {w : Owed K V Client} (hw : s.owed[i]? = some w) (hne : w.key ≠ k) :
    owing k (s.owed.eraseIdx i) = owing k s.owed := by
  obtain ⟨hlt, hget⟩ := List.getElem?_eq_some_iff.1 hw
  have hsplit : s.owed = s.owed.take i ++ w :: s.owed.drop (i + 1) := by
    rw [← hget, List.getElem_cons_drop, List.take_append_drop]
  rw [owing, owing, List.eraseIdx_eq_take_drop_succ]
  conv_rhs => rw [hsplit]
  simp [hne]

theorem owing_eraseIdx_of_eq {i : Nat} {w : Owed K V Client} (hw : s.owed[i]? = some w) (he : w.key = k) :
    (owing k s.owed).Perm (w :: owing k (s.owed.eraseIdx i)) := by
  obtain ⟨hlt, hget⟩ := List.getElem?_eq_some_iff.1 hw
  have hperm := (List.getElem_cons_eraseIdx_perm hlt).symm.filter fun w => decide (w.key = k)
  rw [hget] at hperm
  simpa [owing, he] using hperm

theorem owing_eraseIdx_subset {i : Nat} {w : Owed K V Client} (hw : w ∈ owing k (s.owed.eraseIdx i)) :
    w ∈ owing k s.owed := by
  obtain ⟨hmem, hkey⟩ := mem_owing.1 hw
  exact mem_owing.2 ⟨List.mem_of_mem_eraseIdx hmem, hkey⟩

variable [DecidableEq Target]

/-- Steps on other keys. -/
theorem Synced.other (h : Synced (X := X) k a b x s) (hrows : ∀ t, s'.rows t k = s.rows t k) (hlog : s'.log k = s.log k)
    (hfailed : s'.failed k = s.failed k) (howing : owing k s'.owed = owing k s.owed) : Synced (X := X) k a b x s' := by
  refine ⟨howing ▸ h.commute, fun hok hne t ht => ?_, fun hok he => ?_⟩
  · rw [hrows, hlog, pending, howing]
    exact h.apart (hfailed ▸ hok) hne t ht
  · rw [hrows, hlog, howing]
    exact h.same (hfailed ▸ hok) he

theorem rows_put (s : Written K V Client Target) (t t' : Target) (key k : K) (stmt : V → V) :
    (s.put t key stmt).rows t' k = if t' = t ∧ k = key then stmt (s.rows t' k) else s.rows t' k := rfl

theorem mem_pending {f : V → V} (h : f ∈ pending X k t s.owed) : ∃ w ∈ owing k s.owed, w.stmt = f := by
  obtain ⟨w, hw, rfl⟩ := List.mem_map.1 h
  exact ⟨w, (List.mem_filter.1 hw).1, rfl⟩

/-- A write on the key itself that its primary has committed, with what the mirror is then owed. -/
theorem Synced.write (h : Synced (X := X) k a b x s) {p m : Target} (hsides : p = a ∧ m = b ∨ p = b ∧ m = a)
    (hcomm : ∀ w ∈ owing k s.owed, Function.Commute stmt w.stmt) {owed : List (Owed K V Client)}
    (howed : owed = [] ∧ p = m ∨ ∃ mirror, owed = [⟨k, stmt, mirror⟩] ∧ X.target mirror = m ∧
      (p = m → ∀ y, stmt (stmt y) = stmt y))
    (hrows : ∀ t, s'.rows t k = if t = p then stmt (s.rows t k) else s.rows t k)
    (hlog : s'.log k = s.log k ++ [stmt]) (hfailed : s'.failed k = s.failed k)
    (howing : owing k s'.owed = owing k s.owed ++ owed) : Synced (X := X) k a b x s' := by
  have hnew : ∀ w ∈ owed, w.stmt = stmt := by
    rcases howed with ⟨rfl, -⟩ | ⟨mirror, rfl, -, -⟩ <;> simp
  refine ⟨?_, fun hok hne t ht => ?_, fun hok he => ?_⟩
  · intro w hw w' hw'
    rw [howing, List.mem_append] at hw hw'
    rcases hw with hw | hw <;> rcases hw' with hw' | hw'
    · exact h.commute w hw w' hw'
    · exact hnew w' hw' ▸ (hcomm w hw).symm
    · exact hnew w hw ▸ hcomm w' hw'
    · rw [hnew w hw, hnew w' hw']
  · have hpm : p ≠ m := by
      rcases hsides with ⟨rfl, rfl⟩ | ⟨rfl, rfl⟩
      · exact hne
      · exact hne.symm
    obtain ⟨mirror, rfl, hmirror, -⟩ := howed.resolve_left fun hnone => hpm hnone.2
    have hbefore := h.apart (hfailed ▸ hok) hne t ht
    have htm : t = p ∨ t = m := by
      rcases hsides with ⟨rfl, rfl⟩ | ⟨rfl, rfl⟩
      · exact ht
      · exact ht.symm
    rw [hrows, hlog, applyAll_append, ← hbefore, pending, howing, List.filter_append, List.map_append,
      applyAll_append]
    rcases htm with rfl | rfl
    · -- the primary has the statement already, and what it is owed commutes with it
      have hpending : applyAll (pending X k t s.owed) (stmt (s.rows t k)) = stmt (applyAll (pending X k t s.owed) (s.rows t k)) := by
        refine applyAll_commute fun g hg => ?_
        obtain ⟨w, hw, rfl⟩ := mem_pending hg
        exact hcomm w hw
      have hmiss : X.target mirror ≠ t := hmirror ▸ hpm.symm
      simpa [hmiss, pending] using hpending
    · simp [hmirror, hpm.symm, pending]
  · obtain ⟨hcell, hfixed⟩ := h.same (hfailed ▸ hok) he
    obtain ⟨rfl, rfl⟩ : p = a ∧ m = a := by
      rcases hsides with ⟨rfl, rfl⟩ | ⟨rfl, rfl⟩
      · exact ⟨rfl, he.symm⟩
      · exact ⟨he.symm, rfl⟩
    rw [hrows, if_pos rfl, hlog, howing]
    refine ⟨by rw [hcell, applyAll_append]; rfl, fun w hw => ?_⟩
    rcases List.mem_append.1 hw with hw | hw
    · rw [← hcomm w hw (s.rows _ k), hfixed w hw]
    · rcases howed with ⟨rfl, -⟩ | ⟨mirror, rfl, -, hidem⟩
      · cases hw
      · rw [hnew w hw]
        exact hidem rfl _

/-- The owed statement may be taken first. -/
theorem applyAll_pending (h : Synced (X := X) k a b x s) {i : Nat} {w : Owed K V Client} (hw : s.owed[i]? = some w)
    (hkey : w.key = k) (y : V) : applyAll (pending X k t s.owed) y =
      applyAll (pending X k t (s.owed.eraseIdx i))
        (if t = X.target w.mirror then w.stmt y else y) := by
  have hperm := ((owing_eraseIdx_of_eq hw hkey).filter fun w => decide (X.target w.mirror = t)).map Owed.stmt
  have hcomm : ∀ f ∈ pending X k t s.owed, ∀ g ∈ pending X k t s.owed, Function.Commute f g := by
    intro f hf g hg
    obtain ⟨u, hu, rfl⟩ := mem_pending hf
    obtain ⟨v, hv, rfl⟩ := mem_pending hg
    exact h.commute u hu v hv
  refine (applyAll_perm hperm hcomm).trans ?_
  by_cases he : X.target w.mirror = t
  · simp [he, pending]
  · simp [he, Ne.symm he, pending]

theorem Synced.mirror (h : Synced (X := X) k a b x s) {i : Nat} {w : Owed K V Client} (hw : s.owed[i]? = some w) :
    Synced (X := X) k a b x { s.put (X.target w.mirror) w.key w.stmt with owed := s.owed.eraseIdx i } := by
  by_cases hkey : w.key = k
  · subst hkey
    refine ⟨fun u hu v hv => h.commute u (owing_eraseIdx_subset hu) v (owing_eraseIdx_subset hv),
      fun hok hne t ht => ?_, fun hok he => ?_⟩
    · have hbefore := h.apart hok hne t ht
      rw [applyAll_pending h hw rfl] at hbefore
      simpa [Written.put] using hbefore
    · obtain ⟨hcell, hfixed⟩ := h.same hok he
      have hsame : (s.put (X.target w.mirror) w.key w.stmt).rows a w.key = s.rows a w.key := by
        rw [rows_put]
        split
        · exact hfixed w (mem_owing.2 ⟨List.mem_of_getElem? hw, rfl⟩)
        · rfl
      exact ⟨hsame.trans hcell, fun u hu => hsame.symm ▸ hfixed u (owing_eraseIdx_subset hu)⟩
  · exact h.other (fun t => by simp [Written.put, Ne.symm hkey]) rfl rfl (owing_eraseIdx_of_ne hw hkey)

/-- A statement that took effect although its mirror reported a failure is owed still. -/
theorem Synced.twice (h : Synced (X := X) k a b x s) {i : Nat} {w : Owed K V Client} (hw : s.owed[i]? = some w)
    (hidem : ∀ y, w.stmt (w.stmt y) = w.stmt y) :
    Synced (X := X) k a b x (s.put (X.target w.mirror) w.key w.stmt) := by
  by_cases hkey : w.key = k
  · subst hkey
    refine ⟨h.commute, fun hok hne t ht => ?_, fun hok he => ?_⟩
    · have hbefore := h.apart hok hne t ht
      have hafter := applyAll_pending (t := t) h hw rfl ((s.put (X.target w.mirror) w.key w.stmt).rows t w.key)
      rw [applyAll_pending h hw rfl] at hbefore
      refine hafter.trans ((congrArg _ ?_).trans hbefore)
      by_cases he : t = X.target w.mirror <;> simp [Written.put, he, hidem]
    · obtain ⟨hcell, hfixed⟩ := h.same hok he
      have hsame : (s.put (X.target w.mirror) w.key w.stmt).rows a w.key = s.rows a w.key := by
        rw [rows_put]
        split
        · exact hfixed w (mem_owing.2 ⟨List.mem_of_getElem? hw, rfl⟩)
        · rfl
      exact ⟨hsame.trans hcell, fun u hu => hsame.symm ▸ hfixed u hu⟩
  · exact h.other (fun t => by simp [Written.put, Ne.symm hkey]) rfl rfl rfl

/-- A key that is on one side only is no longer followed. -/
theorem Synced.fail (h : Synced (X := X) k a b x s) (key : K) (hrows : ∀ t, key ≠ k → s'.rows t k = s.rows t k)
    (hlog : s'.log = s.log) (hfailed : s'.failed = (s.fail key).failed) (hsub : ∀ w ∈ owing k s'.owed, w ∈ owing k s.owed)
    (howing : key ≠ k → owing k s'.owed = owing k s.owed) : Synced (X := X) k a b x s' := by
  by_cases hkey : key = k
  · have htrue : s'.failed k = true := by simp [hfailed, Written.fail, hkey]
    refine ⟨fun u hu v hv => h.commute u (hsub u hu) v (hsub v hv), fun hok => ?_, fun hok => ?_⟩ <;>
      exact absurd (htrue.symm.trans hok) nofun
  · exact h.other (fun t => hrows t hkey) (hlog ▸ rfl) (by simp [hfailed, Written.fail, Ne.symm hkey]) (howing hkey)

theorem Synced.committed {cutover : Bool} {identity : IdentityPolicy} {c : DualWriteClient Client} {mirror ca cb : Client}
    (ha : X.client false k = some ca) (hb : X.client true k = some cb)
    (h : Synced (X := X) k (X.target ca) (X.target cb) x s) {reply : Reply}
    (hsound : Sound X s (.write cutover identity key stmt reply))
    (hprimary : X.client cutover key = some c.primary) (hmirror : X.client (!cutover) key = some mirror)
    (hcase : c.mirror = none ∧ (c.primary = mirror ∨ identity = .primaryOnly) ∨
      c.mirror = some mirror ∧ identity = .writeBoth)
    (hstep : (match c.mirror with
      | none => some ((s.put (X.target c.primary) key stmt).commit key stmt)
      | some mirror => some { (s.put (X.target c.primary) key stmt).commit key stmt with
          owed := s.owed ++ [⟨key, stmt, mirror⟩] }) = some s') :
    Synced (X := X) k (X.target ca) (X.target cb) x s' := by
  by_cases hkey : key = k
  · subst hkey
    have hsides : X.target c.primary = X.target ca ∧ X.target mirror = X.target cb ∨
        X.target c.primary = X.target cb ∧ X.target mirror = X.target ca := by
      cases cutover with
      | false =>
        rw [ha] at hprimary
        rw [Bool.not_false, hb] at hmirror
        cases hprimary
        cases hmirror
        exact .inl ⟨rfl, rfl⟩
      | true =>
        rw [hb] at hprimary
        rw [Bool.not_true, ha] at hmirror
        cases hprimary
        cases hmirror
        exact .inr ⟨rfl, rfl⟩
    have hone : X.target c.primary = X.target mirror ↔ X.target ca = X.target cb := by
      rcases hsides with ⟨hp, hm⟩ | ⟨hp, hm⟩
      · rw [hp, hm]
      · rw [hp, hm, eq_comm]
    have hcomm : ∀ w ∈ owing key s.owed, Function.Commute stmt w.stmt :=
      fun w hw => hsound.1 w (mem_owing.1 hw).1 (mem_owing.1 hw).2
    obtain ⟨honly, hboth⟩ := hsound.2 ca cb ha hb
    rcases hcase with ⟨hnone, hsame⟩ | ⟨hsome, hid⟩
    · simp only [hnone, Option.some.injEq] at hstep
      subst hstep
      have hpm : X.target c.primary = X.target mirror := by
        rcases hsame with hclient | hid
        · rw [hclient]
        · exact hone.2 (honly hid)
      exact h.write hsides hcomm (.inl ⟨rfl, hpm⟩) (fun t => by simp [Written.put, Written.commit])
        (by simp [Written.commit, Written.put]) rfl (by simp [Written.commit, Written.put])
    · simp only [hsome, Option.some.injEq] at hstep
      subst hstep
      exact h.write hsides hcomm (.inr ⟨mirror, rfl, rfl, fun he => hboth hid (hone.1 he)⟩)
        (fun t => by simp [Written.put, Written.commit]) (by simp [Written.commit, Written.put]) rfl (by simp [owing])
  · have hrows : ∀ t, (s.put (X.target c.primary) key stmt).rows t k = s.rows t k := by
      intro t
      simp [Written.put, Ne.symm hkey]
    have hlog : ((s.put (X.target c.primary) key stmt).commit key stmt).log k = s.log k := by
      simp [Written.commit, Written.put, Ne.symm hkey]
    split at hstep
    · cases hstep
      exact h.other hrows hlog rfl rfl
    · cases hstep
      exact h.other hrows hlog rfl (by simp [owing, hkey])

end Rows

variable [DecidableEq K] [DecidableEq Client] [DecidableEq Target]

theorem Synced.step {act : Dual K V} {ca cb : Client} (ha : X.client false k = some ca) (hb : X.client true k = some cb)
    (h : Synced (X := X) k (X.target ca) (X.target cb) x s) (hsound : Sound X s act) (hstep : dualStep X s act = some s') :
    Synced (X := X) k (X.target ca) (X.target cb) x s' := by
  cases act with
  | write cutover identity key stmt reply =>
    simp only [dualStep] at hstep
    split at hstep
    · cases hstep
    · cases hstep
      exact h
    · next c hc =>
      obtain ⟨hprimary, mirror, hmirror, hcase⟩ := dual_ok hc
      cases reply with
      | failed applied =>
        cases applied with
        | false =>
          cases hstep
          exact h
        | true =>
          cases hstep
          exact h.fail key (fun t hne => by simp [Written.put, Written.fail, Ne.symm hne]) rfl rfl (fun w hw => hw)
            fun _ => rfl
      | ok => exact h.committed ha hb hsound hprimary hmirror hcase hstep
  | mirror i reply =>
    simp only [dualStep] at hstep
    split at hstep
    · cases hstep
    · next w hw =>
      cases reply with
      | ok =>
        cases hstep
        exact h.mirror hw
      | failed applied =>
        cases applied with
        | false =>
          cases hstep
          exact h
        | true =>
          cases hstep
          exact h.twice hw (hsound w hw)
  | drop i =>
    simp only [dualStep] at hstep
    split at hstep
    · cases hstep
    · next w hw =>
      cases hstep
      exact h.fail w.key (fun _ _ => rfl) rfl rfl (fun u hu => owing_eraseIdx_subset hu)
        fun hne => owing_eraseIdx_of_ne hw hne

/-- Through any number of cutovers and rollbacks, a key that both topologies held alike and of which no
write is owed stands in both as the primaries' writes made it, unless one of its writes was given up or
took effect in a primary that reported a failure. -/
theorem dual_writes_agree {acts : List (Dual K V)} {s₀ : Written K V Client Target} {ca cb : Client}
    (ha : X.client false k = some ca) (hb : X.client true k = some cb)
    (hrows : s₀.rows (X.target ca) k = x ∧ s₀.rows (X.target cb) k = x) (howed : s₀.owed = []) (hlog : s₀.log k = [])
    (hmeets : Meets (dualStep X) (Sound X) s₀ acts) (hrun : runFrom (dualStep X) s₀ acts = some s)
    (hok : s.failed k = false) (hquiet : ∀ w ∈ s.owed, w.key ≠ k) :
    s.rows (X.target ca) k = applyAll (s.log k) x ∧ s.rows (X.target cb) k = applyAll (s.log k) x := by
  have hinit : Synced (X := X) k (X.target ca) (X.target cb) x s₀ := by
    refine ⟨by simp [howed, owing], fun _ _ t ht => ?_, fun _ _ => ⟨by rw [hlog]; exact hrows.1, by simp [howed, owing]⟩⟩
    rw [howed, hlog]
    rcases ht with rfl | rfl
    · exact hrows.1
    · exact hrows.2
  have hsynced : Synced (X := X) k (X.target ca) (X.target cb) x s :=
    run_invariant hinit (fun _ _ _ h hsound hstep => h.step ha hb hsound hstep) hmeets hrun
  have hnone : owing k s.owed = [] := by
    simpa [owing] using hquiet
  by_cases he : X.target ca = X.target cb
  · have hcell := (hsynced.same hok he).1
    exact ⟨hcell, he ▸ hcell⟩
  · have hcell := fun t ht => hsynced.apart hok he t ht
    simp only [pending, hnone, List.filter_nil, List.map_nil, applyAll_nil] at hcell
    exact ⟨hcell _ (.inl rfl), hcell _ (.inr rfl)⟩

/-- Order 70 moves from shard `s0` to shard `s1`. -/
def movedOrder : Topologies Unit Nat Nat :=
  ⟨⟨narrowOrders, servers⟩, ⟨halfOrders, servers⟩, fun _ => "orders", fun _ => .ofI64 70 (by decide), id⟩

def orderBefore : Written Unit Nat Nat Nat := ⟨fun _ _ => 0, [], fun _ => [], fun _ => false⟩

/-- A write whose mirror fails and is replayed, and one after the cutover. -/
def orderWrites : List (Dual Unit Nat) :=
  [.write false .writeBoth () (· + 1) .ok, .mirror 0 (.failed false), .mirror 0 .ok,
    .write true .writeBoth () (· * 2) .ok, .mirror 0 .ok]

theorem dual_writes_agree_order : ∃ s, runFrom (dualStep movedOrder) orderBefore orderWrites = some s ∧
    s.rows 0 () = applyAll [(· + 1), (· * 2)] 0 ∧ s.rows 1 () = applyAll [(· + 1), (· * 2)] 0 := by
  have ha : movedOrder.client false () = some 0 := by decide +kernel
  have hb : movedOrder.client true () = some 1 := by decide +kernel
  have hapart : ∀ a b, movedOrder.client false () = some a → movedOrder.client true () = some b →
      movedOrder.target a ≠ movedOrder.target b := by
    intro a b hca hcb
    cases ha.symm.trans hca
    cases hb.symm.trans hcb
    decide
  have hwrites : ∀ (cutover : Bool) (stmt : Nat → Nat) (s : Written Unit Nat Nat Nat), s.owed = [] →
      Sound movedOrder s (.write cutover .writeBoth () stmt .ok) := by
    intro cutover stmt s howed
    exact ⟨by simp [howed], fun a b hca hcb => ⟨nofun, fun _ he => absurd he (hapart a b hca hcb)⟩⟩
  have hmeets : Meets (dualStep movedOrder) (Sound movedOrder) orderBefore orderWrites :=
    ⟨hwrites _ _ _ rfl, trivial, trivial, hwrites _ _ _ rfl, trivial, trivial⟩
  exact ⟨_, rfl, dual_writes_agree ha hb ⟨rfl, rfl⟩ rfl rfl hmeets rfl rfl nofun⟩

end Ecat.Shard
