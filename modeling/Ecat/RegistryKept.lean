import Ecat.RegistryDirectory
import Ecat.Safety

/-! A lease that a task keeps alive does not expire, and neither does one that a registration is about to
use. So an instance stays in the directory while its task runs, unless an id above it is deregistered. -/

namespace Ecat.Registry

open CallTree

variable {C : Codec} {P : Type}

/-- All tasks keep leases that there are, and none of these has expired. -/
structure Held (w : World C P) : Prop where
  running : ∀ p, ∀ l ∈ w.running p, l ∈ w.etcd.leases
  granted : ∀ l ∈ w.etcd.leases, .granted l ∈ w.log
  expired : ∀ l, .expired l ∈ w.log → .granted l ∈ w.log ∧ l ∉ w.etcd.leases

theorem held_start : Held (start : World C P) :=
  ⟨fun _ _ h => (nomatch h), fun _ h => (nomatch h), fun _ h => (nomatch h)⟩

/-- What the caller of `o` relies on: the lease that it holds stays. -/
def Keeps (o : Option (Op C)) (w w' : World C P) : Prop :=
  ∀ l, (∃ op, o = some op ∧ op.holds l = true) → l ∈ w.etcd.leases → l ∈ w'.etcd.leases

def Grows (_ : Op C) (w w' : World C P) : Prop := ∀ l ∈ w.etcd.leases, l ∈ w'.etcd.leases

/-! ### Requests -/

theorem held_apply {w : World C P} (h : Held w) {q : Query C} {c : Choice} (hfresh : Fresh (.ask q) c w) :
    Held (w.apply q c) ∧ Grows (.ask q) w (w.apply q c) := by
  have hold : ∀ l ∈ w.etcd.leases, l ∈ (w.apply q c).etcd.leases := by
    intro l hl
    rw [World.apply, leases_serve]
    cases q <;> first | exact hl | exact List.mem_cons_of_mem _ hl
  refine ⟨⟨fun p l hl => hold l (h.running p l hl), ?_, ?_⟩, hold⟩
  · intro l hl
    rw [World.apply, leases_serve] at hl
    cases q with
    | grantLease ttl =>
      rcases List.mem_cons.1 hl with rfl | hl
      · simp [World.apply, Query.event]
      · exact List.mem_append_left _ (h.granted l hl)
    | _ => exact List.mem_append_left _ (h.granted l hl)
  · intro l hl
    have hpast : .expired l ∈ w.log := by
      rcases List.mem_append.1 hl with hl | hl
      · exact hl
      · cases q with
        | put i =>
          rw [Query.event] at hl
          split_ifs at hl <;> simp at hl
        | _ => simp [Query.event] at hl
    obtain ⟨hgranted, hgone⟩ := h.expired l hpast
    refine ⟨List.mem_append_left _ hgranted, ?_⟩
    rw [World.apply, leases_serve]
    cases q with
    | grantLease ttl =>
      intro hl
      rcases List.mem_cons.1 hl with rfl | hl
      · exact hfresh hgranted
      · exact hgone hl
    | _ => exact hgone

theorem held_send {w : World C P} (h : Held w) {q : Query C} {c : Choice} (hfresh : Fresh (.ask q) c w) :
    Held (w.send q c).2 ∧ Grows (.ask q) w (w.send q c).2 := by
  have hsame : Held w ∧ Grows (.ask q) w w := ⟨h, fun _ hl => hl⟩
  unfold World.send
  cases c.fate with
  | served => exact held_apply h hfresh
  | refused message => exact hsame
  | lost applied e => cases applied <;> [exact hsame; exact held_apply h hfresh]
  | garbled applied e => cases applied <;> [exact hsame; exact held_apply h hfresh]

/-- A lease that is read from the answer to its request has been granted. -/
theorem granted_of_read {w : World C P} {ttl : Nat} {c : Choice} {body : Json.Value} {lease : I64}
    (hreply : (w.send (.grantLease ttl) c).1 = .ok body)
    (hread : ((body.get "ID").bind Json.Value.asStr).bind parseI64 = some lease) :
    lease ∈ (w.send (.grantLease ttl) c).2.etcd.leases := by
  unfold World.send at hreply ⊢
  cases hfate : c.fate with
  | served =>
    simp only [hfate, Except.ok.injEq] at hreply
    rw [← hreply] at hread
    have hid : parseI64 (toString c.lease.val) = some lease := hread
    rw [parseI64_toString, Option.some.injEq] at hid
    simp only [World.apply, leases_serve, hid, List.mem_cons, true_or]
  | refused message =>
    simp only [hfate, Except.ok.injEq] at hreply
    rw [← hreply] at hread
    cases hread
  | lost applied e => simp [hfate] at hreply
  | garbled applied e => simp [hfate] at hreply

/-! ### Tasks -/

variable [DecidableEq P]

theorem held_spawn {w : World C P} (h : Held w) (p : P) (id : String) {lease : I64} (hlease : lease ∈ w.etcd.leases) :
    Held (w.spawn p id lease) := by
  refine ⟨fun q l hl => ?_, h.granted, h.expired⟩
  by_cases hq : q = p
  · subst hq
    simp only [World.spawn, Function.update_self] at hl
    rcases List.mem_cons.1 hl with rfl | hl
    · exact hlease
    · exact h.running q l hl
  · simp only [World.spawn, Function.update_of_ne hq] at hl
    exact h.running q l hl

theorem held_abort {w : World C P} (h : Held w) (p : P) (id : String) :
    Held (w.abort p id) ∧ Grows (.abortKeepalive id) w (w.abort p id) := by
  unfold World.abort
  cases w.keepalives p id with
  | none => exact ⟨h, fun _ hl => hl⟩
  | some lease =>
    refine ⟨⟨fun q l hl => ?_, h.granted, h.expired⟩, fun _ hl => hl⟩
    by_cases hq : q = p
    · subst hq
      simp only [Function.update_self] at hl
      exact h.running q l (List.mem_of_mem_erase hl)
    · simp only [Function.update_of_ne hq] at hl
      exact h.running q l hl

/-! ### Programs -/

abbrev duty (p : P) : Duty (Op C) Res (World C P) Choice := ⟨exec p, Fresh, Held, Keeps, Grows⟩

variable {p : P} {α : Type}

theorem triple_ask {q : Query C} {k : Except Fault Json.Value → CallTree (Op C) Res α} {Q : α → World C P → Prop}
    (hk : ∀ r, (duty p).Triple (fun _ => True) (k r) Q) : (duty p).Triple (fun _ => True) ((ask q).bind k) Q := by
  refine Duty.triple_call (fun _ _ => True) (fun _ _ _ _ _ => trivial) (fun w c hw _ hfresh => ?_) hk
  obtain ⟨hheld, hgrows⟩ := held_send hw hfresh
  exact ⟨hgrows, hheld, trivial⟩

theorem triple_return {a : α} : (duty p).Triple (fun _ : World C P => True) (pure a) fun _ _ => True :=
  Duty.triple_ret fun _ _ _ => trivial

/-- A lease that comes back from `createLease` is there. -/
theorem createLease_held (ttl : Nat) : (duty p).Triple (fun _ => True) (createLease (C := C) ttl)
    fun r w => ∀ lease, r = .ok lease → lease ∈ w.etcd.leases := by
  rw [createLease, bind_eq]
  refine Duty.triple_call (fun r w => ∀ body lease, r = .ok body →
    ((body.get "ID").bind Json.Value.asStr).bind parseI64 = some lease → lease ∈ w.etcd.leases)
    (fun _ _ _ _ _ => trivial) (fun w c hw _ hfresh => ?_) fun r => ?_
  · obtain ⟨hheld, hgrows⟩ := held_send (q := .grantLease ttl) (c := c) hw hfresh
    exact ⟨hgrows, hheld, fun body lease hreply hread => granted_of_read hreply hread⟩
  · intro w _ hr
    split
    · intro lease h
      cases h
    · intro lease h
      cases h
    · next body =>
      cases hread : ((body.get "ID").bind Json.Value.asStr).bind parseI64 with
      | none =>
        intro lease h
        cases h
      | some lease =>
        rintro lease' ⟨⟩
        exact hr body lease rfl hread

theorem register_held (keyPrefix : String) (ttl : Nat) (service : ServiceInfo) (uuid : String) :
    (duty p).Triple (fun _ => True) (register (C := C) keyPrefix ttl service uuid) fun _ _ => True := by
  rw [register, bind_eq]
  refine Duty.triple_bind (createLease_held ttl) fun r => ?_
  cases r with
  | error e => exact triple_return.weaken fun _ _ _ => trivial
  | ok lease =>
    simp only
    split
    · exact triple_return.weaken fun _ _ _ => trivial
    · next text htext =>
      refine Duty.triple_call (fun _ w => lease ∈ w.etcd.leases) ?_ ?_ fun r => ?_
      · intro w w' hw hrely _ lease' he
        cases he
        exact hrely lease ⟨_, rfl, by simp [Op.holds]⟩ (hw lease rfl)
      · intro w c hw hlease hfresh
        obtain ⟨hheld, hgrows⟩ := held_send (q := .put _) (c := c) hw hfresh
        exact ⟨hgrows, hheld, hgrows lease (hlease lease rfl)⟩
      · have hspawn : (duty p).Triple (fun w => lease ∈ w.etcd.leases)
            (spawnKeepalive (C := C) (keyPrefix ++ "/" ++ service.name) lease >>= fun _ =>
              pure (Except.ok (⟨keyPrefix ++ "/" ++ service.name, service⟩ : Registration)))
            fun (_ : Except RegistryError Registration) _ => True := by
          refine Duty.triple_call (fun _ _ => True) ?_ ?_ fun _ => triple_return
          · intro w w' hlease hrely _
            exact hrely lease ⟨_, rfl, by simp [Op.holds]⟩ hlease
          · intro w c hw hlease _
            exact ⟨fun _ hl => hl, held_spawn hw p _ hlease, trivial⟩
        rcases r with ⟨e | e⟩ | body
        · exact triple_return.weaken fun _ _ _ => trivial
        · exact hspawn
        · exact hspawn

theorem deregister_held (id : String) :
    (duty p).Triple (fun _ => True) (deregister (C := C) id) fun _ _ => True := by
  rw [deregister, bind_eq]
  refine Duty.triple_call (fun _ _ => True) (fun _ _ _ _ _ => trivial) ?_ fun _ => ?_
  · intro w c hw _ _
    exact ⟨(held_abort hw p id).2, (held_abort hw p id).1, trivial⟩
  · refine triple_ask fun r => ?_
    split <;> exact triple_return

theorem discover_held (keyPrefix name : String) :
    (duty p).Triple (fun _ => True) (discover (C := C) keyPrefix name) fun _ _ => True := by
  rw [discover, bind_eq]
  refine triple_ask fun r => ?_
  split <;> exact triple_return

theorem prog_held (settings : Settings) (cmd : Cmd) :
    (duty p).Triple (fun _ => True) (prog (C := C) settings cmd) fun _ _ => True := by
  cases cmd with
  | register service uuid => exact Duty.triple_bind (register_held _ _ service uuid) fun _ => triple_return
  | deregister id => exact Duty.triple_bind (deregister_held id) fun _ => triple_return
  | discover name => exact Duty.triple_bind (discover_held _ name) fun _ => triple_return
  | listServices =>
    exact Duty.triple_bind (Duty.triple_bind (discover_held _ "") fun _ => triple_return) fun _ => triple_return

/-! ### Runs -/

variable {T : Type} {proc : T → P} {settings : P → Settings}

theorem held_env {next : T → Option (Op C)} {w w' : World C P} (hstep : Env World.idle next w w') (h : Held w) :
    Held w' ∧ ∀ t, Keeps (next t) w w' := by
  cases hstep with
  | ends p =>
    refine ⟨⟨fun q l hl => ?_, h.granted, h.expired⟩, fun _ _ _ hl => hl⟩
    by_cases hq : q = p
    · subst hq
      simp only [Function.update_self] at hl
      cases hl
    · simp only [Function.update_of_ne hq] at hl
      exact h.running q l hl
  | expires lease held ok =>
    have hother : ∀ l ∈ w.etcd.leases, l ≠ lease → l ∈ (w.etcd.expire lease).leases :=
      fun l hl hne => List.mem_filter.2 ⟨hl, by simpa using hne⟩
    refine ⟨⟨?_, ?_, ?_⟩, ?_⟩
    · intro p l hl
      exact hother l (h.running p l hl) fun he => ok.1 p (he ▸ hl)
    · intro l hl
      exact List.mem_append_left _ (h.granted l (List.mem_of_mem_filter hl))
    · intro l hl
      rcases List.mem_append.1 hl with hl | hl
      · obtain ⟨hgranted, hgone⟩ := h.expired l hl
        exact ⟨List.mem_append_left _ hgranted, fun hl => hgone (List.mem_of_mem_filter hl)⟩
      · obtain rfl : l = lease := by simpa using hl
        refine ⟨List.mem_append_left _ (h.granted l held), fun hl => ?_⟩
        simpa using (List.mem_filter.1 hl).2
    · rintro t l ⟨o, ho, hholds⟩ hl
      refine hother l hl fun he => ?_
      rw [← he] at ok
      exact absurd hholds (by simp [ok.2 t o ho])

variable [DecidableEq T]

def keptCertificate (proc : T → P) (settings : P → Settings) :
    (host (C := C) proc settings World.idle).Certificate fun _ => Fresh where
  inv := Held
  rely _ := Keeps
  guar _ := Grows
  post _ _ _ := True
  compat _ _ := True
  rely_refl _ _ _ _ _ hl := hl
  rely_trans _ _ _ _ _ hab hbc l hholds hl := hbc l hholds (hab l hholds hl)
  post_stable _ _ _ _ _ _ _ := trivial
  start s t cmd hs _ := prog_held (settings (proc t)) cmd s.world hs trivial
  apart _ _ _ _ _ _ _ _ := ⟨trivial, trivial⟩
  peer _ _ _ _ _ _ _ _ _ hgrows _ l _ hl := hgrows l hl
  crash _ h := ⟨fun _ _ hl => (nomatch hl), h.granted, h.expired⟩
  env _ _ _ hstep h := held_env hstep h

/-- Where leases expire only when no task keeps them and no registration is about to use them, an instance
that was put is found as long as the task of its lease runs, by every registry with its prefix, unless
somebody deregisters an id above it or puts another instance in its place. -/
theorem kept_instance_found (hread : C.ReadsBack) {s : Sys T (Op C) Res Answer (World C P)}
    (h : (host proc settings World.idle).Reach (fun _ => Fresh) ⟨start, fun _ => none⟩ s)
    {before after : List (Event C)} {i : Instance C} (hput : s.world.log = before ++ .put i :: after)
    {p : P} (hruns : i.lease ∈ s.world.running p) (hid : ∀ id, .removed id ∈ after → ¬ Under id i)
    (hplace : ∀ j, .put j ∈ after → j.path ≠ i.path) {t : T} (ht : (settings (proc t)).keyPrefix = i.keyPrefix) (l : I64) :
    ∃ services, s.world.answer (proc t) (settings (proc t)) (.discover i.service.name) l = .discovered (.ok services) ∧
      i.service ∈ services := by
  have hheld : Held s.world := ((keptCertificate proc settings).good_of_reach held_start h).inv
  have hmem : i ∈ directory s.world.log := by
    rw [hput]
    refine mem_directory_of_kept fun e he => ?_
    cases e with
    | granted _ => exact id
    | put j => exact hplace j he
    | removed id => exact hid id he
    | expired lease =>
      rintro rfl
      refine (hheld.expired i.lease ?_).2 (hheld.running p i.lease hruns)
      rw [hput]
      exact List.mem_append_right _ (List.mem_cons_of_mem _ he)
  obtain ⟨services, hanswer, hperm⟩ :=
    discover_directory hread (mirrors_reach h) (proc t) (settings (proc t)) i.service.name l
  refine ⟨services, hanswer, hperm.mem_iff.2 (List.mem_map.2 ⟨i, List.mem_filter.2 ⟨hmem, ?_⟩, rfl⟩)⟩
  have hunder : Under (i.keyPrefix ++ "/" ++ i.service.name) i :=
    ⟨i.uuid.toList, by simp [Instance.path]⟩
  simpa [ht] using hunder

/-- The instance of one registry is found by the other one. -/
theorem kept_instance_found_orders : ∃ s, (host (C := ordersCodec) (P := Bool) id ecat World.idle).Reach (fun _ => Fresh)
      ⟨start, fun _ => none⟩ s ∧
    ∃ services, s.world.answer false (ecat false) (.discover "orders") seven = .discovered (.ok services) ∧
      orders ∈ services := by
  obtain ⟨s, hreach, hworld⟩ := orders_registered World.idle
  have hlog : s.world.log = [.granted seven] ++ .put (ordersInstance "u1" seven) :: [] := by
    rw [hworld, registered_log]
    rfl
  have hruns : seven ∈ s.world.running true := by
    rw [hworld]
    simp [World.registered, World.spawn, ordersInstance]
  exact ⟨s, hreach, kept_instance_found ordersCodec_readsBack hreach hlog hruns (fun _ h => by cases h)
    (fun _ h => by cases h) (t := false) rfl seven⟩

end Ecat.Registry
