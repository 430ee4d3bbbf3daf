import Ecat.RegistryDirectory

/-! The services that a registry lists. It asks for those below the empty name, and a key is only there
if a slash follows its prefix twice. -/

namespace Ecat.Registry

open CallTree

variable {C : Codec} {P T : Type}

/-! ### The prefix of what is put -/

/-- A put is of an instance with the prefix. -/
def Op.Under (keyPrefix : String) : Op C → Prop
  | .ask (.put i) => i.keyPrefix = keyPrefix
  | _ => True

theorem calls_ask {q : Query C} {α : Type} {Q : Op C → Prop} {k : Except Fault Json.Value → CallTree (Op C) Res α}
    (hq : Q (.ask q)) (hk : ∀ r, (k r).Calls Q) : ((ask q).bind k).Calls Q := ⟨hq, hk⟩

theorem calls_createLease (keyPrefix : String) (ttl : Nat) : (createLease (C := C) ttl).Calls (Op.Under keyPrefix) := by
  rw [createLease, bind_eq]
  refine calls_ask trivial fun r => ?_
  split
  · trivial
  · trivial
  · split <;> trivial

theorem calls_register (keyPrefix : String) (ttl : Nat) (service : ServiceInfo) (uuid : String) :
    (register (C := C) keyPrefix ttl service uuid).Calls (Op.Under keyPrefix) := by
  rw [register, bind_eq]
  refine calls_bind (calls_createLease keyPrefix ttl) fun r => ?_
  split
  · trivial
  · split
    · trivial
    · rw [bind_eq]
      refine calls_ask rfl fun r => ?_
      split
      · trivial
      · exact ⟨trivial, fun _ => trivial⟩

theorem calls_discover (keyPrefix name : String) {Q : Op C → Prop} (hQ : Q (.ask (.range (keyPrefix ++ "/" ++ name)))) :
    (discover (C := C) keyPrefix name).Calls Q := by
  rw [discover, bind_eq]
  refine calls_ask hQ fun r => ?_
  split <;> trivial

theorem calls_prog (settings : Settings) (cmd : Cmd) : (prog (C := C) settings cmd).Calls (Op.Under settings.keyPrefix) := by
  cases cmd with
  | register service uuid => exact calls_bind (calls_register _ _ service uuid) fun _ => trivial
  | deregister id =>
    refine calls_bind ⟨trivial, fun _ => calls_ask trivial fun r => ?_⟩ fun _ => trivial
    split <;> trivial
  | discover name => exact calls_bind (calls_discover _ name trivial) fun _ => trivial
  | listServices => exact calls_bind (calls_bind (calls_discover _ "" trivial) fun _ => trivial) fun _ => trivial

/-- All that was put has the prefix. -/
def PutUnder (keyPrefix : String) (w : World C P) : Prop := ∀ i, .put i ∈ w.log → i.keyPrefix = keyPrefix

theorem putUnder_start (keyPrefix : String) : PutUnder keyPrefix (start : World C P) := by
  intro i hi
  cases hi

theorem putUnder_snoc {keyPrefix : String} {w : World C P} (h : PutUnder keyPrefix w) (etcd : Etcd) {events : List (Event C)}
    (hevents : ∀ i, .put i ∈ events → i.keyPrefix = keyPrefix) :
    PutUnder keyPrefix { w with etcd, log := w.log ++ events } := by
  intro i hi
  rcases List.mem_append.1 hi with hi | hi
  · exact h i hi
  · exact hevents i hi

theorem putUnder_apply {keyPrefix : String} {w : World C P} (h : PutUnder keyPrefix w) {q : Query C}
    (hq : Op.Under keyPrefix (.ask q)) (c : Choice) : PutUnder keyPrefix (w.apply q c) := by
  refine putUnder_snoc h _ fun i hi => ?_
  cases q with
  | put j =>
    rw [Query.event] at hi
    split_ifs at hi with hlease
    · obtain rfl : i = j := by simpa using hi
      exact hq
    · cases hi
  | grantLease ttl => simp [Query.event] at hi
  | deleteRange id => simp [Query.event] at hi
  | range path => cases hi

theorem putUnder_send {keyPrefix : String} {w : World C P} (h : PutUnder keyPrefix w) {q : Query C}
    (hq : Op.Under keyPrefix (.ask q)) (c : Choice) : PutUnder keyPrefix (w.send q c).2 := by
  unfold World.send
  cases c.fate with
  | served => exact putUnder_apply h hq c
  | refused message => exact h
  | lost applied e => cases applied <;> [exact h; exact putUnder_apply h hq c]
  | garbled applied e => cases applied <;> [exact h; exact putUnder_apply h hq c]

variable [DecidableEq P]

theorem putUnder_exec {keyPrefix : String} {w : World C P} (h : PutUnder keyPrefix w) {o : Op C}
    (ho : o.Under keyPrefix) (p : P) (c : Choice) : PutUnder keyPrefix (exec p o c w).2 := by
  cases o with
  | ask q => exact putUnder_send h ho c
  | spawnKeepalive id lease => exact h
  | abortKeepalive id =>
    simp only [exec, World.abort]
    cases w.keepalives p id <;> exact h

theorem putUnder_env {keyPrefix : String} {may : World C P → (T → Option (Op C)) → I64 → Prop}
    {next : T → Option (Op C)} {w w' : World C P} (hstep : Env may next w w') (h : PutUnder keyPrefix w) :
    PutUnder keyPrefix w' := by
  cases hstep with
  | ends p => exact h
  | expires lease held ok => exact putUnder_snoc h _ fun i hi => by simp at hi

variable [DecidableEq T] {proc : T → P} {settings : P → Settings}
  {may : World C P → (T → Option (Op C)) → I64 → Prop} {keyPrefix : String}

theorem putUnder_reach (hsame : ∀ p, (settings p).keyPrefix = keyPrefix)
    {allowed : T → Op C → Choice → World C P → Prop} {s : Sys T (Op C) Res Answer (World C P)}
    (h : (host proc settings may).Reach allowed ⟨start, fun _ => none⟩ s) : PutUnder keyPrefix s.world :=
  h.calls_inv (P := fun _ => Op.Under keyPrefix) (I := PutUnder keyPrefix) (fun t cmd => hsame (proc t) ▸ calls_prog (settings (proc t)) cmd)
    (fun t _ c _ ho _ hw => putUnder_exec hw ho (proc t) c) (fun _ hw => hw)
    (fun _ _ _ hstep hw => putUnder_env hstep hw) (putUnder_start keyPrefix)

/-- Where no slash stands in the names, a discovery finds the instances of that name. -/
theorem discover_of_name (hread : C.ReadsBack) (hsame : ∀ p, (settings p).keyPrefix = keyPrefix)
    {allowed : T → Op C → Choice → World C P → Prop} {s : Sys T (Op C) Res Answer (World C P)}
    (h : (host proc settings may).Reach allowed ⟨start, fun _ => none⟩ s) (t : T) {name : String}
    (hname : '/' ∉ name.toList) (hnames : ∀ i ∈ directory s.world.log, '/' ∉ i.service.name.toList) (l : I64) :
    ∃ services, s.world.answer (proc t) (settings (proc t)) (.discover name) l = .discovered (.ok services) ∧
      services.Perm (((directory s.world.log).filter fun i => i.service.name = name).map Instance.service) := by
  obtain ⟨services, hanswer, hperm⟩ := discover_directory hread (mirrors_reach h) (proc t) (settings (proc t)) name l
  refine ⟨services, hanswer, hperm.trans (.of_eq (congrArg _ (List.filter_congr fun i hi => ?_)))⟩
  have hkey := putUnder_reach hsame h i (mem_directory_put hi)
  rw [hsame, decide_eq_decide]
  exact under_iff_name hkey hname (hnames i hi)

/-! ### The names -/

theorem mem_sortDedup {names : List String} {name : String} : name ∈ sortDedup names ↔ name ∈ names := by
  have hsorted : (names.mergeSort fun a b => a ≤ b).Pairwise (· ≤ ·) := List.pairwise_mergeSort' _ _
  rw [sortDedup, hsorted.destutter_eq_dedup, List.mem_dedup, List.mem_mergeSort]

theorem sortDedup_sorted (names : List String) : (sortDedup names).Pairwise (· < ·) := by
  have hsorted : (names.mergeSort fun a b => a ≤ b).Pairwise (· ≤ ·) := List.pairwise_mergeSort' _ _
  have hle := hsorted.sublist (List.dedup_sublist _)
  rw [sortDedup, hsorted.destutter_eq_dedup]
  exact hle.imp₂ (fun _ _ hle hne => lt_of_le_of_ne hle hne) (List.nodup_dedup _)

/-- Below the empty name are the services whose names are empty or start with a slash. -/
theorem under_empty_iff {i : Instance C} (hkey : i.keyPrefix = keyPrefix) :
    Under (keyPrefix ++ "/" ++ "") i ↔ i.service.name = "" ∨ i.service.name.toList.head? = some '/' := by
  have hslash : "/".toList = ['/'] := rfl
  rw [Under, Instance.path, hkey, String.append_empty]
  simp only [String.toList_append, hslash, List.append_assoc, List.cons_append, List.prefix_append_right_inj,
    List.cons_prefix_cons, true_and, List.nil_append]
  cases hname : i.service.name.toList with
  | nil => simp [String.toList_eq_nil_iff.1 hname]
  | cons c cs =>
    have hne : i.service.name ≠ "" := by
      intro he
      rw [he] at hname
      cases hname
    simp [hne, eq_comm]

theorem listServices_served (p : P) (keyPrefix : String) (l : I64) (w : World C P) :
    (listServices keyPrefix).complete (exec p) (fun _ => ⟨.served, l⟩) w =
      (((discover keyPrefix "").complete (exec p) (fun _ => ⟨.served, l⟩) w).1.map fun services =>
        sortDedup (services.map ServiceInfo.name), w) := by
  rw [listServices, bind_eq, complete_bind, discover_served]
  rfl

/-- The registries of one prefix list, in order and once, the names of the instances in the directory
that are empty or start with a slash: no other service is ever listed. -/
theorem list_services_slashed (hread : C.ReadsBack) (hsame : ∀ p, (settings p).keyPrefix = keyPrefix)
    {s : Sys T (Op C) Res Answer (World C P)}
    (h : (host proc settings may).Reach Host.Free ⟨start, fun _ => none⟩ s) (t : T) (l : I64) :
    ∃ names, s.world.answer (proc t) (settings (proc t)) .listServices l = .listed (.ok names) ∧
      names.Pairwise (· < ·) ∧ ∀ name, name ∈ names ↔
        (name = "" ∨ name.toList.head? = some '/') ∧ ∃ i ∈ directory s.world.log, i.service.name = name := by
  have hput := putUnder_reach hsame h
  have hserved := discover_served (C := C) (proc t) keyPrefix "" l s.world
  have hperm := readServices_ascending hread (mirrors_reach h) (keyPrefix ++ "/" ++ "")
  generalize readServices C _ = services at hserved hperm
  refine ⟨sortDedup (services.map ServiceInfo.name), ?_, sortDedup_sorted _, ?_⟩
  · have hlisted := listServices_served (C := C) (proc t) keyPrefix l s.world
    rw [hserved] at hlisted
    rw [World.answer, prog, hsame]
    exact congrArg (fun r => Answer.listed r.1) hlisted
  · intro name
    rw [mem_sortDedup, (hperm.map ServiceInfo.name).mem_iff]
    simp only [List.map_map, List.mem_map, List.mem_filter, decide_eq_true_eq, Function.comp_apply]
    constructor
    · rintro ⟨i, ⟨hi, hunder⟩, rfl⟩
      exact ⟨(under_empty_iff (hput i (mem_directory_put hi))).1 hunder, i, hi, rfl⟩
    · rintro ⟨hslash, i, hi, rfl⟩
      exact ⟨i, ⟨hi, (under_empty_iff (hput i (mem_directory_put hi))).2 hslash⟩, rfl⟩

/-- A registry that has an ordinary service registered lists none. -/
theorem list_services_slashed_orders : ∃ s, (host (C := ordersCodec) (P := Bool) id ecat fun _ _ _ => True).Reach Host.Free
      ⟨start, fun _ => none⟩ s ∧ s.world.log = [.granted seven, .put (ordersInstance "u1" seven)] ∧
    ∃ names, s.world.answer false (ecat false) .listServices seven = .listed (.ok names) ∧ names.Pairwise (· < ·) ∧
      ∀ name, name ∈ names ↔ (name = "" ∨ name.toList.head? = some '/') ∧
        ∃ i ∈ directory s.world.log, i.service.name = name := by
  obtain ⟨s, hreach, hworld⟩ := orders_registered fun _ _ _ => True
  have hfree := hreach.mono (B := Host.Free) fun _ _ _ _ _ => trivial
  refine ⟨s, hfree, by rw [hworld, registered_log]; rfl, ?_⟩
  exact list_services_slashed ordersCodec_readsBack (fun _ => rfl) hfree false seven

end Ecat.Registry
