import Ecat.CallTrace
import Ecat.RegistryKeys

/-! What the server has is a directory of the instances that were put and neither removed nor expired
since. A discovery is answered with those below its path. -/

namespace Ecat.Registry

open Json CallTree

variable {C : Codec}

/-! ### The directory -/

def enter (d : List (Instance C)) : Event C → List (Instance C)
  | .granted _ => d
  | .put i => i :: d.filter fun j => j.path ≠ i.path
  | .removed id => d.filter fun j => ¬ Under id j
  | .expired lease => d.filter fun j => j.lease ≠ lease

/-- The instances that are there after what happened at the server. -/
def directory (log : List (Event C)) : List (Instance C) := log.foldl enter []

/-- What takes the instance out of the directory. -/
def Event.clears (i : Instance C) : Event C → Prop
  | .granted _ => False
  | .put j => j.path = i.path
  | .removed id => Under id i
  | .expired lease => i.lease = lease

theorem directory_snoc (log : List (Event C)) (e : Event C) : directory (log ++ [e]) = enter (directory log) e := by
  rw [directory, List.foldl_append]
  rfl

theorem mem_enter {d : List (Instance C)} {e : Event C} {i : Instance C} (h : i ∈ enter d e) : i ∈ d ∨ e = .put i := by
  cases e with
  | granted _ => exact .inl h
  | put j =>
    rcases List.mem_cons.1 h with rfl | h
    · exact .inr rfl
    · exact .inl (List.mem_of_mem_filter h)
  | removed id => exact .inl (List.mem_of_mem_filter h)
  | expired lease => exact .inl (List.mem_of_mem_filter h)

theorem mem_enter_of_not_clears {d : List (Instance C)} {e : Event C} {i : Instance C} (h : i ∈ d)
    (hkeep : ¬ e.clears i) : i ∈ enter d e := by
  cases e with
  | granted _ => exact h
  | put j => exact List.mem_cons_of_mem _ (List.mem_filter.2 ⟨h, by simpa using fun he => hkeep he.symm⟩)
  | removed id => exact List.mem_filter.2 ⟨h, by simpa using (show ¬ Under id i from hkeep)⟩
  | expired lease => exact List.mem_filter.2 ⟨h, by simpa using (show ¬ i.lease = lease from hkeep)⟩

theorem mem_directory_put {log : List (Event C)} {i : Instance C} (h : i ∈ directory log) : .put i ∈ log := by
  induction log using List.reverseRecOn with
  | nil => cases h
  | append_singleton log e ih =>
    rw [directory_snoc] at h
    rcases mem_enter h with h | rfl
    · exact List.mem_append_left _ (ih h)
    · simp

theorem mem_directory_of_kept {before after : List (Event C)} {i : Instance C} (hkeep : ∀ e ∈ after, ¬ e.clears i) :
    i ∈ directory (before ++ .put i :: after) := by
  induction after using List.reverseRecOn with
  | nil =>
    rw [directory_snoc]
    exact List.mem_cons_self
  | append_singleton after e ih =>
    rw [← List.cons_append, ← List.append_assoc, directory_snoc]
    exact mem_enter_of_not_clears (ih fun e he => hkeep e (by simp [he])) (hkeep e (by simp))

/-! ### The server has the directory -/

def Instance.kv (i : Instance C) : KeyValue := ⟨utf8 i.key, utf8 i.text, i.lease⟩

theorem serve_put (e : Etcd) (l : I64) (i : Instance C) :
    (e.serve l (Query.put i).request).2 = if i.lease ∈ e.leases then e.put i.kv else e := by
  simp only [Query.request, Etcd.serve, decode_b64, parseI64_toString]
  split_ifs <;> rfl

theorem serve_deleteRange (e : Etcd) (l : I64) (id : String) :
    e.serve l (Query.deleteRange (C := C) id).request = (.object [], { e with
      kvs := e.kvs.filter fun x => ¬ InRange (utf8 (below id)) (utf8 (prefixEnd (below id))) x.key }) := by
  simp only [Query.request, Etcd.serve, decode_b64]

theorem serve_range (e : Etcd) (l : I64) (path : String) :
    e.serve l (Query.range (C := C) path).request =
      (rangeBody (e.ascending (utf8 (below path)) (utf8 (prefixEnd (below path)))), e) := by
  simp only [Query.request, Etcd.serve, decode_b64]

theorem leases_serve (e : Etcd) (l : I64) (q : Query C) :
    (e.serve l q.request).2.leases = match q with
      | .grantLease _ => l :: e.leases
      | _ => e.leases := by
  cases q with
  | grantLease ttl => rfl
  | put i =>
    rw [serve_put]
    split_ifs <;> rfl
  | deleteRange id => rw [serve_deleteRange]
  | range path => rw [serve_range]

variable {P T : Type}

def Mirrors (w : World C P) : Prop := w.etcd.kvs = (directory w.log).map Instance.kv

theorem mirrors_start : Mirrors (start : World C P) := rfl

theorem filter_kv (d : List (Instance C)) {keep : KeyValue → Bool} {kept : Instance C → Bool}
    (h : ∀ i ∈ d, keep i.kv = kept i) : (d.map Instance.kv).filter keep = (d.filter kept).map Instance.kv := by
  rw [List.filter_map]
  congr 1
  exact List.filter_congr h

theorem mirrors_apply {w : World C P} (h : Mirrors w) (q : Query C) (c : Choice) : Mirrors (w.apply q c) := by
  unfold Mirrors at h ⊢
  cases q with
  | grantLease ttl =>
    simp only [World.apply, Query.event, directory_snoc, enter]
    exact h
  | put i =>
    simp only [World.apply, Query.event, serve_put]
    split_ifs with hlease
    · have hothers : w.etcd.kvs.filter (fun x => x.key ≠ i.kv.key) =
          ((directory w.log).filter fun j => j.path ≠ i.path).map Instance.kv := by
        rw [h]
        exact filter_kv _ fun j _ => by simp [Instance.kv, key_inj]
      rw [directory_snoc, enter, List.map_cons, Etcd.put, hothers]
    · simpa using h
  | deleteRange id =>
    simp only [World.apply, Query.event, serve_deleteRange, directory_snoc, enter, h]
    exact filter_kv _ fun j _ => by simp [Instance.kv, inRange_below]
  | range path => simpa [World.apply, Query.event, serve_range] using h

theorem mirrors_send {w : World C P} (h : Mirrors w) (q : Query C) (c : Choice) : Mirrors (w.send q c).2 := by
  unfold World.send
  cases c.fate with
  | served => exact mirrors_apply h q c
  | refused message => exact h
  | lost applied e => cases applied <;> [exact h; exact mirrors_apply h q c]
  | garbled applied e => cases applied <;> [exact h; exact mirrors_apply h q c]

/-! ### Discoveries -/

theorem readService_kv (hread : C.ReadsBack) (i : Instance C) : readService C (kvBody i.kv) = some i.service := by
  have hvalue : ((kvBody i.kv).get "value").bind Value.asStr = some (b64Bytes (utf8 i.text)) := rfl
  rw [readService, hvalue, Option.bind_some, decodeB64Str_utf8, Option.bind_some]
  exact hread _ _ i.written

theorem readServices_rangeBody (kvs : List KeyValue) :
    readServices C (rangeBody kvs) = kvs.filterMap fun kv => readService C (kvBody kv) := by
  by_cases hnil : kvs = []
  · rw [hnil]
    rfl
  · simp [readServices, rangeBody, hnil, Value.get, Value.asArray, List.filterMap_map]

theorem readServices_ascending (hread : C.ReadsBack) {w : World C P} (h : Mirrors w) (path : String) :
    (readServices C (rangeBody (w.etcd.ascending (utf8 (below path)) (utf8 (prefixEnd (below path)))))).Perm
      (((directory w.log).filter fun i => Under path i).map Instance.service) := by
  have hfilter : w.etcd.kvs.filter (fun x => InRange (utf8 (below path)) (utf8 (prefixEnd (below path))) x.key) =
      ((directory w.log).filter fun i => Under path i).map Instance.kv := by
    rw [h]
    exact filter_kv _ fun i _ => by simp [Instance.kv, inRange_below]
  rw [readServices_rangeBody, Etcd.ascending, hfilter]
  refine ((List.mergeSort_perm _ _).filterMap _).trans (.of_eq ?_)
  rw [List.filterMap_map, ← List.filterMap_eq_map]
  exact List.filterMap_congr fun i _ => readService_kv hread i

/-! ### Runs -/

variable [DecidableEq P]

theorem mirrors_exec {w : World C P} (h : Mirrors w) (p : P) (o : Op C) (c : Choice) : Mirrors (exec p o c w).2 := by
  cases o with
  | ask q => exact mirrors_send h q c
  | spawnKeepalive id lease => exact h
  | abortKeepalive id =>
    simp only [exec, World.abort]
    cases w.keepalives p id <;> exact h

theorem mirrors_env {may : World C P → (T → Option (Op C)) → I64 → Prop} {next : T → Option (Op C)}
    {w w' : World C P} (hstep : Env may next w w') (h : Mirrors w) : Mirrors w' := by
  cases hstep with
  | ends p => exact h
  | expires lease held ok =>
    unfold Mirrors at h ⊢
    rw [directory_snoc, enter, Etcd.expire, h]
    exact filter_kv _ fun j _ => rfl

variable [DecidableEq T] {proc : T → P} {settings : P → Settings}
  {may : World C P → (T → Option (Op C)) → I64 → Prop}

theorem mirrors_reach {allowed : T → Op C → Choice → World C P → Prop} {s : Sys T (Op C) Res Answer (World C P)}
    (h : (host proc settings may).Reach allowed ⟨start, fun _ => none⟩ s) : Mirrors s.world :=
  h.world_inv (I := Mirrors) (fun t o c _ _ hw => mirrors_exec hw (proc t) o c) (fun _ hw => hw)
    (fun _ _ _ hstep hw => mirrors_env hstep hw) mirrors_start

theorem complete_ask_bind {α : Type} (p : P) (choose : Op C → Choice) (q : Query C)
    (k : Except Fault Value → CallTree (Op C) Res α) (w : World C P) :
    ((ask q).bind k).complete (exec p) choose w =
      (k (w.send q (choose (.ask q))).1).complete (exec p) choose (w.send q (choose (.ask q))).2 := rfl

theorem discover_served (p : P) (keyPrefix name : String) (l : I64) (w : World C P) :
    (discover keyPrefix name).complete (exec p) (fun _ => ⟨.served, l⟩) w =
      (.ok (readServices C (rangeBody (w.etcd.ascending (utf8 (below (keyPrefix ++ "/" ++ name)))
        (utf8 (prefixEnd (below (keyPrefix ++ "/" ++ name))))))), w) := by
  rw [discover, bind_eq, complete_ask_bind]
  simp only [World.send, serve_range, World.apply, Query.event, List.append_nil]
  rfl

/-- The answer to a command whose requests are all served. -/
def World.answer (w : World C P) (p : P) (settings : Settings) (cmd : Cmd) (l : I64) : Answer :=
  ((prog settings cmd).complete (exec p) (fun _ => ⟨.served, l⟩) w).1

theorem discover_directory (hread : C.ReadsBack) {w : World C P} (h : Mirrors w) (p : P) (settings : Settings)
    (name : String) (l : I64) : ∃ services, w.answer p settings (.discover name) l = .discovered (.ok services) ∧
      services.Perm (((directory w.log).filter fun i => Under (settings.keyPrefix ++ "/" ++ name) i).map Instance.service) := by
  refine ⟨_, ?_, readServices_ascending hread h _⟩
  exact congrArg (fun r => Answer.discovered r.1) (discover_served p settings.keyPrefix name l w)

/-! ### Registrations -/

/-- The body the server answers a grant with. -/
def leaseBody (ttl : Nat) (l : I64) : Value :=
  .object [("ID", .string (toString l.val)), ("TTL", .string (toString ttl))]

theorem createLease_reads (ttl : Nat) (l : I64) : ∃ f : Except Fault Value → CallTree (Op C) Res (Except String I64),
    createLease ttl = (ask (.grantLease ttl)).bind f ∧ f (.ok (leaseBody ttl l)) = .ret (.ok l) := by
  have hread : parseI64 (toString l.val) = some l := parseI64_toString l
  have hid : (((leaseBody ttl l).get "ID").bind Value.asStr).bind parseI64 = some l := hread
  refine ⟨_, rfl, ?_⟩
  simp only [hid]
  rfl

theorem createLease_served {α : Type} (p : P) (ttl : Nat) (l : I64) (k : Except String I64 → CallTree (Op C) Res α)
    (cs : List Choice) (w : World C P) : ((createLease ttl).bind k).advance (exec p) (⟨.served, l⟩ :: cs) w =
      (k (.ok l)).advance (exec p) cs (w.apply (.grantLease ttl) ⟨.served, l⟩) := by
  obtain ⟨f, hf, hl⟩ := createLease_reads (C := C) ttl l
  rw [hf, bind_bind]
  change (CallTree.bind (f (.ok (leaseBody ttl l))) k).advance _ _ _ = _
  rw [hl]
  rfl

/-- The world after a registration whose requests are all served. -/
def World.registered (w : World C P) (p : P) (settings : Settings) (i : Instance C) : World C P :=
  World.spawn ((w.apply (.grantLease settings.leaseTtl) ⟨.served, i.lease⟩).apply (.put i) ⟨.served, i.lease⟩)
    p (settings.keyPrefix ++ "/" ++ i.service.name) i.lease

theorem register_served (p : P) (settings : Settings) {service : ServiceInfo} (uuid : String) {l : I64} {text : String}
    (htext : C.toText service = .ok text) (w : World C P) :
    (prog settings (.register service uuid)).advance (exec p) [⟨.served, l⟩, ⟨.served, l⟩, ⟨.served, l⟩] w =
      (.ret (.registered (.ok ⟨settings.keyPrefix ++ "/" ++ service.name, service⟩)),
        w.registered p settings ⟨settings.keyPrefix, service, uuid, l, text, htext⟩) := by
  rw [prog]
  change (CallTree.bind (register _ _ _ _) _).advance _ _ _ = _
  rw [register, bind_eq, bind_bind, createLease_served]
  simp only
  split
  · next e herror =>
    rw [htext] at herror
    cases herror
  · next text' htext' =>
    obtain rfl : text' = text := Except.ok.inj (htext'.symm.trans htext)
    rfl

theorem createLease_permitted {α : Type} (p : P) (ttl : Nat) {l : I64} {k : Except String I64 → CallTree (Op C) Res α}
    {cs : List Choice} {w : World C P} (hfresh : .granted l ∉ w.log)
    (hk : (k (.ok l)).Permits (exec p) Fresh cs (w.apply (.grantLease ttl) ⟨.served, l⟩)) :
    ((createLease ttl).bind k).Permits (exec p) Fresh (⟨.served, l⟩ :: cs) w := by
  obtain ⟨f, hf, hl⟩ := createLease_reads (C := C) ttl l
  rw [hf, bind_bind]
  refine ⟨hfresh, ?_⟩
  change (CallTree.bind (f (.ok (leaseBody ttl l))) k).Permits _ _ _ _
  rw [hl]
  exact hk

theorem register_permitted (p : P) (settings : Settings) {service : ServiceInfo} (uuid : String) {l : I64}
    {text : String} (htext : C.toText service = .ok text) {w : World C P} (hfresh : .granted l ∉ w.log) :
    (prog settings (.register service uuid)).Permits (exec p) Fresh [⟨.served, l⟩, ⟨.served, l⟩, ⟨.served, l⟩] w := by
  rw [prog]
  change (CallTree.bind (register _ _ _ _) _).Permits _ _ _ _
  rw [register, bind_eq, bind_bind]
  refine createLease_permitted p _ hfresh ?_
  simp only
  split
  · next e herror =>
    rw [htext] at herror
    cases herror
  · exact ⟨trivial, trivial, trivial⟩

theorem registered_log (w : World C P) (p : P) (settings : Settings) (i : Instance C) :
    (w.registered p settings i).log = w.log ++ [.granted i.lease, .put i] := by
  simp [World.registered, World.spawn, World.apply, Query.event, leases_serve]

/-- In every run, a discovery finds the instances below its path that were put and since then neither
replaced, nor removed through an id above them, nor lost with their lease. -/
theorem discover_exact (hread : C.ReadsBack) {s : Sys T (Op C) Res Answer (World C P)}
    (h : (host proc settings may).Reach Host.Free ⟨start, fun _ => none⟩ s) (t : T) (name : String) (l : I64) :
    ∃ services, s.world.answer (proc t) (settings (proc t)) (.discover name) l = .discovered (.ok services) ∧
      services.Perm (((directory s.world.log).filter fun i =>
        Under ((settings (proc t)).keyPrefix ++ "/" ++ name) i).map Instance.service) :=
  discover_directory hread (mirrors_reach h) (proc t) (settings (proc t)) name l


/-- The text of a service without endpoints and metadata. -/
def ordersText : String := "\x7b\"name\":\"orders\",\"version\":\"1.0\",\"endpoints\":[],\"metadata\":\x7b\x7d\x7d"

def orders : ServiceInfo := ⟨"orders", "1.0", [], []⟩

def ordersCodec : Codec where
  toText s := if s = orders then .ok ordersText else .error "unknown"
  fromText text := if text = ordersText then some orders else none

theorem ordersCodec_toText : ordersCodec.toText orders = .ok ordersText := by
  simp [ordersCodec]

theorem ordersCodec_readsBack : ordersCodec.ReadsBack := by
  intro s text h
  simp only [ordersCodec] at h ⊢
  split at h
  · next hs => simp [← Except.ok.inj h, hs]
  · cases h

def ordersInstance (uuid : String) (lease : I64) : Instance ordersCodec :=
  ⟨"ecat", orders, uuid, lease, ordersText, ordersCodec_toText⟩

def ecat : Bool → Settings := fun _ => ⟨"ecat", 30⟩

def seven : I64 := ⟨7, by decide⟩

theorem orders_registered (may : World ordersCodec Bool → (Bool → Option (Op ordersCodec)) → I64 → Prop) :
    ∃ s, (host id ecat may).Reach (fun _ => Fresh) ⟨start, fun _ => none⟩ s ∧
      s.world = start.registered true (ecat true) (ordersInstance "u1" seven) := by
  have hreach := Host.Reach.launch (host id ecat may) (fun _ => Fresh) true (.register orders "u1")
    [⟨.served, seven⟩, ⟨.served, seven⟩, ⟨.served, seven⟩] ⟨start, fun _ => none⟩ rfl trivial
    (register_permitted true (ecat true) "u1" ordersCodec_toText (fun h => (nomatch h)))
  have hserved := register_served true (ecat true) "u1" (l := seven) ordersCodec_toText start
  exact ⟨_, hreach, congrArg Prod.snd hserved⟩

/-- One of two registries registers an instance, and the other one finds it. -/
theorem discover_exact_orders : ∃ s, (host (C := ordersCodec) (P := Bool) id ecat fun _ _ _ => True).Reach Host.Free
      ⟨start, fun _ => none⟩ s ∧ s.world.log = [.granted seven, .put (ordersInstance "u1" seven)] ∧
    ∃ services, s.world.answer false (ecat false) (.discover "orders") seven = .discovered (.ok services) ∧
      services.Perm (((directory s.world.log).filter fun i => Under ("ecat" ++ "/" ++ "orders") i).map Instance.service) := by
  obtain ⟨s, hreach, hworld⟩ := orders_registered fun _ _ _ => True
  have hfree := hreach.mono (B := Host.Free) fun _ _ _ _ _ => trivial
  exact ⟨s, hfree, by rw [hworld, registered_log]; rfl, discover_exact ordersCodec_readsBack hfree false "orders" seven⟩

end Ecat.Registry
