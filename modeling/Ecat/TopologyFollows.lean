import Ecat.Chunks
import Ecat.JsonLines
import Ecat.Results
import Ecat.TopologyModel

/-! The receiver of a watched topology follows the store: it never goes back, and it has what the store
has now once the watch has caught up, if that is in order. -/

namespace Ecat.Topology

open Json Shard

variable {R : Reader} {keyPrefix : String} {stamp : Nat → String}

theorem toOption_eq_some {ε α : Type} {r : Except ε α} {a : α} : r.toOption = some a ↔ r = .ok a := by
  cases r <;> simp [Except.toOption]

/-! ### Consul -/

/-- The catalog that a snapshot says, if it is in order. -/
def consulRead (R : Reader) (keyPrefix : String) (entries : List ConsulKvEntry) : Option ShardCatalog :=
  (consulCatalog R (.ok (consulMap R keyPrefix entries))).toOption

/-- The map is that of the snapshot at a moment of the history. -/
def Snapshot (R : Reader) (keyPrefix : String) (history : List (List ConsulKvEntry)) (m : Map) (n : Nat) : Prop :=
  ∃ entries, history[n]? = some entries ∧ m = consulMap R keyPrefix entries

theorem Snapshot.write {history : List (List ConsulKvEntry)} {m : Map} {n : Nat}
    (h : Snapshot R keyPrefix history m n) (entries : List ConsulKvEntry) :
    Snapshot R keyPrefix (history ++ [entries]) m n := by
  obtain ⟨found, hfound, hm⟩ := h
  obtain ⟨hn, -⟩ := List.getElem?_eq_some_iff.1 hfound
  exact ⟨found, by rw [List.getElem?_append_left hn, hfound], hm⟩

/-- The maps on the way to the topology task are those of the moments `on`, in order, and the index stands
for the last of them, or for what the task has seen if there is none. -/
structure OnTheWay (R : Reader) (keyPrefix : String) (stamp : Nat → String) (s : ConsulWatch) (seen : Nat)
    (on : List Nat) : Prop where
  queue : List.Forall₂ (Snapshot R keyPrefix s.history) (s.queue.filterMap Except.toOption) on
  ordered : (seen :: on).Pairwise (· ≤ ·)
  index : ∀ i, s.index = some i → i = stamp (on.getLast?.getD seen)
  map : ∀ m j, s.pending = some (.ok m, j) → ∃ n, Snapshot R keyPrefix s.history m n ∧ (∀ p ∈ seen :: on, p ≤ n) ∧
    ∀ i, j = some i → i = stamp n
  fault : ∀ e j, s.pending = some (.error e, j) → j = s.index

structure ConsulInv (R : Reader) (keyPrefix : String) (stamp : Nat → String) (s : ConsulWatch)
    (f : Follower (List ConsulKvEntry) ShardCatalog) : Prop where
  history : f.history = s.history
  value : f.value = s.published
  within : f.seen < s.history.length
  onTheWay : s.applying = true → ∃ on, OnTheWay R keyPrefix stamp s f.seen on

variable {s s' : ConsulWatch} {f : Follower (List ConsulKvEntry) ShardCatalog} {on : List Nat}

theorem OnTheWay.within (h : OnTheWay R keyPrefix stamp s f.seen on) (hf : f.seen < s.history.length) :
    ∀ p ∈ f.seen :: on, p ≤ s.history.length - 1 := by
  intro p hp
  rcases List.mem_cons.1 hp with rfl | hp
  · omega
  · obtain ⟨m, -, entries, hentries, -⟩ := exists_left_of_forall₂ h.queue hp
    obtain ⟨hn, -⟩ := List.getElem?_eq_some_iff.1 hentries
    omega

theorem OnTheWay.write (h : OnTheWay R keyPrefix stamp s f.seen on) (entries : List ConsulKvEntry) :
    OnTheWay R keyPrefix stamp { s with history := s.history ++ [entries] } f.seen on where
  queue := h.queue.imp fun _ _ hm => hm.write entries
  ordered := h.ordered
  index := h.index
  map m j hpending := by
    obtain ⟨n, hn, hlater, hstamp⟩ := h.map m j hpending
    exact ⟨n, hn.write entries, hlater, hstamp⟩
  fault := h.fault

theorem fetch_answered {index newIndex j : Option String} {entries : Except String (List ConsulKvEntry)} {m : Map}
    (h : (ConsulReply.answered newIndex entries).fetch R keyPrefix index = .ok (m, j)) :
    ∃ found, entries = .ok found ∧ m = consulMap R keyPrefix found ∧ j = newIndex := by
  simp only [ConsulReply.fetch] at h
  split at h
  · cases h
  · cases entries with
    | error e => cases h
    | ok found =>
      cases h
      exact ⟨found, rfl, rfl, rfl⟩

/-- What a query is answered with: a map is that of the last moment, and so is its index. -/
theorem fetch_ok {outcome : Outcome} {m : Map} {j : Option String}
    (h : (s.reply stamp outcome).fetch R keyPrefix s.index = .ok (m, j)) :
    m = consulMap R keyPrefix (s.history.getLast?.getD []) ∧ ∀ i, j = some i → i = stamp (s.history.length - 1) := by
  cases outcome with
  | failed e => cases h
  | status body => cases h
  | garbled header e =>
    obtain ⟨found, hfound, -, -⟩ := fetch_answered h
    cases hfound
  | served header =>
    obtain ⟨found, hfound, hm, hj⟩ := fetch_answered h
    cases hfound
    refine ⟨hm, fun i hi => ?_⟩
    rw [hj] at hi
    split at hi
    · exact (Option.some.inj hi).symm
    · cases hi

theorem OnTheWay.fetched (h : OnTheWay R keyPrefix stamp s f.seen on) (hf : f.seen < s.history.length)
    (hidle : s.pending = none) (outcome : Outcome) :
    OnTheWay R keyPrefix stamp (s.fetched R keyPrefix stamp outcome) f.seen on := by
  unfold ConsulWatch.fetched
  split
  · next m j hfetch =>
    obtain ⟨hm, hstamp⟩ := fetch_ok hfetch
    split
    · refine ⟨h.queue, h.ordered, h.index, ?_, fun e k hpending => (nomatch hpending)⟩
      rintro m' k ⟨⟩
      have hlast : s.history[s.history.length - 1]? = some (s.history.getLast?.getD []) := by
        have hne : s.history ≠ [] := List.ne_nil_of_length_pos (by omega)
        rw [← List.getLast?_eq_getElem?, List.getLast?_eq_some_getLast hne, Option.getD_some]
      exact ⟨s.history.length - 1, ⟨_, hlast, hm⟩, h.within hf, hstamp⟩
    · next hsame =>
      have hj : s.index = j := by
        by_contra hne
        exact hsame (.inl hne)
      exact ⟨h.queue, h.ordered, fun i hi => h.index i (hj.trans hi), h.map, fun e k hpending => by
        rw [hidle] at hpending
        cases hpending⟩
  · next e hfetch =>
    refine ⟨h.queue, h.ordered, h.index, fun m k hpending => (nomatch hpending), ?_⟩
    rintro e' k ⟨⟩
    rfl

theorem OnTheWay.send (h : OnTheWay R keyPrefix stamp s f.seen on) (hstep : s.send = some s') (hrun : s.applying = true) :
    ∃ on', OnTheWay R keyPrefix stamp s' f.seen on' := by
  unfold ConsulWatch.send at hstep
  split at hstep
  · cases hstep
  · next item j hpending =>
    rw [if_neg (by simp [hrun])] at hstep
    split at hstep
    · cases hstep
      cases item with
      | error e =>
        refine ⟨on, ?_, h.ordered, fun i hi => h.index i ?_, fun m k hk => (nomatch hk), fun e k hk => (nomatch hk)⟩
        · have hfault : [(Except.error e : Item)].filterMap Except.toOption = [] := rfl
          rw [List.filterMap_append, hfault, List.append_nil]
          exact h.queue
        · rw [← h.fault e j hpending]
          exact hi
      | ok m =>
        obtain ⟨n, hn, hlater, hstamp⟩ := h.map m j hpending
        refine ⟨on ++ [n], ?_, ?_, ?_, fun m k hk => (nomatch hk), fun e k hk => (nomatch hk)⟩
        · rw [List.filterMap_append]
          exact List.rel_append h.queue (.cons hn .nil)
        · rw [← List.cons_append, List.pairwise_append]
          exact ⟨h.ordered, List.pairwise_singleton .., fun p hp q hq => List.mem_singleton.1 hq ▸ hlater p hp⟩
        · intro i hi
          rw [List.getLast?_concat, Option.getD_some]
          exact hstamp i hi
    · cases hstep

/-- The first map of the queue is taken. -/
theorem OnTheWay.take {seen : Nat} {m : Map} {rest : List Item} (h : OnTheWay R keyPrefix stamp s seen on)
    (hqueue : s.queue = .ok m :: rest) (published : ShardCatalog) : ∃ n on', Snapshot R keyPrefix s.history m n ∧ seen ≤ n ∧
      OnTheWay R keyPrefix stamp { s with queue := rest, published } n on' := by
  have hq := h.queue
  have hmap : ((.ok m : Item) :: rest).filterMap Except.toOption = m :: rest.filterMap Except.toOption := rfl
  rw [hqueue, hmap] at hq
  obtain ⟨n, on', hn, hrest, rfl⟩ := List.forall₂_cons_left_iff.1 hq
  have hordered := List.pairwise_cons.1 h.ordered
  refine ⟨n, on', hn, hordered.1 n List.mem_cons_self, hrest, hordered.2, fun i hi => ?_, fun k j hk => ?_, h.fault⟩
  · have hindex := h.index i hi
    rwa [List.getLast?_cons, Option.getD_some] at hindex
  · obtain ⟨n', hn', hlater, hstamp⟩ := h.map k j hk
    exact ⟨n', hn', fun p hp => hlater p (List.mem_cons_of_mem _ hp), hstamp⟩

theorem OnTheWay.skip {seen : Nat} {e : String} {rest : List Item} (h : OnTheWay R keyPrefix stamp s seen on)
    (hqueue : s.queue = .error e :: rest) : OnTheWay R keyPrefix stamp { s with queue := rest } seen on := by
  have hfault : ((.error e : Item) :: rest).filterMap Except.toOption = rest.filterMap Except.toOption := rfl
  have hq := h.queue
  rw [hqueue, hfault] at hq
  exact ⟨hq, h.ordered, h.index, h.map, h.fault⟩

theorem consul_apply (h : ConsulInv R keyPrefix stamp s f) (hstep : s.apply R = some s') :
    ∃ f', Follower.Reach (consulRead R keyPrefix) f f' ∧ ConsulInv R keyPrefix stamp s' f' := by
  unfold ConsulWatch.apply at hstep
  split at hstep
  · cases hstep
  · next item rest hqueue =>
    split at hstep
    · cases hstep
    · next hrun =>
      obtain ⟨on, hon⟩ := h.onTheWay (by simpa using hrun)
      cases item with
      | error e =>
        cases hstep
        exact ⟨f, .refl, h.history, h.value, h.within, fun _ => ⟨on, hon.skip hqueue⟩⟩
      | ok m =>
        obtain ⟨n, on', ⟨entries, hentries, rfl⟩, hlater, hnext⟩ := hon.take hqueue s.published
        obtain ⟨hn, -⟩ := List.getElem?_eq_some_iff.1 hentries
        have hobserve : Follower.Reach (consulRead R keyPrefix) f
            { f with seen := n, value := (consulRead R keyPrefix entries).getD f.value } :=
          .single (.observe f hlater (h.history ▸ hentries))
        cases hread : consulCatalog R (.ok (consulMap R keyPrefix entries)) with
        | error e =>
          have hnone : consulRead R keyPrefix entries = none := by rw [consulRead, hread]; rfl
          rw [hread] at hstep
          rw [hnone] at hobserve
          cases hstep
          exact ⟨_, hobserve, h.history, h.value, hn, fun _ => ⟨on', hnext⟩⟩
        | ok catalog =>
          have hsome : consulRead R keyPrefix entries = some catalog := by rw [consulRead, hread]; rfl
          rw [hread] at hstep
          simp only at hstep
          split at hstep
          · cases hstep
            rw [hsome] at hobserve
            exact ⟨_, hobserve, h.history, rfl, hn, fun _ => ⟨on', ⟨hnext.queue, hnext.ordered, hnext.index, hnext.map, hnext.fault⟩⟩⟩
          · cases hstep
            exact ⟨f, .refl, h.history, h.value, h.within, fun hoff => (nomatch hoff)⟩

theorem consul_step (h : ConsulInv R keyPrefix stamp s f) {a : ConsulAct} (hstep : s.step R keyPrefix stamp a = some s') :
    ∃ f', Follower.Reach (consulRead R keyPrefix) f f' ∧ ConsulInv R keyPrefix stamp s' f' := by
  cases a with
  | write entries =>
    cases hstep
    refine ⟨_, .single (.write f entries), by rw [h.history], h.value, ?_, fun hrun => ?_⟩
    · have hwithin := h.within
      simp only [List.length_append, List.length_singleton]
      omega
    · obtain ⟨on, hon⟩ := h.onTheWay hrun
      exact ⟨on, hon.write entries⟩
  | fetch outcome =>
    simp only [ConsulWatch.step] at hstep
    split at hstep
    · next hidle =>
      cases hstep
      have hkept : (s.fetched R keyPrefix stamp outcome).history = s.history ∧
          (s.fetched R keyPrefix stamp outcome).published = s.published ∧
          (s.fetched R keyPrefix stamp outcome).applying = s.applying := by
        unfold ConsulWatch.fetched
        split
        · split <;> exact ⟨rfl, rfl, rfl⟩
        · exact ⟨rfl, rfl, rfl⟩
      obtain ⟨hhistory, hpublished, happlying⟩ := hkept
      refine ⟨f, .refl, by rw [h.history, hhistory], by rw [h.value, hpublished], hhistory ▸ h.within, fun hrun => ?_⟩
      obtain ⟨on, hon⟩ := h.onTheWay (happlying ▸ hrun)
      exact ⟨on, hon.fetched h.within hidle.2 outcome⟩
    · cases hstep
  | send =>
    simp only [ConsulWatch.step] at hstep
    split at hstep
    · have hkept : s'.history = s.history ∧ s'.published = s.published ∧ s'.applying = s.applying := by
        unfold ConsulWatch.send at hstep
        split at hstep
        · cases hstep
        · split at hstep
          · cases hstep
            exact ⟨rfl, rfl, rfl⟩
          · split at hstep
            · cases hstep
              exact ⟨rfl, rfl, rfl⟩
            · cases hstep
      obtain ⟨hhistory, hpublished, happlying⟩ := hkept
      refine ⟨f, .refl, by rw [h.history, hhistory], by rw [h.value, hpublished], hhistory ▸ h.within, fun hrun => ?_⟩
      obtain ⟨on, hon⟩ := h.onTheWay (happlying ▸ hrun)
      exact hon.send hstep (happlying ▸ hrun)
    · cases hstep
  | apply => exact consul_apply h hstep
  | drop =>
    cases hstep
    refine ⟨f, .refl, h.history, h.value, h.within, fun hrun => ?_⟩
    obtain ⟨on, hon⟩ := h.onTheWay hrun
    exact ⟨on, ⟨hon.queue, hon.ordered, hon.index, hon.map, hon.fault⟩⟩

theorem consulStart_eq {history : List (List ConsulKvEntry)} (h : consulStart R keyPrefix history = .ok s) :
    ∃ past entries, history = past ++ [entries] ∧ consulRead R keyPrefix entries = some s.published ∧
      s = ⟨history, none, none, [], s.published, true, true, true⟩ := by
  obtain ⟨catalog, hcatalog, hs⟩ := bind_eq_ok.1 h
  cases Except.ok.inj hs
  rcases List.eq_nil_or_concat' history with rfl | ⟨past, entries, rfl⟩
  · cases hcatalog
  · refine ⟨past, entries, rfl, ?_, rfl⟩
    rw [consulRead, toOption_eq_some]
    simpa using hcatalog

/-- The watch has queried since the last write, and the topology task has taken all that came of it. -/
def ConsulWatch.CaughtUp (stamp : Nat → String) (s : ConsulWatch) : Prop :=
  s.applying = true ∧ s.queue = [] ∧ s.index = some (stamp (s.history.length - 1))

/-- In every run of the two tasks of a watch, with failed, refused and late queries and a channel that fills
up, what the receiver sees is read from the store at some moment, never at an earlier one than in the state
before, and once the watch has caught up it is what the store says now, if that is in order. -/
theorem consul_watch_follows (hstamp : Function.Injective stamp) {history : List (List ConsulKvEntry)}
    {s₀ : ConsulWatch} (hstart : consulStart R keyPrefix history = .ok s₀) {acts : List ConsulAct}
    (hrun : runFrom (ConsulWatch.step R keyPrefix stamp) s₀ acts = some s) :
    Follower.Forward (consulRead R keyPrefix) ConsulWatch.history ConsulWatch.published (history.length - 1)
        (s₀ :: (steps (ConsulWatch.step R keyPrefix stamp) s₀ acts).map fun e => e.2.2) ∧
      (s.CaughtUp stamp → ∀ entries catalog, s.history.getLast? = some entries →
        consulRead R keyPrefix entries = some catalog → s.published = catalog) := by
  obtain ⟨past, first, rfl, hread, hs₀⟩ := consulStart_eq hstart
  have hlength : (past ++ [first]).length - 1 = past.length := by simp
  rw [hlength]
  have hinit : ConsulInv R keyPrefix stamp s₀ ⟨past ++ [first], past.length, s₀.published⟩ := by
    rw [hs₀]
    refine ⟨rfl, rfl, by simp, fun _ => ⟨[], .nil, List.pairwise_singleton .., ?_, ?_, ?_⟩⟩
    · intro i hi
      cases hi
    · intro m j hpending
      cases hpending
    · intro e j hpending
      cases hpending
  have hstarted : Follower.Follows (consulRead R keyPrefix) ⟨past ++ [first], past.length, s₀.published⟩ past.length :=
    Follower.follows_start hread
  obtain ⟨hforward, f, n, hinv, hfollows⟩ := Follower.forward_run
    (fun s f (hinv : ConsulInv R keyPrefix stamp s f) => ⟨hinv.history, hinv.value⟩)
    (fun s f a t hinv hstep => consul_step hinv hstep) hinit hstarted hrun
  have hfirst : Follower.ReadAt (consulRead R keyPrefix) s₀.history s₀.published past.length :=
    hinit.history ▸ hstarted.was
  refine ⟨⟨past.length, Nat.le_refl _, hfirst, hforward⟩, fun hcaught entries catalog hlast hcatalog => ?_⟩
  obtain ⟨hrunning, hqueue, hindex⟩ := hcaught
  obtain ⟨on, hon⟩ := hinv.onTheWay hrunning
  have hnone : on = [] := by
    have hq := hon.queue
    rw [hqueue] at hq
    exact List.forall₂_nil_left_iff.1 hq
  have hseen := hstamp (hon.index _ hindex)
  rw [hnone, List.getLast?_nil, Option.getD_none] at hseen
  have hwithin := hinv.within
  rw [← hinv.value]
  refine hfollows.current ?_ (hinv.history ▸ hlast) hcatalog
  rw [hinv.history]
  omega

/-! ### Equal values -/

theorem eq_of_sameItems {xs : List Value} (ih : ∀ x ∈ xs, ∀ y, same x y = true → x = y) :
    ∀ ys, sameItems xs ys = true → xs = ys := by
  induction xs with
  | nil =>
    intro ys h
    cases ys with
    | nil => rfl
    | cons y ys => simp [sameItems] at h
  | cons x xs ihs =>
    intro ys h
    cases ys with
    | nil => simp [sameItems] at h
    | cons y ys =>
      rw [sameItems, Bool.and_eq_true] at h
      rw [ih x List.mem_cons_self y h.1, ihs (fun z hz => ih z (List.mem_cons_of_mem _ hz)) ys h.2]

theorem eq_of_sameFields {fs : List (String × Value)} (ih : ∀ f ∈ fs, ∀ y, same f.2 y = true → f.2 = y) :
    ∀ gs, sameFields fs gs = true → fs = gs := by
  induction fs with
  | nil =>
    intro gs h
    cases gs with
    | nil => rfl
    | cons y gs => simp [sameFields] at h
  | cons f fs ihs =>
    intro gs h
    cases gs with
    | nil => simp [sameFields] at h
    | cons g gs =>
      rw [sameFields, Bool.and_eq_true, Bool.and_eq_true, beq_iff_eq] at h
      rw [← ihs (fun z hz => ih z (List.mem_cons_of_mem _ hz)) gs h.2]
      exact congrArg (· :: fs) (Prod.ext h.1.1 (ih f List.mem_cons_self g.2 h.1.2))

theorem eq_of_same (v : Value) : ∀ u, same v u = true → v = u := by
  induction v using Value.induction with
  | null => intro u h; cases u <;> simp_all [same]
  | bool flag => intro u h; cases u <;> simp_all [same]
  | number n => intro u h; cases u <;> simp_all [same]
  | string text => intro u h; cases u <;> simp_all [same]
  | array items ih =>
    intro u h
    cases u with
    | array others => rw [eq_of_sameItems ih others (by simpa only [same] using h)]
    | _ => simp [same] at h
  | object fields ih =>
    intro u h
    cases u with
    | object others => rw [eq_of_sameFields ih others (by simpa only [same] using h)]
    | _ => simp [same] at h

/-! ### Two topologies -/

def tablesText : String := "\x7b\"tables\":[]\x7d"

def tablesValue : Value := .object [("tables", .array [])]

def ordersText : String :=
  "\x7b\"tables\":[\x7b\"name\":\"orders\",\"key\":\"id\",\"pk\":\"id\",\"algorithm\":\x7b\"hash_mod\":\x7b\"shards\":1\x7d\x7d,\"shards\":[\x7b\"name\":\"s0\"\x7d]\x7d]\x7d"

def ordersValue : Value :=
  .object [("tables", .array [.object [("name", .string "orders"), ("key", .string "id"), ("pk", .string "id"),
    ("algorithm", .object [("hash_mod", .object [("shards", .number (.int 1 (by decide) (by decide)))])]),
    ("shards", .array [.object [("name", .string "s0")]])]])]

def ordersCatalog : ShardCatalog := ⟨[⟨"orders", "id", "id", .hashMod 1, [⟨"s0", none⟩]⟩]⟩

/-- The reader where it meets these texts. -/
def tablesReader : Reader where
  fromStr text := if text = tablesText then some tablesValue else if text = ordersText then some ordersValue else none
  fromValue v :=
    if same v tablesValue then .ok ⟨[]⟩
    else if same v ordersValue then .ok ordersCatalog
    else .error "missing field `tables`"

theorem tables_valueOf : tablesReader.valueOf tablesText = tablesValue := by
  simp [Reader.valueOf, tablesReader]

theorem orders_valueOf : tablesReader.valueOf ordersText = ordersValue := by
  have hne : ordersText ≠ tablesText := by decide +kernel
  simp [Reader.valueOf, tablesReader, hne]

theorem tables_key : relativeKey "app" "app/topology" = topologyKey := by
  decide +kernel

theorem tables_parse : parseCatalog tablesReader tablesValue = .ok ⟨[]⟩ := by
  simp [parseCatalog, tablesReader, tablesValue, same, sameFields, sameItems, ShardCatalog.validate, validateTables]

theorem orders_validate : ordersCatalog.validate = .ok () := by
  rfl

theorem orders_parse : parseCatalog tablesReader ordersValue = .ok ordersCatalog := by
  have hvalue : tablesReader.fromValue ordersValue = .ok ordersCatalog := rfl
  rw [parseCatalog, hvalue]
  change (do ordersCatalog.validate; return ordersCatalog) = _
  rw [orders_validate]
  rfl

def topologyEntries (text : String) : List ConsulKvEntry := [⟨"app/topology", some (Registry.b64 text)⟩]

theorem topology_map (text : String) :
    consulMap tablesReader "app" (topologyEntries text) = [(topologyKey, tablesReader.valueOf text)] := by
  have hdecode : decodeText (Registry.b64 text) = some text := Registry.decodeB64Str_utf8 text
  simp [consulMap, topologyEntries, ConsulKvEntry.decodedValue, hdecode, tables_key]

theorem topology_catalog (v : Value) : consulCatalog tablesReader (.ok [(topologyKey, v)]) = parseCatalog tablesReader v := by
  have hvalue : topologyValue [(topologyKey, v)] = .ok v := by
    simp [topologyValue, Map.get]
  rw [consulCatalog, hvalue]
  rfl

/-- The first frame of a watch arrives, a table is added, a query fails, and the next one brings the table. -/
def tablesRun : List ConsulAct :=
  [.fetch (.served true), .send, .apply, .write (topologyEntries ordersText), .fetch (.failed "timeout"), .send,
    .fetch (.served true), .send, .apply, .apply]

theorem tables_run {stamp : Nat → String} (hstamp : Function.Injective stamp) :
    runFrom (ConsulWatch.step tablesReader "app" stamp)
      ⟨[topologyEntries tablesText], none, none, [], ⟨[]⟩, true, true, true⟩ tablesRun =
      some ⟨[topologyEntries tablesText, topologyEntries ordersText], some (stamp 1), none, [], ordersCatalog,
        true, true, true⟩ := by
  have hfault : ∀ e, consulCatalog tablesReader (.error e) = .error (.config s!"consul topology: {e}") := fun _ => rfl
  simp [tablesRun, runFrom, ConsulWatch.step, ConsulWatch.fetched, ConsulWatch.reply, ConsulReply.fetch,
    ConsulWatch.send, ConsulWatch.apply, watchChannelCapacity, topology_map, topology_catalog, tables_valueOf,
    tables_parse, orders_valueOf, orders_parse, hfault, hstamp.eq_iff]

theorem consul_watch_follows_tables : ∃ s₀ s,
    consulStart tablesReader "app" [topologyEntries tablesText] = .ok s₀ ∧ s₀.published = ⟨[]⟩ ∧
    runFrom (ConsulWatch.step tablesReader "app" toString) s₀ tablesRun = some s ∧
    s.CaughtUp toString ∧ s.published = ordersCatalog ∧
    Follower.Forward (consulRead tablesReader "app") ConsulWatch.history ConsulWatch.published 0
      (s₀ :: (steps (ConsulWatch.step tablesReader "app" toString) s₀ tablesRun).map fun e => e.2.2) ∧
    (s.CaughtUp toString → ∀ entries catalog, s.history.getLast? = some entries →
      consulRead tablesReader "app" entries = some catalog → s.published = catalog) := by
  have hstart : consulStart tablesReader "app" [topologyEntries tablesText] =
      .ok ⟨[topologyEntries tablesText], none, none, [], ⟨[]⟩, true, true, true⟩ := by
    have hlast : ([topologyEntries tablesText].getLast?).getD [] = topologyEntries tablesText := rfl
    rw [consulStart, hlast, topology_map, topology_catalog, tables_valueOf, tables_parse]
    rfl
  have hstamp : Function.Injective (toString : Nat → String) := fun m n h => Nat.repr_inj.1 h
  have hrun := tables_run hstamp
  obtain ⟨hforward, hlast⟩ := consul_watch_follows hstamp hstart hrun
  exact ⟨_, _, hstart, rfl, hrun, ⟨rfl, rfl, rfl⟩, rfl, hforward, hlast⟩

/-! ### etcd -/

/-- The map of what the server has, bytes that are no text left out. -/
def storeMap (R : Reader) (keyPrefix : String) (store : Store) : Map :=
  store.foldl (fun m kv => match String.fromUTF8? ⟨⟨kv.1⟩⟩, String.fromUTF8? ⟨⟨kv.2⟩⟩ with
    | some key, some text => (relativeKey keyPrefix key, R.valueOf text) :: m
    | _, _ => m) []

/-- The keys with the prefix, ascending. -/
def under (keyPrefix : String) (store : Store) : Store :=
  (store.filter fun kv => Registry.utf8 keyPrefix <+: kv.1).mergeSort fun x y => x.1 ≤ y.1

def etcdRead (R : Reader) (keyPrefix : String) (store : Store) : Option ShardCatalog :=
  ((topologyValue (storeMap R keyPrefix (under keyPrefix store))).toOption.bind fun value =>
    (parseCatalog R value).toOption)

theorem inRange_etcdPrefixEnd (p k : List UInt8) : Registry.InRange p (etcdPrefixEnd p) k ↔ p <+: k := by
  rw [Hbase.isPrefix_iff, Registry.InRange, etcdPrefixEnd]
  cases hend : Hbase.prefixEnd p with
  | none => simp
  | some e =>
    have hne : e ≠ [] ∧ e ≠ [0] := by
      have hlt : p < e := by
        have hself := (Hbase.isPrefix_iff p p).1 (List.prefix_refl p)
        exact hself.2 e (by simp [hend])
      constructor
      · rintro rfl
        exact List.not_lt_nil p hlt
      · rintro rfl
        cases p with
        | nil =>
          rw [Hbase.prefixEnd] at hend
          cases hend
        | cons b p =>
          rcases List.cons_lt_cons_iff.1 hlt with hb | ⟨_, hp⟩
          · exact UInt8.not_lt_zero hb
          · exact List.not_lt_nil p hp
    simp [hne.1, hne.2]

theorem decodeText_b64Bytes (bytes : List UInt8) : decodeText (Registry.b64Bytes bytes) = String.fromUTF8? ⟨⟨bytes⟩⟩ := by
  rw [decodeText, Registry.decode_b64Bytes, Option.bind_some]

theorem etcdMap_rangeOf (store : Store) :
    etcdMap R keyPrefix (rangeOf (Registry.utf8 keyPrefix) (etcdPrefixEnd (Registry.utf8 keyPrefix)) store) =
      storeMap R keyPrefix (under keyPrefix store) := by
  have hfilter : store.filter (fun kv => Registry.InRange (Registry.utf8 keyPrefix)
      (etcdPrefixEnd (Registry.utf8 keyPrefix)) kv.1) = store.filter fun kv => Registry.utf8 keyPrefix <+: kv.1 :=
    List.filter_congr fun kv _ => by simp [inRange_etcdPrefixEnd]
  rw [rangeOf, hfilter, etcdMap, List.foldl_map, storeMap, under]
  simp only [decodeText_b64Bytes]
  all_goals rfl

variable {w w' : EtcdWatch} {g : Follower Store ShardCatalog}

def EtcdWatch.snapshot (w : EtcdWatch) : Store := w.history.getLast?.getD []

theorem fetchFrom_reply (R : Reader) (w : EtcdWatch) (endpoint : String) (outcome : EtcdOutcome) :
    (outcome = .served ∧ (w.reply keyPrefix outcome).fetchFrom R keyPrefix endpoint =
      .ok (storeMap R keyPrefix (under keyPrefix w.snapshot))) ∨
    outcome ≠ .served ∧ ∃ e, (w.reply keyPrefix outcome).fetchFrom R keyPrefix endpoint = .error e := by
  cases outcome with
  | served => exact .inl ⟨rfl, congrArg Except.ok (etcdMap_rangeOf _)⟩
  | failed e => exact .inr ⟨by simp, _, rfl⟩
  | status code body => exact .inr ⟨by simp, _, rfl⟩
  | garbled e => exact .inr ⟨by simp, _, rfl⟩

theorem fetchFirst_replies (outcomes : List (String × EtcdOutcome)) (lastError : Option String) :
    ((∃ o ∈ outcomes, o.2 = .served) ∧
      fetchFirst R keyPrefix (outcomes.map fun o => (o.1, w.reply keyPrefix o.2)) lastError =
        .ok (storeMap R keyPrefix (under keyPrefix w.snapshot))) ∨
    (¬ ∃ o ∈ outcomes, o.2 = .served) ∧
      ∃ e, fetchFirst R keyPrefix (outcomes.map fun o => (o.1, w.reply keyPrefix o.2)) lastError = .error e := by
  induction outcomes generalizing lastError with
  | nil => exact .inr ⟨by simp, _, rfl⟩
  | cons o outcomes ih =>
    simp only [List.map_cons, fetchFirst, List.exists_mem_cons_iff]
    rcases fetchFrom_reply R w o.1 o.2 with ⟨hserved, hreply⟩ | ⟨hserved, e, hreply⟩
    · rw [hreply]
      exact .inl ⟨.inl hserved, rfl⟩
    · rw [hreply]
      simpa [hserved] using ih (some e)

theorem etcdFetch_replies (outcomes : List (String × EtcdOutcome)) :
    ((∃ o ∈ outcomes, o.2 = .served) ∧
      etcdFetch R keyPrefix (outcomes.map fun o => (o.1, w.reply keyPrefix o.2)) =
        .ok (storeMap R keyPrefix (under keyPrefix w.snapshot))) ∨
    (¬ ∃ o ∈ outcomes, o.2 = .served) ∧
      ∃ e, etcdFetch R keyPrefix (outcomes.map fun o => (o.1, w.reply keyPrefix o.2)) = .error e := by
  cases outcomes with
  | nil => exact .inr ⟨by simp, _, rfl⟩
  | cons o outcomes =>
    rw [etcdFetch, if_neg (by simp)]
    exact fetchFirst_replies (o :: outcomes) none

/-- As long as the task polls, what it compares with says the catalog that it has published. -/
structure EtcdInv (R : Reader) (w : EtcdWatch) (g : Follower Store ShardCatalog) : Prop where
  history : g.history = w.history
  value : g.value = w.published
  within : g.seen < w.history.length
  last : w.polling = true → parseCatalog R w.last = .ok w.published

theorem snapshot_last (hw : 0 < w.history.length) : w.history[w.history.length - 1]? = some w.snapshot := by
  have hne : w.history ≠ [] := List.ne_nil_of_length_pos hw
  rw [← List.getLast?_eq_getElem?, EtcdWatch.snapshot, List.getLast?_eq_some_getLast hne, Option.getD_some]

/-- A poll that is answered sees what the store has now; one that is not changes nothing. -/
theorem etcd_poll (keyPrefix : String) (h : EtcdInv R w g) (outcomes : List (String × EtcdOutcome)) (hpolling : w.polling = true) :
    ∃ g', Follower.Reach (etcdRead R keyPrefix) g g' ∧ EtcdInv R (w.poll R keyPrefix outcomes) g' ∧
      ((∃ o ∈ outcomes, o.2 = .served) → (w.poll R keyPrefix outcomes).polling = true →
        g'.seen + 1 = (w.poll R keyPrefix outcomes).history.length) := by
  have hwithin := h.within
  have hlast := snapshot_last (w := w) (by omega)
  have hobserve : Follower.Reach (etcdRead R keyPrefix) g { g with
      seen := w.history.length - 1, value := (etcdRead R keyPrefix w.snapshot).getD g.value } :=
    .single (.observe g (by omega) (h.history ▸ hlast))
  have hlt : w.history.length - 1 < w.history.length := by omega
  have hseen : w.history.length - 1 + 1 = w.history.length := by omega
  unfold EtcdWatch.poll
  rcases etcdFetch_replies (R := R) (w := w) outcomes with ⟨hserved, hfetch⟩ | ⟨hserved, e, hfetch⟩
  · rw [hfetch]
    simp only
    split
    · next e hvalue =>
      have hnone : etcdRead R keyPrefix w.snapshot = none := by rw [etcdRead, hvalue]; rfl
      rw [hnone] at hobserve
      exact ⟨_, hobserve, ⟨h.history, h.value, hlt, h.last⟩, fun _ _ => hseen⟩
    · next value hvalue =>
      split
      · next hsame =>
        have hread : etcdRead R keyPrefix w.snapshot = some w.published := by
          rw [etcdRead, hvalue, eq_of_same _ _ hsame]
          exact toOption_eq_some.2 (h.last hpolling)
        rw [hread] at hobserve
        exact ⟨_, hobserve, ⟨h.history, rfl, hlt, h.last⟩, fun _ _ => hseen⟩
      · split
        · next e hcatalog =>
          have hnone : etcdRead R keyPrefix w.snapshot = none := by
            rw [etcdRead, hvalue]
            simp [Except.toOption, hcatalog]
          rw [hnone] at hobserve
          exact ⟨_, hobserve, ⟨h.history, h.value, hlt, h.last⟩, fun _ _ => hseen⟩
        · next catalog hcatalog =>
          split
          · have hread : etcdRead R keyPrefix w.snapshot = some catalog := by
              rw [etcdRead, hvalue]
              exact toOption_eq_some.2 hcatalog
            rw [hread] at hobserve
            exact ⟨_, hobserve, ⟨h.history, rfl, hlt, fun _ => hcatalog⟩, fun _ _ => hseen⟩
          · exact ⟨g, .refl, ⟨h.history, h.value, h.within, fun hoff => by cases hoff⟩, fun _ hoff => by cases hoff⟩
  · rw [hfetch]
    exact ⟨g, .refl, h, fun hs => absurd hs hserved⟩

theorem etcd_step (h : EtcdInv R w g) {a : EtcdAct} (hstep : w.step R keyPrefix a = some w') :
    ∃ g', Follower.Reach (etcdRead R keyPrefix) g g' ∧ EtcdInv R w' g' := by
  cases a with
  | write store =>
    cases hstep
    refine ⟨_, .single (.write g store), by rw [h.history], h.value, ?_, h.last⟩
    have hwithin := h.within
    simp only [List.length_append, List.length_singleton]
    omega
  | poll outcomes =>
    simp only [EtcdWatch.step] at hstep
    split at hstep
    · next hpolling =>
      cases hstep
      obtain ⟨g', hreach, hinv, -⟩ := etcd_poll keyPrefix h outcomes hpolling
      exact ⟨g', hreach, hinv⟩
    · cases hstep
  | drop =>
    cases hstep
    exact ⟨g, .refl, h.history, h.value, h.within, h.last⟩

theorem etcdStart_eq {history : List Store} (h : etcdStart R keyPrefix history = .ok w) :
    ∃ past store, history = past ++ [store] ∧ etcdRead R keyPrefix store = some w.published ∧
      EtcdInv R w ⟨history, past.length, w.published⟩ := by
  obtain ⟨value, hvalue, h⟩ := bind_eq_ok.1 h
  obtain ⟨catalog, hcatalog, h⟩ := bind_eq_ok.1 h
  cases Except.ok.inj h
  rw [etcdMap_rangeOf] at hvalue
  rcases List.eq_nil_or_concat' history with rfl | ⟨past, store, rfl⟩
  · simp [under, storeMap, topologyValue, Map.get] at hvalue
  · refine ⟨past, store, rfl, ?_, rfl, rfl, by simp, fun _ => hcatalog⟩
    have hlast : (past ++ [store]).getLast?.getD [] = store := by simp
    rw [hlast] at hvalue
    rw [etcdRead, hvalue]
    exact toOption_eq_some.2 hcatalog

def topologyStore (text : String) : Store := [(Registry.utf8 "app/topology", Registry.utf8 text)]

theorem topology_under (text : String) : under "app" (topologyStore text) = topologyStore text := by
  have hkey : Registry.utf8 "app" <+: Registry.utf8 "app/topology" := (Registry.utf8_isPrefix_iff _ _).2 (by decide)
  simp [under, topologyStore, hkey]

theorem topology_storeMap (text : String) :
    storeMap tablesReader "app" (topologyStore text) = [(topologyKey, tablesReader.valueOf text)] := by
  have hutf8 : ∀ s : String, String.fromUTF8? ⟨⟨Registry.utf8 s⟩⟩ = some s := fun s => dif_pos s.isValidUTF8
  simp [storeMap, topologyStore, hutf8, tables_key]

theorem topology_served (text : String) {w : EtcdWatch} (h : w.snapshot = topologyStore text)
    {outcomes : List (String × EtcdOutcome)} (hserved : ∃ o ∈ outcomes, o.2 = .served) :
    etcdFetch tablesReader "app" (outcomes.map fun o => (o.1, w.reply "app" o.2)) =
      .ok [(topologyKey, tablesReader.valueOf text)] := by
  have hreplies := @etcdFetch_replies tablesReader "app" w outcomes
  rcases hreplies with ⟨-, hfetch⟩ | ⟨hnone, -⟩
  · rw [hfetch, h, topology_under, topology_storeMap]
  · exact absurd hserved hnone

/-- One endpoint is down and the other one is polled, a table is added, and the next poll brings it. -/
def pollsRun : List EtcdAct :=
  [.poll [("a", .failed "refused"), ("b", .served)], .write (topologyStore ordersText), .poll [("a", .served)]]

end Ecat.Topology
