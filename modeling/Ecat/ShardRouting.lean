import Ecat.ShardCutover
import Ecat.Runs

/-! Routing over a history of loads. A router is built from a catalog and a map of clients, and each
reload checks the new catalog before it takes the place of the old one. -/

namespace Ecat.Shard

open Json

/-! ### The router with its clients -/

structure Router (Client : Type) where
  catalog : ShardCatalog
  clients : List (String × Client)

variable {Client : Type}

def Router.new (catalog : ShardCatalog) (clients : List (String × Client)) :
    Except ShardError (Router Client) := do
  catalog.validate
  validateClients catalog (clients.map Prod.fst)
  return ⟨catalog, clients⟩

/-- The answer of a reload, and the router after it. -/
def Router.reload (r : Router Client) (catalog : ShardCatalog) : Except ShardError Unit × Router Client :=
  match (do
    catalog.validate
    validateClients catalog (r.clients.map Prod.fst)) with
  | .error e => (.error e, r)
  | .ok _ => (.ok (), { r with catalog })

def Router.shardFor (r : Router Client) (table : String) (key : Value) : Except ShardError Nat :=
  r.catalog.shardFor table key

/-- The name and the client of the shard of a key; `none` is the panic of an index out of bounds. -/
def Router.forKeyWithShard (r : Router Client) (table : String) (key : Value) :
    Option (Except ShardError (String × Client)) :=
  match r.catalog.shardFor table key with
  | .error e => some (.error e)
  | .ok index =>
    match r.catalog.table table with
    | .error e => some (.error e)
    | .ok t =>
      t.shards[index]?.map fun shard =>
        match r.clients.lookup shard.name with
        | none => .error (.config s!"shard `{shard.name}` has no client")
        | some client => .ok (shard.name, client)

inductive RouterCall (Client : Type)
  | new (catalog : ShardCatalog) (clients : List (String × Client))
  | reload (catalog : ShardCatalog)

/-- A call that fails leaves what there was. -/
def routerStep : Option (Router Client) → RouterCall Client → Option (Option (Router Client))
  | r, .new catalog clients =>
    match Router.new catalog clients with
    | .error _ => some r
    | .ok r' => some (some r')
  | none, .reload _ => none
  | some r, .reload catalog => some (some (r.reload catalog).2)

/-! ### Every router is sound -/

structure Router.Sound (r : Router Client) : Prop where
  valid : r.catalog.validate = .ok ()
  present : ∀ t ∈ r.catalog.tables, ∀ shard ∈ t.shards, shard.name ∈ r.clients.map Prod.fst

theorem new_sound {catalog : ShardCatalog} {clients : List (String × Client)} {r : Router Client}
    (h : Router.new catalog clients = .ok r) : r.Sound := by
  obtain ⟨_, hvalid, hrest⟩ := bind_eq_ok.1 h
  obtain ⟨_, hclients, hr⟩ := bind_eq_ok.1 hrest
  cases Except.ok.inj hr
  exact ⟨hvalid, validateClients_ok_iff.1 hclients⟩

theorem reload_cases (r : Router Client) (catalog : ShardCatalog) :
    (∃ e, r.reload catalog = (.error e, r)) ∨
    (r.reload catalog = (.ok (), { r with catalog }) ∧ catalog.validate = .ok () ∧
      validateClients catalog (r.clients.map Prod.fst) = .ok ()) := by
  unfold Router.reload
  cases hcheck : (do
      catalog.validate
      validateClients catalog (r.clients.map Prod.fst)) with
  | error e => exact .inl ⟨e, rfl⟩
  | ok u =>
    obtain ⟨_, hvalid, hclients⟩ := bind_eq_ok.1 hcheck
    exact .inr ⟨rfl, hvalid, hclients⟩

theorem Router.Sound.reload {r : Router Client} (h : r.Sound) (catalog : ShardCatalog) :
    (r.reload catalog).2.Sound := by
  rcases reload_cases r catalog with ⟨e, heq⟩ | ⟨heq, hvalid, hclients⟩
  · rw [heq]
    exact h
  · rw [heq]
    exact ⟨hvalid, validateClients_ok_iff.1 hclients⟩

theorem routerStep_sound (s : Option (Router Client)) (call : RouterCall Client) (s' : Option (Router Client))
    (h : ∀ r ∈ s, r.Sound) (hstep : routerStep s call = some s') : ∀ r ∈ s', r.Sound := by
  intro r hr
  cases call with
  | new catalog clients =>
    cases hnew : Router.new catalog clients with
    | error e =>
      have hs : s = s' := by simpa [routerStep, hnew] using hstep
      exact h r (hs ▸ hr)
    | ok r' =>
      have hs : some r' = s' := by simpa [routerStep, hnew] using hstep
      have hrr : r' = r := by simpa [← hs] using hr
      exact hrr ▸ new_sound hnew
  | reload catalog =>
    cases s with
    | none => simp [routerStep] at hstep
    | some old =>
      have hs : some (old.reload catalog).2 = s' := by simpa [routerStep] using hstep
      have hrr : (old.reload catalog).2 = r := by simpa [← hs] using hr
      exact hrr ▸ (h old rfl).reload catalog

theorem reachable_sound {calls : List (RouterCall Client)} {r : Router Client}
    (hrun : runFrom routerStep none calls = some (some r)) : r.Sound :=
  reach_invariant (P := fun s => ∀ r ∈ s, r.Sound) (by simp) routerStep_sound hrun r rfl

/-! ### The range of a key -/

/-- The bounds of the `i`-th range hold the key; the first and the last range are open at their ends. -/
def Within (boundaries : List Int) (key : Int) (i : Nat) : Prop :=
  (∀ b, 0 < i → boundaries[i - 1]? = some b → b ≤ key) ∧ ∀ b, boundaries[i]? = some b → key < b

theorem within_iff {boundaries : List Int} (h : boundaries.IsChain (· < ·)) {key : Int} {i : Nat}
    (hi : i ≤ boundaries.length) : Within boundaries key i ↔ i = partitionPoint (· ≤ key) boundaries := by
  induction boundaries generalizing i with
  | nil =>
    have hzero : i = 0 := by simpa using hi
    simp [hzero, Within, partitionPoint]
  | cons b bs ih =>
    have hsorted := List.pairwise_cons.1 (List.isChain_iff_pairwise.1 h)
    have hrest := List.isChain_iff_pairwise.2 hsorted.2
    by_cases hle : b ≤ key
    · have hpoint : partitionPoint (· ≤ key) (b :: bs) = partitionPoint (· ≤ key) bs + 1 := by
        simp [partitionPoint, hle]
      rw [hpoint]
      cases i with
      | zero =>
        constructor
        · intro hwithin
          have hlt := hwithin.2 b rfl
          omega
        · intro heq
          omega
      | succ j =>
        have hj : j ≤ bs.length := by simpa using hi
        rw [Nat.add_right_cancel_iff, ← ih hrest hj]
        constructor
        · intro hwithin
          refine ⟨?_, fun c hc => hwithin.2 c (by simpa using hc)⟩
          intro c hpos hc
          apply hwithin.1 c (Nat.succ_pos j)
          obtain ⟨k, rfl⟩ := Nat.exists_eq_succ_of_ne_zero hpos.ne'
          simpa using hc
        · intro hwithin
          refine ⟨?_, fun c hc => hwithin.2 c (by simpa using hc)⟩
          intro c _ hc
          cases j with
          | zero =>
            have hbc : b = c := by simpa using hc
            omega
          | succ k => exact hwithin.1 c (Nat.succ_pos k) (by simpa using hc)
    · have hpoint : partitionPoint (· ≤ key) (b :: bs) = 0 := by simp [partitionPoint, hle]
      rw [hpoint]
      constructor
      · intro hwithin
        by_contra hne
        obtain ⟨j, rfl⟩ := Nat.exists_eq_succ_of_ne_zero hne
        have hj : j < (b :: bs).length := hi
        have hlow := hwithin.1 _ (Nat.succ_pos j) (List.getElem?_eq_getElem hj)
        have hge : b ≤ (b :: bs)[j] := by
          cases j with
          | zero => exact le_refl b
          | succ k => exact (hsorted.1 _ (List.getElem_mem _)).le
        omega
      · rintro rfl
        refine ⟨fun c hpos _ => absurd hpos (lt_irrefl 0), ?_⟩
        intro c hc
        have hbc : b = c := by simpa using hc
        omega

/-! ### What a key is bound to -/

theorem lookup_of_mem {clients : List (String × Client)} {name : String}
    (h : name ∈ clients.map Prod.fst) : ∃ client, clients.lookup name = some client := by
  obtain ⟨⟨other, client⟩, hmem, rfl⟩ := List.mem_map.1 h
  apply Option.isSome_iff_exists.1
  exact List.lookup_isSome_iff.2 ⟨(other, client), hmem, by simp⟩

theorem shardFor_lt {t : ShardTable} {key : Value} {i : Nat} (h : t.shardFor key = .ok i) :
    i < t.shards.length := by
  obtain ⟨hcheck, -, ⟨shards, hash, halg, -, rfl⟩ | ⟨boundaries, fits, id, halg, -, rfl⟩⟩ := shardFor_cases h
  · rw [halg, checkAlgorithm] at hcheck
    split_ifs at hcheck with hbad
    have hpos : shards ≠ 0 := fun hzero => hbad (.inl hzero)
    have hlen : shards = t.shards.length := by
      by_contra hne
      exact hbad (.inr hne)
    rw [← hlen]
    exact Nat.mod_lt _ (Nat.pos_of_ne_zero hpos)
  · rw [halg, checkAlgorithm] at hcheck
    split_ifs at hcheck with hlen hsorted
    have hle : partitionPoint (· ≤ id) boundaries ≤ boundaries.length :=
      (List.takeWhile_prefix _).length_le
    omega

theorem shardFor_within {t : ShardTable} {key : Value} {i : Nat} (h : t.shardFor key = .ok i)
    {boundaries : List Int} {fits : ∀ b ∈ boundaries, InI64 b} (halg : t.algorithm = .range boundaries fits) :
    ∃ id, key.asI64 = some id ∧ ∀ j < t.shards.length, Within boundaries id j ↔ j = i := by
  obtain ⟨hcheck, -, ⟨shards, hash, halg', -, -⟩ | ⟨boundaries', fits', id, halg', hid, rfl⟩⟩ := shardFor_cases h
  · rw [halg] at halg'
    cases halg'
  · rw [halg] at halg'
    cases halg'
    refine ⟨id, hid, ?_⟩
    intro j hj
    rw [halg, checkAlgorithm] at hcheck
    split_ifs at hcheck with hlen hsorted
    exact within_iff hsorted (by omega)

theorem checkAlgorithm_text {table : String} {algorithm : ShardAlgorithm} {endpoints : Nat} {text : String}
    (h : checkAlgorithm table algorithm endpoints = .error (.config text)) : ∃ rest, text = "table `" ++ rest := by
  unfold checkAlgorithm at h
  cases algorithm with
  | hashMod shards =>
    simp only at h
    split_ifs at h
    cases h
  | range boundaries fits =>
    simp only at h
    split_ifs at h with hlen hsorted
    · cases h
    · cases h
      exact ⟨table ++ "` range boundaries must be strictly increasing", by simp [String.append_assoc, toString]⟩

theorem shardFor_text {c : ShardCatalog} {table : String} {key : Value} {text : String}
    (h : c.shardFor table key = .error (.config text)) : ∃ rest, text = "table `" ++ rest := by
  unfold ShardCatalog.shardFor ShardCatalog.table at h
  cases hfind : c.tables.find? (·.name = table) with
  | none =>
    rw [hfind] at h
    cases h
  | some t =>
  rw [hfind] at h
  change t.shardFor key = _ at h
  unfold ShardTable.shardFor at h
  cases hcheck : checkAlgorithm t.name t.algorithm t.shards.length with
  | error e =>
    rw [hcheck] at h
    cases h
    exact checkAlgorithm_text hcheck
  | ok u =>
    rw [hcheck] at h
    change (if key.isNull then _ else _) = _ at h
    cases hnull : key.isNull with
    | true =>
      rw [hnull] at h
      cases h
    | false =>
    rw [hnull] at h
    simp only [Bool.false_eq_true, if_false] at h
    cases halg : t.algorithm with
    | hashMod shards =>
      rw [halg] at h
      cases key with
      | null => cases hnull
      | _ => cases h
    | range boundaries fits =>
      rw [halg] at h
      simp only at h
      cases hkey : key.asI64 with
      | some id =>
        rw [hkey] at h
        cases h
      | none =>
        rw [hkey] at h
        simp only at h
        split_ifs at h
        · cases h
        · cases h
          exact ⟨t.name ++ "` range shard key must be an integer", by simp [String.append_assoc, toString]⟩

theorem shardFor_not_missing {c : ShardCatalog} {table : String} {key : Value} (name : String) :
    c.shardFor table key ≠ .error (.config s!"shard `{name}` has no client") := by
  intro h
  obtain ⟨rest, hrest⟩ := shardFor_text h
  have hfirst := congrArg (fun text => text.toList.head?) hrest
  simp [String.toList_append, toString] at hfirst

/-- Over every history of loads a reload that fails changes the routing of no key, and a key that has a
shard is bound to that shard: its number is one of the table's shards, in a range table the only one
whose bounds hold the key, and its client is there. -/
theorem routes_to_own_shard {calls : List (RouterCall Client)} {r : Router Client}
    (hrun : runFrom routerStep none calls = some (some r)) :
    (∀ catalog e, (r.reload catalog).1 = .error e → ∀ table key,
      (r.reload catalog).2.shardFor table key = r.shardFor table key ∧
      (r.reload catalog).2.forKeyWithShard table key = r.forKeyWithShard table key) ∧
    ∀ t table key, r.catalog.table table = .ok t →
      (∀ e, r.shardFor table key = .error e →
        r.forKeyWithShard table key = some (.error e) ∧
          ∀ name : String, e ≠ .config s!"shard `{name}` has no client") ∧
      ∀ i, r.shardFor table key = .ok i → i < t.shards.length ∧
        (∀ boundaries fits, t.algorithm = .range boundaries fits →
          ∃ id, key.asI64 = some id ∧ ∀ j < t.shards.length, Within boundaries id j ↔ j = i) ∧
        ∃ shard client, t.shards[i]? = some shard ∧ r.clients.lookup shard.name = some client ∧
          r.forKeyWithShard table key = some (.ok (shard.name, client)) := by
  have hsound := reachable_sound hrun
  constructor
  · intro catalog e herror table key
    rcases reload_cases r catalog with ⟨e', heq⟩ | ⟨heq, -, -⟩
    · rw [heq]
      exact ⟨rfl, rfl⟩
    · rw [heq] at herror
      cases herror
  intro t table key ht
  constructor
  · intro e he
    refine ⟨?_, fun name hname => shardFor_not_missing name (hname ▸ he)⟩
    have he' : r.catalog.shardFor table key = .error e := he
    rw [Router.forKeyWithShard, he']
  · intro i hi
    have hi' : r.catalog.shardFor table key = .ok i := hi
    have hown : t.shardFor key = .ok i := by
      rw [ShardCatalog.shardFor, ht] at hi'
      exact hi'
    have hlt := shardFor_lt hown
    refine ⟨hlt, fun boundaries fits halg => shardFor_within hown halg, ?_⟩
    have hmem := ((table_ok_iff hsound.valid).1 ht).1
    obtain ⟨client, hclient⟩ := lookup_of_mem (hsound.present t hmem _ (List.getElem_mem hlt))
    have hget := List.getElem?_eq_getElem hlt
    refine ⟨t.shards[i], client, hget, hclient, ?_⟩
    simp only [Router.forKeyWithShard, hi', ht, hget, Option.map_some, hclient]

def servers : List (String × Nat) := [("s0", 0), ("s1", 1)]

/-- The last catalog is turned down: it asks for a shard that has no client. -/
def loads : List (RouterCall Nat) := [.new narrowOrders servers, .reload halfOrders, .reload wideOrders]

theorem routes_to_own_shard_half : runFrom routerStep none loads = some (some ⟨halfOrders, servers⟩) ∧
    ∃ r : Router Nat, r = ⟨halfOrders, servers⟩ ∧
      (∃ e, (r.reload wideOrders).1 = .error e) ∧
      (r.reload wideOrders).2.forKeyWithShard "orders" (.ofI64 70 (by decide)) =
        r.forKeyWithShard "orders" (.ofI64 70 (by decide)) ∧
      r.shardFor "orders" (.ofI64 70 (by decide)) = .ok 1 ∧ (∀ j < 2, Within [50] 70 j ↔ j = 1) ∧
      r.forKeyWithShard "orders" (.ofI64 70 (by decide)) = some (.ok ("s1", 1)) := by
  have hrun : runFrom routerStep none loads = some (some ⟨halfOrders, servers⟩) := by rfl
  have hfailed : ((⟨halfOrders, servers⟩ : Router Nat).reload wideOrders).1 =
      .error (.config "table `orders` shard `s2` has no client") := by rfl
  have hone : (⟨halfOrders, servers⟩ : Router Nat).shardFor "orders" (.ofI64 70 (by decide)) = .ok 1 := by rfl
  obtain ⟨hreload, hroutes⟩ := routes_to_own_shard hrun
  obtain ⟨-, hrange, shard, client, hshard, hclient, hfor⟩ := (hroutes _ "orders" _ rfl).2 1 hone
  obtain ⟨id, hid, hwithin⟩ := hrange [50] (by decide) rfl
  obtain rfl : 70 = id := Option.some.inj hid
  obtain rfl : ⟨"s1", none⟩ = shard := Option.some.inj hshard
  obtain rfl : 1 = client := Option.some.inj hclient
  exact ⟨hrun, _, rfl, ⟨_, hfailed⟩, (hreload _ _ hfailed "orders" _).2, hone, hwithin, hfor⟩

end Ecat.Shard
