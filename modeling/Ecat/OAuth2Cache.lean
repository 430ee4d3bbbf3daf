import Ecat.OAuth2Model

/-! The cache of introspection answers over any calls side by side: its queue holds its keys, it
stays within its capacity, and what it answers was recorded for that token not long ago. -/

namespace Ecat.OAuth2

open Json

/-! ### The queue and the entries -/

/-- The queue holds each key of the cache once, and no other key. -/
structure IntrospectCache.InStep (c : IntrospectCache) : Prop where
  nodup : c.order.Nodup
  mem : ∀ key, key ∈ c.order ↔ key ∈ c.entries

namespace IntrospectCache

variable {c : IntrospectCache}

theorem new_inStep : new.InStep := ⟨List.nodup_nil, fun key => by simp [new]⟩

theorem InStep.length (h : c.InStep) : c.order.length = c.size := by
  have hperm : c.order.Perm c.entries.keys :=
    (List.perm_ext_iff_of_nodup h.nodup c.entries.keys_nodup).2 fun key => by
      rw [h.mem key, AList.mem_keys]
  exact hperm.length_eq

theorem mem_entries_retain {p : String → Entry → Bool} {entries : AList (fun _ : String => Entry)} {key : String}
    (h : key ∈ retain p entries) : key ∈ entries := by
  obtain ⟨e, he⟩ := Option.isSome_iff_exists.1 (AList.lookup_isSome.2 h)
  exact AList.lookup_isSome.1 (Option.isSome_iff_exists.2 ⟨e, (mem_retain.1 he).1⟩)

theorem InStep.purgeExpired (h : c.InStep) (ttl : Nat) (now : String → Nat) : (c.purgeExpired ttl now).InStep := by
  refine ⟨h.nodup.filter _, ?_⟩
  intro key
  constructor
  · intro hmem
    exact of_decide_eq_true (List.mem_filter.1 hmem).2
  · intro hmem
    apply List.mem_filter.2
    exact ⟨(h.mem key).2 (mem_entries_retain hmem), decide_eq_true hmem⟩

theorem purgeExpired_size (c : IntrospectCache) (ttl : Nat) (now : String → Nat) :
    (c.purgeExpired ttl now).size ≤ c.size := by
  have hsub : (c.purgeExpired ttl now).entries.keys.Sublist c.entries.keys := List.filter_sublist.map _
  exact hsub.length_le

theorem InStep.evict (h : c.InStep) (capacity : Nat) : (c.evict capacity).InStep := by
  unfold IntrospectCache.evict
  split_ifs with hfull
  · split
    next => exact h
    next oldest order horder =>
      have hnodup := h.nodup
      rw [horder, List.nodup_cons] at hnodup
      refine ⟨hnodup.2, ?_⟩
      intro key
      have hmem := h.mem key
      rw [horder, List.mem_cons] at hmem
      rw [AList.mem_erase, ← hmem]
      constructor
      · intro hkey
        exact ⟨fun heq => hnodup.1 (heq ▸ hkey), .inr hkey⟩
      · rintro ⟨hne, rfl | hkey⟩
        · exact absurd rfl hne
        · exact hkey
  · exact h

/-- Once evicted, a cache within its capacity has room for one more key. -/
theorem InStep.evict_size (h : c.InStep) {capacity : Nat} (hpos : 1 ≤ capacity) (hle : c.size ≤ capacity) :
    (c.evict capacity).size < capacity := by
  unfold IntrospectCache.evict
  split_ifs with hfull
  · have hlength := h.length
    split
    next horder =>
      rw [horder] at hlength
      simp only [List.length_nil] at hlength
      omega
    next oldest order horder =>
      have holdest : oldest ∈ c.entries.keys := (h.mem oldest).1 (by rw [horder]; exact List.mem_cons_self)
      have hlen := List.length_erase_of_mem holdest
      have hkeys : (c.entries.erase oldest).keys.length = c.entries.keys.length - 1 := by
        rw [AList.keys_erase, hlen]
      change (c.entries.erase oldest).keys.length < capacity
      have hsize : c.size = c.entries.keys.length := rfl
      omega
  · exact Nat.lt_of_not_le hfull

theorem evict_lookup {capacity : Nat} {key : String} {e : Entry}
    (h : (c.evict capacity).entries.lookup key = some e) : c.entries.lookup key = some e := by
  unfold IntrospectCache.evict at h
  split_ifs at h with hfull
  · split at h
    next => exact h
    next oldest order horder =>
      by_cases heq : key = oldest
      · subst heq
        rw [AList.lookup_erase] at h
        cases h
      · rwa [AList.lookup_erase_ne heq] at h
  · exact h

theorem mem_of_evict {capacity : Nat} {key : String} (h : key ∈ (c.evict capacity).entries) : key ∈ c.entries := by
  obtain ⟨e, he⟩ := Option.isSome_iff_exists.1 (AList.lookup_isSome.2 h)
  exact AList.lookup_isSome.1 (Option.isSome_iff_exists.2 ⟨e, evict_lookup he⟩)

/-- The key takes its place in the queue, and its entry is written. -/
theorem InStep.put (h : c.InStep) (key : String) (capacity : Nat) (e : Entry) : (c.put key capacity e).InStep := by
  unfold IntrospectCache.put IntrospectCache.enqueue
  split_ifs with hkey
  · refine ⟨h.nodup, ?_⟩
    intro other
    rw [h.mem other, AList.mem_insert]
    constructor
    · exact .inr
    · rintro (rfl | hother)
      · exact hkey
      · exact hother
  · have hevict := h.evict capacity
    have hfresh : key ∉ (c.evict capacity).order := fun hmem =>
      hkey (mem_of_evict ((hevict.mem key).1 hmem))
    constructor
    · exact List.nodup_append.2 ⟨hevict.nodup, List.nodup_singleton key, by
        intro a ha b hb hab
        rw [List.mem_singleton.1 hb] at hab
        exact hfresh (hab ▸ ha)⟩
    · intro other
      rw [List.mem_append, hevict.mem other, AList.mem_insert, List.mem_singleton, or_comm]

theorem InStep.put_size (h : c.InStep) {capacity : Nat} (hpos : 1 ≤ capacity) (hle : c.size ≤ capacity)
    (key : String) (e : Entry) : (c.put key capacity e).size ≤ capacity := by
  change ((c.enqueue key capacity).entries.insert key e).keys.length ≤ capacity
  unfold IntrospectCache.enqueue
  rw [AList.keys_insert, List.length_cons]
  split_ifs with hkey
  · have hlen := List.length_erase_of_mem (AList.mem_keys.1 hkey)
    have hpos := List.length_pos_of_mem (AList.mem_keys.1 hkey)
    have hsize : c.size = c.entries.keys.length := rfl
    omega
  · have hlt := h.evict_size hpos hle
    have herase : ((c.evict capacity).entries.keys.erase key).length ≤ (c.evict capacity).entries.keys.length :=
      List.length_erase_le
    have hsize : (c.evict capacity).size = (c.evict capacity).entries.keys.length := rfl
    change ((c.evict capacity).entries.keys.erase key).length + 1 ≤ capacity
    omega

theorem enqueue_lookup {key : String} {capacity : Nat} {other : String} {e : Entry}
    (h : (c.enqueue key capacity).entries.lookup other = some e) : c.entries.lookup other = some e := by
  unfold IntrospectCache.enqueue at h
  split_ifs at h with hkey
  · exact h
  · exact evict_lookup h

theorem put_lookup {key : String} {capacity : Nat} {written : Entry} {other : String} {e : Entry}
    (h : (c.put key capacity written).entries.lookup other = some e) :
    (other = key ∧ e = written) ∨ c.entries.lookup other = some e := by
  by_cases hother : other = key
  · subst hother
    rw [IntrospectCache.put, AList.lookup_insert] at h
    exact .inl ⟨rfl, (Option.some.inj h).symm⟩
  · rw [IntrospectCache.put, AList.lookup_insert_ne hother] at h
    exact .inr (enqueue_lookup h)

variable {layer : OAuth2Layer} {purged : String → Nat}

theorem InStep.purgeNearFull (h : c.InStep) : (c.purgeNearFull layer purged).InStep := by
  unfold IntrospectCache.purgeNearFull
  split_ifs
  · exact h.purgeExpired _ _
  · exact h

theorem purgeNearFull_size : (c.purgeNearFull layer purged).size ≤ c.size := by
  unfold IntrospectCache.purgeNearFull
  split_ifs
  · exact c.purgeExpired_size _ _
  · exact le_refl _

theorem purgeNearFull_lookup {key : String} {e : Entry}
    (h : (c.purgeNearFull layer purged).entries.lookup key = some e) : c.entries.lookup key = some e := by
  unfold IntrospectCache.purgeNearFull at h
  split_ifs at h
  · exact (mem_retain.1 h).1
  · exact h

end IntrospectCache

/-! ### Recording an answer -/

section

variable {cacheKey : String → String} {layer : OAuth2Layer} {c : IntrospectCache}

theorem record_inStep (h : c.InStep) (token : String) (claims : AuthClaims) (purged : String → Nat) (now : Nat) :
    (record cacheKey layer c token claims purged now).InStep := by
  unfold record
  split_ifs with httl
  · exact h.purgeNearFull.put _ _ _
  · exact h

theorem record_size (h : c.InStep) (hle : c.size ≤ layer.capacity) (token : String) (claims : AuthClaims)
    (purged : String → Nat) (now : Nat) :
    (record cacheKey layer c token claims purged now).size ≤ layer.capacity := by
  unfold record
  split_ifs with httl
  · apply h.purgeNearFull.put_size layer.capacity_pos
    exact IntrospectCache.purgeNearFull_size.trans hle
  · exact hle

/-- What the cache holds after a call is the call's own answer, or was there before. -/
theorem record_lookup {token : String} {claims : AuthClaims} {purged : String → Nat} {now : Nat} {key : String}
    {e : Entry} (h : (record cacheKey layer c token claims purged now).entries.lookup key = some e) :
    (key = cacheKey token ∧ e = ⟨filterClaims claims layer.whitelist, now⟩) ∨ c.entries.lookup key = some e := by
  unfold record at h
  split_ifs at h with httl
  · rcases IntrospectCache.put_lookup h with hown | hold
    · exact .inl hown
    · exact .inr (IntrospectCache.purgeNearFull_lookup hold)
  · exact .inr h

theorem filterClaims_extra {claims : AuthClaims} {whitelist : List String} (h : "*" ∉ whitelist)
    {f : String × Value} (hf : f ∈ (filterClaims claims whitelist).extra) : f.1 ∈ whitelist := by
  rw [filterClaims, if_neg h] at hf
  exact of_decide_eq_true (List.mem_filter.1 hf).2

theorem cached_of_entry {token : String} {now : Nat} {e : Entry} (httl : 0 < layer.ttlSecs)
    (he : c.entries.lookup (cacheKey token) = some e) (hage : now - e.cachedAt < layer.ttl) :
    cached cacheKey layer c token now = some e.claims := by
  rw [cached, if_pos httl, he]
  exact if_pos hage

theorem cached_eq_some {token : String} {now : Nat} {claims : AuthClaims}
    (h : cached cacheKey layer c token now = some claims) :
    ∃ e, c.entries.lookup (cacheKey token) = some e ∧ now - e.cachedAt < layer.ttl ∧ e.claims = claims := by
  unfold cached at h
  split_ifs at h with httl
  split at h
  next e he =>
    split_ifs at h with hage
    exact ⟨e, he, hage, Option.some.inj h⟩
  next => cases h

end

/-! ### Over every run -/

section

variable {cacheKey : String → String} {layer : OAuth2Layer} {parse : List UInt8 → Except String Value}

/-- The provider answered, and its answer says that the token is active. -/
structure Active (parse : List UInt8 → Except String Value) (reply : Except String Response) (body : Value) :
    Prop where
  read : ∃ resp bytes, reply = .ok resp ∧ resp.success = true ∧ readBody [] resp.chunks = .ok bytes ∧
    parse bytes = .ok body
  active : (field body "active").bind asBool = some true

theorem answerOf_reply {resp : Response} {claims : AuthClaims} :
    answerOf parse (.ok resp) = .ok claims ↔ resp.success = true ∧ ∃ bytes, readBody [] resp.chunks = .ok bytes ∧
      ∃ body, parse bytes = .ok body ∧ claimsOf body = .ok claims := by
  unfold answerOf
  cases hsuccess : resp.success with
  | false => simp [hsuccess]
  | true =>
    cases hread : readBody [] resp.chunks with
    | error e => simp [hsuccess, hread, bind, Except.bind]
    | ok bytes => cases hparse : parse bytes <;> simp [hsuccess, hread, hparse, bind, Except.bind]

theorem answerOf_ok {reply : Except String Response} {claims : AuthClaims} (h : answerOf parse reply = .ok claims) :
    ∃ body, Active parse reply body ∧ claimsOf body = .ok claims := by
  cases reply with
  | error e => cases h
  | ok resp =>
    obtain ⟨hsuccess, bytes, hread, body, hparse, hclaims⟩ := answerOf_reply.1 h
    refine ⟨body, ⟨⟨resp, bytes, rfl, hsuccess, hread, hparse⟩, ?_⟩, hclaims⟩
    by_contra hnot
    have hfalse : ((field body "active").bind asBool).getD false = false := by
      cases hactive : (field body "active").bind asBool with
      | none => rfl
      | some flag =>
        cases flag with
        | false => rfl
        | true => exact absurd hactive hnot
    rw [claimsOf, hfalse] at hclaims
    cases hclaims

/-- The entry holds what was recorded of an answer for a token of that key. -/
def Backed (cacheKey : String → String) (layer : OAuth2Layer) (parse : List UInt8 → Except String Value)
    (s : State) (key : String) (e : Entry) : Prop :=
  ∃ r ∈ s.recorded, cacheKey r.token = key ∧ r.recordedAt = e.cachedAt ∧ r.receivedAt ≤ r.recordedAt ∧
    ∃ full, answerOf parse r.reply = .ok full ∧ e.claims = filterClaims full layer.whitelist

structure Kept (cacheKey : String → String) (layer : OAuth2Layer) (parse : List UInt8 → Except String Value)
    (s : State) : Prop where
  inStep : s.cache.InStep
  size : s.cache.size ≤ layer.capacity
  received : ∀ id token time reply, s.calls id = some (.answered token time reply) → time ≤ s.clock
  recorded : ∀ r ∈ s.recorded, r.recordedAt ≤ s.clock
  backed : ∀ key e, s.cache.entries.lookup key = some e → Backed cacheKey layer parse s key e

theorem init_kept : Kept cacheKey layer parse .init where
  inStep := IntrospectCache.new_inStep
  size := Nat.zero_le _
  received := by
    intro id token time reply h
    cases h
  recorded := by
    intro r hr
    cases hr
  backed := by
    intro key e h
    cases h

theorem Kept.receive {s : State} (h : Kept cacheKey layer parse s) {now : Nat} (hnow : s.clock ≤ now)
    {id : Nat} {token : String} {reply : Except String Response} :
    Kept cacheKey layer parse (s.receive id token reply now) where
  inStep := h.inStep
  size := h.size
  received := by
    intro other token' time' reply' hother
    by_cases heq : other = id
    · subst heq
      simp only [State.receive, Function.update_self, Option.some.injEq, Call.answered.injEq] at hother
      exact hother.2.1 ▸ le_refl now
    · simp only [State.receive, Function.update_of_ne heq] at hother
      exact (h.received other token' time' reply' hother).trans hnow
  recorded := fun r hr => (h.recorded r hr).trans hnow
  backed := h.backed

theorem Kept.look {s : State} (h : Kept cacheKey layer parse s) {now : Nat} (hnow : s.clock ≤ now) {id : Nat}
    {token : String} : Kept cacheKey layer parse (s.look cacheKey layer id token now) := by
  unfold State.look
  split
  · exact ⟨h.inStep, h.size, fun id token time reply hcall => (h.received id token time reply hcall).trans hnow,
      fun r hr => (h.recorded r hr).trans hnow, h.backed⟩
  · refine ⟨h.inStep, h.size, ?_, fun r hr => (h.recorded r hr).trans hnow, h.backed⟩
    intro other token' time' reply' hother
    by_cases heq : other = id
    · subst heq
      simp at hother
    · simp only [Function.update_of_ne heq] at hother
      exact (h.received other token' time' reply' hother).trans hnow

theorem Kept.finish {s : State} (h : Kept cacheKey layer parse s) {now : Nat} (hnow : s.clock ≤ now) {id : Nat}
    {token : String} {receivedAt : Nat} {reply : Except String Response}
    (hcall : s.calls id = some (.answered token receivedAt reply)) {purged : String → Nat} :
    Kept cacheKey layer parse (s.finish cacheKey layer parse id token receivedAt reply purged now) := by
  have hcalls : ∀ other token' time' reply',
      Function.update s.calls id none other = some (.answered token' time' reply') → time' ≤ now := by
    intro other token' time' reply' hother
    by_cases heq : other = id
    · subst heq
      simp at hother
    · rw [Function.update_of_ne heq] at hother
      exact (h.received other token' time' reply' hother).trans hnow
  unfold State.finish
  split
  · exact ⟨h.inStep, h.size, hcalls, fun r hr => (h.recorded r hr).trans hnow, h.backed⟩
  next claims hanswer =>
    refine ⟨record_inStep h.inStep _ _ _ _, record_size h.inStep h.size _ _ _ _, hcalls, ?_, ?_⟩
    · intro r hr
      rcases List.mem_append.1 hr with hr | hr
      · exact (h.recorded r hr).trans hnow
      · rw [List.mem_singleton.1 hr]
    · intro key e he
      rcases record_lookup he with ⟨rfl, rfl⟩ | hold
      · have hreceived := (h.received id token receivedAt reply hcall).trans hnow
        exact ⟨_, List.mem_append_right _ (List.mem_singleton_self _), rfl, rfl, hreceived, claims, hanswer, rfl⟩
      · obtain ⟨r, hr, hrest⟩ := h.backed key e hold
        exact ⟨r, List.mem_append_left _ hr, hrest⟩

theorem step_kept (s : State) (a : Act) (t : State) (h : Kept cacheKey layer parse s)
    (hstep : step cacheKey layer parse s a = some t) : Kept cacheKey layer parse t := by
  cases a with
  | look id token now =>
    obtain ⟨hnow, -, rfl⟩ := look_step hstep
    exact h.look hnow
  | receive id reply now =>
    obtain ⟨token, -, hnow, rfl⟩ := receive_step hstep
    exact h.receive hnow
  | finish id purged now =>
    obtain ⟨token, receivedAt, reply, hcall, hnow, rfl⟩ := finish_step hstep
    exact h.finish hnow hcall

/-- In every state that calls side by side lead to, the queue holds each cached key once and no other,
the cache is within its capacity, its extra claims are on the whitelist unless that has `*`, and what it
answers for a token is what was recorded, less than the time to live ago, of an active answer for it. -/
theorem cache_sound (hkey : Function.Injective cacheKey) {acts : List Act} {s : State}
    (hrun : runFrom (step cacheKey layer parse) .init acts = some s) :
    s.cache.order.Nodup ∧ (∀ key, key ∈ s.cache.order ↔ key ∈ s.cache.entries) ∧
    s.cache.size ≤ layer.capacity ∧
    ("*" ∉ layer.whitelist → ∀ key e, s.cache.entries.lookup key = some e →
      ∀ f ∈ e.claims.extra, f.1 ∈ layer.whitelist) ∧
    ∀ token now claims, s.clock ≤ now → cached cacheKey layer s.cache token now = some claims →
      ∃ r ∈ s.recorded, r.token = token ∧ r.receivedAt ≤ r.recordedAt ∧ now < r.recordedAt + layer.ttl ∧
        ∃ body full, Active parse r.reply body ∧ claimsOf body = .ok full ∧
          claims = filterClaims full layer.whitelist := by
  have hkept := reach_invariant init_kept step_kept hrun
  refine ⟨hkept.inStep.nodup, hkept.inStep.mem, hkept.size, ?_, ?_⟩
  · intro hstar key e he f hf
    obtain ⟨r, -, -, -, -, full, -, hclaims⟩ := hkept.backed key e he
    rw [hclaims] at hf
    exact filterClaims_extra hstar hf
  · intro token now claims hnow hcached
    obtain ⟨e, he, hage, rfl⟩ := cached_eq_some hcached
    obtain ⟨r, hr, hrkey, hrecorded, hreceived, full, hanswer, hclaims⟩ := hkept.backed _ e he
    obtain ⟨body, hactive, hfull⟩ := answerOf_ok hanswer
    have hclock := hkept.recorded r hr
    refine ⟨r, hr, hkey hrkey, hreceived, ?_, body, full, hactive, hfull, hclaims⟩
    omega

end

def activeBody : Value :=
  .object [("active", .bool true), ("sub", .string "u"), ("exp", .ofI64 100 (by decide)), ("email", .string "e")]

def parseActive (_ : List UInt8) : Except String Value := .ok activeBody

def okReply : Except String Response := .ok ⟨true, "200 OK", []⟩

/-- One call: the reply is there at once, and it is recorded at the given time. -/
def oneCall (now : Nat) : List Act := [.look 0 "t" 0, .receive 0 okReply 0, .finish 0 (fun _ => 0) now]

theorem age_before_ttl : 302 * second - 5 * second < OAuth2Layer.new.ttl := by
  simp [OAuth2Layer.ttl, OAuth2Layer.new, second]

/-- The answer to one call is recorded, and a second call finds it. -/
theorem cache_sound_oneCall : ∃ s claims, runFrom (step id .new parseActive) .init (oneCall 5) = some s ∧
    cached id .new s.cache "t" (100 * second) = some claims ∧
    s.cache.order.Nodup ∧ (∀ key, key ∈ s.cache.order ↔ key ∈ s.cache.entries) ∧
    s.cache.size ≤ OAuth2Layer.new.capacity ∧
    (∀ key e, s.cache.entries.lookup key = some e → ∀ f ∈ e.claims.extra, f.1 ∈ OAuth2Layer.new.whitelist) ∧
    ∃ r ∈ s.recorded, r.token = "t" ∧ r.receivedAt ≤ r.recordedAt ∧ 100 * second < r.recordedAt + OAuth2Layer.new.ttl ∧
      ∃ body full, Active parseActive r.reply body ∧ claimsOf body = .ok full ∧
        claims = filterClaims full OAuth2Layer.new.whitelist := by
  have hinj : Function.Injective (id : String → String) := Function.injective_id
  have hrun : runFrom (step id .new parseActive) .init (oneCall 5) = some _ := rfl
  have hage : 100 * second - 5 < OAuth2Layer.new.ttl := by
    simp [OAuth2Layer.ttl, OAuth2Layer.new, second]
  obtain ⟨hnodup, hmem, hsize, hlisted, hhit⟩ := cache_sound hinj hrun
  refine ⟨_, _, hrun, cached_of_entry (by decide) rfl hage, hnodup, hmem, hsize, hlisted (by decide), ?_⟩
  exact hhit "t" (100 * second) _ (by decide) (cached_of_entry (by decide) rfl hage)

/-- With `*` on the whitelist the cache keeps a field that is not on it, and the age of an entry counts
from its recording, which may come long after the answer. -/
theorem cache_strays :
    (¬ ∀ (cacheKey : String → String) (layer : OAuth2Layer) (parse : List UInt8 → Except String Value)
        (acts : List Act) (s : State), Function.Injective cacheKey →
        runFrom (step cacheKey layer parse) .init acts = some s →
        ∀ key e, s.cache.entries.lookup key = some e → ∀ f ∈ e.claims.extra, f.1 ∈ layer.whitelist) ∧
    ¬ ∀ (cacheKey : String → String) (layer : OAuth2Layer) (parse : List UInt8 → Except String Value)
        (acts : List Act) (s : State), Function.Injective cacheKey →
        runFrom (step cacheKey layer parse) .init acts = some s →
        ∀ token now claims, s.clock ≤ now → cached cacheKey layer s.cache token now = some claims →
          ∃ r ∈ s.recorded, r.token = token ∧ now < r.receivedAt + layer.ttl := by
  constructor
  · intro h
    have hmem := h id (OAuth2Layer.new.cacheClaimsWhitelist ["*"]) parseActive (oneCall 5) _
      Function.injective_id rfl "t" _ rfl ("email", .string "e") (List.mem_singleton_self _)
    exact absurd hmem (by decide)
  · intro h
    obtain ⟨r, hr, -, hlt⟩ := h id .new parseActive (oneCall (5 * second)) _ Function.injective_id rfl "t"
      (302 * second) _ (by decide) (cached_of_entry (by decide) rfl age_before_ttl)
    rcases List.mem_singleton.1 hr with rfl
    exact absurd hlt (by simp [OAuth2Layer.ttl, OAuth2Layer.new, second])

end Ecat.OAuth2
