import Ecat.Json
import Ecat.Runs

/-! Token introspection: the answer of the provider, the cache of answers, and the three parts of a
call that other calls may come between. Times are in nanoseconds. -/

namespace Ecat.OAuth2

open Json

def second : Nat := 10 ^ 9

structure AuthClaims where
  sub : String
  exp : Option Nat
  iat : Option Nat
  role : Option String
  extra : List (String × Value)

/-! ### The answer of the provider -/

def field (body : Value) (name : String) : Option Value :=
  match body with
  | .object fields => fields.lookup name
  | _ => none

def asBool : Value → Option Bool
  | .bool flag => some flag
  | _ => none

def asU64 : Value → Option Nat
  | .number (.int n _ _) => if 0 ≤ n then some n.toNat else none
  | _ => none

def structuredFields : List String := ["active", "sub", "role", "client_id", "exp", "iat"]

def extraOf : Value → List (String × Value)
  | .object fields =>
    (fields.filter (·.1 ∉ structuredFields)).foldl (fun extra f => insertField extra f.1 f.2) []
  | _ => []

def claimsOf (body : Value) : Except String AuthClaims :=
  if ((field body "active").bind asBool).getD false then
    match (field body "sub").bind Value.asStr with
    | some sub =>
      if sub = "" then .error "introspection response missing sub"
      else .ok {
        sub
        exp := (field body "exp").bind asU64
        iat := (field body "iat").bind asU64
        role := (field body "role").bind Value.asStr
        extra := extraOf body }
    | none => .error "introspection response missing sub"
  else .error "token is not active"

def introspectBodyLimit : Nat := 1024 * 1024

/-- A response: its status, and its body chunk by chunk, where a read may fail. -/
structure Response where
  success : Bool
  status : String
  chunks : List (Except String (List UInt8))

def readBody (bytes : List UInt8) : List (Except String (List UInt8)) → Except String (List UInt8)
  | [] => .ok bytes
  | .error e :: _ => .error s!"introspection read: {e}"
  | .ok chunk :: chunks =>
    if introspectBodyLimit < bytes.length + chunk.length then
      .error s!"introspection response exceeds {introspectBodyLimit} bytes"
    else readBody (bytes ++ chunk) chunks

/-- What becomes of a reply, or of a request that got none. -/
def answerOf (parse : List UInt8 → Except String Value) (reply : Except String Response) :
    Except String AuthClaims :=
  match reply with
  | .error e => .error s!"introspection request failed: {e}"
  | .ok resp =>
    if resp.success then do
      let bytes ← readBody [] resp.chunks
      match parse bytes with
      | .error e => .error s!"introspection parse: {e}"
      | .ok body => claimsOf body
    else .error s!"introspection returned {resp.status}"

/-! ### The cache -/

structure Entry where
  claims : AuthClaims
  cachedAt : Nat

structure IntrospectCache where
  entries : AList (fun _ : String => Entry)
  order : List String

def IntrospectCache.new : IntrospectCache := ⟨∅, []⟩

def IntrospectCache.size (c : IntrospectCache) : Nat := c.entries.keys.length

def retain (p : String → Entry → Bool) (entries : AList (fun _ : String => Entry)) :
    AList (fun _ : String => Entry) :=
  ⟨entries.entries.filter fun e => p e.1 e.2, entries.nodupKeys.sublist List.filter_sublist⟩

/-- The clock is read for each entry: `now key` is its reading for that of `key`. -/
def IntrospectCache.purgeExpired (c : IntrospectCache) (ttl : Nat) (now : String → Nat) : IntrospectCache :=
  let entries := retain (fun key e => now key - e.cachedAt < ttl) c.entries
  ⟨entries, c.order.filter (· ∈ entries)⟩

def filterClaims (claims : AuthClaims) (whitelist : List String) : AuthClaims :=
  if "*" ∈ whitelist then claims
  else { claims with extra := claims.extra.filter (·.1 ∈ whitelist) }

def cacheCapacity : Nat := 10000

def defaultClaimsWhitelist : List String := ["iss", "aud", "scope", "roles"]

structure OAuth2Layer where
  ttlSecs : Nat
  capacity : Nat
  whitelist : List String
  capacity_pos : 1 ≤ capacity

namespace OAuth2Layer

def new : OAuth2Layer := ⟨300, cacheCapacity, defaultClaimsWhitelist, by decide⟩

def cacheTtl (l : OAuth2Layer) (secs : Nat) : OAuth2Layer := { l with ttlSecs := secs }

def cacheCapacity (l : OAuth2Layer) (n : Nat) : OAuth2Layer :=
  { l with capacity := max n 1, capacity_pos := le_max_right n 1 }

def cacheClaimsWhitelist (l : OAuth2Layer) (keys : List String) : OAuth2Layer := { l with whitelist := keys }

def ttl (l : OAuth2Layer) : Nat := second * l.ttlSecs

end OAuth2Layer

variable (cacheKey : String → String) (layer : OAuth2Layer)

/-- The first part of a call: the entry of the token, while its time has not run out. -/
def cached (c : IntrospectCache) (token : String) (now : Nat) : Option AuthClaims :=
  if 0 < layer.ttlSecs then
    match c.entries.lookup (cacheKey token) with
    | some e => if now - e.cachedAt < layer.ttl then some e.claims else none
    | none => none
  else none

def IntrospectCache.evict (c : IntrospectCache) (capacity : Nat) : IntrospectCache :=
  if capacity ≤ c.size then
    match c.order with
    | [] => c
    | oldest :: order => ⟨c.entries.erase oldest, order⟩
  else c

/-- The place in the queue for a key that has none. -/
def IntrospectCache.enqueue (c : IntrospectCache) (key : String) (capacity : Nat) : IntrospectCache :=
  if key ∈ c.entries then c else { c.evict capacity with order := (c.evict capacity).order ++ [key] }

def IntrospectCache.put (c : IntrospectCache) (key : String) (capacity : Nat) (e : Entry) : IntrospectCache :=
  { c.enqueue key capacity with entries := (c.enqueue key capacity).entries.insert key e }

/-- All entries are looked at only when the cache is nearly full. -/
def IntrospectCache.purgeNearFull (c : IntrospectCache) (purged : String → Nat) : IntrospectCache :=
  if max (layer.capacity * 9 / 10) 1 ≤ c.size then c.purgeExpired layer.ttl purged else c

/-- The last part of a call, under the write lock. -/
def record (c : IntrospectCache) (token : String) (claims : AuthClaims) (purged : String → Nat) (now : Nat) :
    IntrospectCache :=
  if 0 < layer.ttlSecs then
    (c.purgeNearFull layer purged).put (cacheKey token) layer.capacity ⟨filterClaims claims layer.whitelist, now⟩
  else c

/-! ### Calls side by side -/

/-- A call that is in flight: its request is out, or its reply is there. -/
inductive Call
  | asked (token : String)
  | answered (token : String) (receivedAt : Nat) (reply : Except String Response)

/-- An answer that was put in the cache. -/
structure Recorded where
  token : String
  receivedAt : Nat
  recordedAt : Nat
  reply : Except String Response

structure Returned where
  time : Nat
  claims : AuthClaims

structure State where
  clock : Nat
  cache : IntrospectCache
  calls : Nat → Option Call
  recorded : List Recorded
  returned : List Returned

def State.init : State := ⟨0, .new, fun _ => none, [], []⟩

inductive Act
  | look (id : Nat) (token : String) (now : Nat)
  | receive (id : Nat) (reply : Except String Response) (now : Nat)
  | finish (id : Nat) (purged : String → Nat) (now : Nat)

def State.look (s : State) (id : Nat) (token : String) (now : Nat) : State :=
  match cached cacheKey layer s.cache token now with
  | some claims => { s with clock := now, returned := s.returned ++ [⟨now, claims⟩] }
  | none => { s with clock := now, calls := Function.update s.calls id (some (.asked token)) }

def State.receive (s : State) (id : Nat) (token : String) (reply : Except String Response) (now : Nat) : State :=
  { s with clock := now, calls := Function.update s.calls id (some (.answered token now reply)) }

def State.finish (parse : List UInt8 → Except String Value) (s : State) (id : Nat) (token : String)
    (receivedAt : Nat) (reply : Except String Response) (purged : String → Nat) (now : Nat) : State :=
  match answerOf parse reply with
  | .error _ => { s with clock := now, calls := Function.update s.calls id none }
  | .ok claims =>
    { clock := now
      cache := record cacheKey layer s.cache token claims purged now
      calls := Function.update s.calls id none
      recorded := s.recorded ++ [⟨token, receivedAt, now, reply⟩]
      returned := s.returned ++ [⟨now, claims⟩] }

/-- The clock never goes back, and the readings of a purge lie within its step. -/
def step (parse : List UInt8 → Except String Value) (s : State) : Act → Option State
  | .look id token now =>
    if s.clock ≤ now ∧ s.calls id = none then some (s.look cacheKey layer id token now) else none
  | .receive id reply now =>
    match s.calls id with
    | some (.asked token) => if s.clock ≤ now then some (s.receive id token reply now) else none
    | _ => none
  | .finish id purged now =>
    match s.calls id with
    | some (.answered token receivedAt reply) =>
      if s.clock ≤ now ∧ ∀ key ∈ s.cache.entries.keys, s.clock ≤ purged key ∧ purged key ≤ now then
        some (s.finish cacheKey layer parse id token receivedAt reply purged now)
      else none
    | _ => none

/-! ### What a step can do -/

variable {cacheKey layer} {parse : List UInt8 → Except String Value}

theorem look_step {s t : State} {id : Nat} {token : String} {now : Nat}
    (h : step cacheKey layer parse s (.look id token now) = some t) :
    s.clock ≤ now ∧ s.calls id = none ∧ t = s.look cacheKey layer id token now := by
  simp only [step] at h
  split_ifs at h with hguard
  exact ⟨hguard.1, hguard.2, (Option.some.inj h).symm⟩

theorem receive_step {s t : State} {id : Nat} {reply : Except String Response} {now : Nat}
    (h : step cacheKey layer parse s (.receive id reply now) = some t) :
    ∃ token, s.calls id = some (.asked token) ∧ s.clock ≤ now ∧ t = s.receive id token reply now := by
  simp only [step] at h
  split at h
  next token hcall =>
    split_ifs at h with hguard
    exact ⟨token, hcall, hguard, (Option.some.inj h).symm⟩
  next => cases h

theorem finish_step {s t : State} {id : Nat} {purged : String → Nat} {now : Nat}
    (h : step cacheKey layer parse s (.finish id purged now) = some t) :
    ∃ token receivedAt reply, s.calls id = some (.answered token receivedAt reply) ∧ s.clock ≤ now ∧
      t = s.finish cacheKey layer parse id token receivedAt reply purged now := by
  simp only [step] at h
  split at h
  next token receivedAt reply hcall =>
    split_ifs at h with hguard
    exact ⟨token, receivedAt, reply, hcall, hguard.1, (Option.some.inj h).symm⟩
  next => cases h

/-! ### The entries of a cache -/

theorem mem_retain {p : String → Entry → Bool} {entries : AList (fun _ : String => Entry)} {key : String}
    {e : Entry} : (retain p entries).lookup key = some e ↔ entries.lookup key = some e ∧ p key e = true := by
  rw [← Option.mem_def, ← Option.mem_def, AList.mem_lookup_iff, AList.mem_lookup_iff]
  exact List.mem_filter

end Ecat.OAuth2
