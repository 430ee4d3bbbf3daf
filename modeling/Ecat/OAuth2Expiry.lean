import Ecat.OAuth2Cache

/-! The expiry of a token and the time to live of its entry. No part of a call looks at `exp`, so
what an answer says of it has to outlast the entry. -/

namespace Ecat.OAuth2

open Json

/-- The time is not after the expiry, if there is one. -/
def InTime (claims : AuthClaims) (now : Nat) : Prop := ∀ exp, claims.exp = some exp → now ≤ second * exp

def expOf (body : Value) : Option Nat := (field body "exp").bind asU64

/-- The answer is taken: it says active, and names a subject. -/
structure Accepted (parse : List UInt8 → Except String Value) (reply : Except String Response) (body : Value) :
    Prop extends Active parse reply body where
  subject : ∃ sub, (field body "sub").bind Value.asStr = some sub ∧ sub ≠ ""

/-- Nothing returned so far had expired, and no hit on the cache will from now on. -/
structure Unexpired (cacheKey : String → String) (layer : OAuth2Layer) (s : State) : Prop where
  returned : ∀ r ∈ s.returned, InTime r.claims r.time
  cached : ∀ token now claims, s.clock ≤ now → cached cacheKey layer s.cache token now = some claims →
    InTime claims now

variable {cacheKey : String → String} {layer : OAuth2Layer} {parse : List UInt8 → Except String Value}

/-- An answer that a call ends with expires no sooner than the call and the entry it leaves. -/
def Lasts (cacheKey : String → String) (layer : OAuth2Layer) (parse : List UInt8 → Except String Value)
    (s : State) (a : Act) : Prop :=
  ∀ id purged now t, a = .finish id purged now → step cacheKey layer parse s a = some t →
    ∀ token receivedAt reply body exp, s.calls id = some (.answered token receivedAt reply) →
      Accepted parse reply body → expOf body = some exp → now ≤ second * exp ∧ now + layer.ttl ≤ second * exp + 1

theorem claimsOf_ok {body : Value} {claims : AuthClaims} (h : claimsOf body = .ok claims) :
    (∃ sub, (field body "sub").bind Value.asStr = some sub ∧ sub ≠ "") ∧ claims.exp = expOf body := by
  unfold claimsOf at h
  split_ifs at h with hactive
  split at h
  next sub hsub =>
    split_ifs at h with hempty
    cases h
    exact ⟨⟨sub, hsub, hempty⟩, rfl⟩
  next => cases h

theorem Accepted.answer {reply : Except String Response} {body : Value} (h : Accepted parse reply body) :
    ∃ claims, answerOf parse reply = .ok claims ∧ claims.exp = expOf body := by
  obtain ⟨resp, bytes, rfl, hsuccess, hread, hparse⟩ := h.read
  obtain ⟨sub, hsub, hne⟩ := h.subject
  have hclaims : ∃ claims, claimsOf body = .ok claims := by
    rw [claimsOf, h.active, hsub]
    simp only [Option.getD_some, if_true, if_neg hne]
    exact ⟨_, rfl⟩
  obtain ⟨claims, hclaims⟩ := hclaims
  exact ⟨claims, answerOf_reply.2 ⟨hsuccess, bytes, hread, body, hparse, hclaims⟩, (claimsOf_ok hclaims).2⟩

theorem accepted_of_ok {reply : Except String Response} {claims : AuthClaims}
    (h : answerOf parse reply = .ok claims) : ∃ body, Accepted parse reply body ∧ claims.exp = expOf body := by
  obtain ⟨body, hactive, hclaims⟩ := answerOf_ok h
  obtain ⟨hsub, hexp⟩ := claimsOf_ok hclaims
  exact ⟨body, ⟨hactive, hsub⟩, hexp⟩

theorem accepted_unique {reply : Except String Response} {body body' : Value} (h : Accepted parse reply body)
    (h' : Accepted parse reply body') : body = body' := by
  obtain ⟨resp, bytes, rfl, -, hread, hparse⟩ := h.read
  obtain ⟨resp', bytes', heq, -, hread', hparse'⟩ := h'.read
  cases Except.ok.inj heq
  rw [hread] at hread'
  cases Except.ok.inj hread'
  rw [hparse] at hparse'
  exact Except.ok.inj hparse'

theorem filterClaims_exp (claims : AuthClaims) (whitelist : List String) :
    (filterClaims claims whitelist).exp = claims.exp := by
  unfold filterClaims
  split_ifs
  · rfl
  · rfl

theorem record_own {c : IntrospectCache} {token : String} {claims : AuthClaims} {purged : String → Nat} {now : Nat}
    (httl : 0 < layer.ttlSecs) :
    (record cacheKey layer c token claims purged now).entries.lookup (cacheKey token) =
      some ⟨filterClaims claims layer.whitelist, now⟩ := by
  rw [record, if_pos httl]
  exact AList.lookup_insert _

theorem init_unexpired : Unexpired cacheKey layer .init where
  returned := by
    intro r hr
    cases hr
  cached := by
    intro token now claims _ h
    obtain ⟨e, he, -⟩ := cached_eq_some h
    cases he

/-! ### What each step keeps -/

theorem Unexpired.look {s : State} (h : Unexpired cacheKey layer s) {now : Nat} (hnow : s.clock ≤ now) {id : Nat}
    {token : String} : Unexpired cacheKey layer (s.look cacheKey layer id token now) := by
  have hlater : ∀ token later claims, now ≤ later →
      OAuth2.cached cacheKey layer s.cache token later = some claims → InTime claims later :=
    fun token later claims hle => h.cached token later claims (hnow.trans hle)
  unfold State.look
  split
  next claims hhit =>
    refine ⟨?_, hlater⟩
    intro r hr
    rcases List.mem_append.1 hr with hr | hr
    · exact h.returned r hr
    · rw [List.mem_singleton.1 hr]
      exact h.cached token now claims hnow hhit
  next => exact ⟨h.returned, hlater⟩

theorem Unexpired.receive {s : State} (h : Unexpired cacheKey layer s) {now : Nat} (hnow : s.clock ≤ now) {id : Nat}
    {token : String} {reply : Except String Response} :
    Unexpired cacheKey layer (s.receive id token reply now) :=
  ⟨h.returned, fun token later claims hle => h.cached token later claims (hnow.trans hle)⟩

theorem record_cached {c : IntrospectCache} {token : String} {claims : AuthClaims} {purged : String → Nat}
    {now : Nat} {other : String} {later : Nat} {found : AuthClaims}
    (h : cached cacheKey layer (record cacheKey layer c token claims purged now) other later = some found) :
    (found.exp = claims.exp ∧ later - now < layer.ttl) ∨ cached cacheKey layer c other later = some found := by
  have httl : 0 < layer.ttlSecs := by
    unfold cached at h
    split_ifs at h with httl
    exact httl
  obtain ⟨e, he, hage, rfl⟩ := cached_eq_some h
  rcases record_lookup he with ⟨-, rfl⟩ | hold
  · exact .inl ⟨filterClaims_exp _ _, hage⟩
  · exact .inr (cached_of_entry httl hold hage)

/-- After a call that ends with these claims, nothing has expired exactly when they last. -/
theorem Unexpired.finish_iff {s : State} (h : Unexpired cacheKey layer s) {now : Nat} (hnow : s.clock ≤ now)
    {id : Nat} {token : String} {receivedAt : Nat} {reply : Except String Response} {purged : String → Nat}
    {claims : AuthClaims} (hanswer : answerOf parse reply = .ok claims) :
    Unexpired cacheKey layer (s.finish cacheKey layer parse id token receivedAt reply purged now) ↔
      ∀ exp, claims.exp = some exp → now ≤ second * exp ∧ now + layer.ttl ≤ second * exp + 1 := by
  rw [State.finish, hanswer]
  constructor
  · intro hafter exp hexp
    have hreturned : now ≤ second * exp :=
      hafter.returned ⟨now, claims⟩ (List.mem_append_right _ (List.mem_singleton_self _)) exp hexp
    refine ⟨hreturned, ?_⟩
    by_cases httl : 0 < layer.ttlSecs
    · have hpos : 0 < layer.ttl := Nat.mul_pos (by decide) httl
      have hhit := hafter.cached token (now + (layer.ttl - 1)) _ (Nat.le_add_right _ _)
        (cached_of_entry httl (record_own httl) (by simp only; omega))
      have hlast := hhit exp (by rw [filterClaims_exp, hexp])
      omega
    · have hzero : layer.ttlSecs = 0 := by omega
      have hnone : layer.ttl = 0 := by rw [OAuth2Layer.ttl, hzero, Nat.mul_zero]
      omega
  · intro hlasts
    constructor
    · intro r hr
      rcases List.mem_append.1 hr with hr | hr
      · exact h.returned r hr
      · rw [List.mem_singleton.1 hr]
        exact fun exp hexp => (hlasts exp hexp).1
    · intro other later found hle hhit
      rcases record_cached hhit with ⟨hexp, hage⟩ | hold
      · intro exp hfound
        have hlast := hlasts exp (hexp ▸ hfound)
        omega
      · exact h.cached other later found (hnow.trans hle) hold

theorem step_unexpired (s : State) (a : Act) (t : State) (h : Unexpired cacheKey layer s)
    (hstep : step cacheKey layer parse s a = some t) :
    Unexpired cacheKey layer t ↔ Lasts cacheKey layer parse s a := by
  cases a with
  | look id token now =>
    obtain ⟨hnow, -, rfl⟩ := look_step hstep
    exact iff_of_true (h.look hnow) fun _ _ _ _ heq => by cases heq
  | receive id reply now =>
    obtain ⟨token, -, hnow, rfl⟩ := receive_step hstep
    exact iff_of_true (h.receive hnow) fun _ _ _ _ heq => by cases heq
  | finish id purged now =>
    obtain ⟨token, receivedAt, reply, hcall, hnow, rfl⟩ := finish_step hstep
    cases hanswer : answerOf parse reply with
    | error e =>
      apply iff_of_true
      · rw [State.finish, hanswer]
        exact ⟨h.returned, fun token later claims hle => h.cached token later claims (hnow.trans hle)⟩
      · intro id' purged' now' t heq _ token' receivedAt' reply' body exp hcall' haccepted
        cases heq
        rw [hcall] at hcall'
        cases hcall'
        obtain ⟨claims, hok, -⟩ := haccepted.answer
        cases hanswer.symm.trans hok
    | ok claims =>
      rw [h.finish_iff hnow hanswer]
      obtain ⟨body, haccepted, hexp⟩ := accepted_of_ok hanswer
      constructor
      · intro hlasts id' purged' now' t heq _ token' receivedAt' reply' body' exp hcall' haccepted' hexp'
        cases heq
        rw [hcall] at hcall'
        cases hcall'
        rw [← accepted_unique haccepted haccepted', ← hexp] at hexp'
        exact hlasts exp hexp'
      · intro hlasts exp hfound
        exact hlasts id purged now _ rfl hstep token receivedAt reply body exp hcall haccepted (hexp ▸ hfound)

/-- In every run, nothing is returned after its expiry, and no hit will return such a thing, exactly when
each answer that a call ends with outlasts the call and the entry of the cache it is recorded in. -/
theorem no_expired_iff (acts : List Act) :
    Throughout (step cacheKey layer parse) (Unexpired cacheKey layer) .init acts ↔
      Meets (step cacheKey layer parse) (Lasts cacheKey layer parse) .init acts := by
  apply throughout_iff_meets init_unexpired _ step_unexpired
  intro s a hnone id purged now t _ hstep
  rw [hnone] at hstep
  cases hstep

/-- A provider that still calls a token active after its expiry is believed. -/
theorem expired_accepted : ¬ ∀ (cacheKey : String → String) (layer : OAuth2Layer)
    (parse : List UInt8 → Except String Value) (acts : List Act) (s : State),
    runFrom (step cacheKey layer parse) .init acts = some s → ∀ r ∈ s.returned, InTime r.claims r.time := by
  intro h
  have hlate := h id .new parseActive (oneCall (101 * second)) _ rfl _ (List.mem_singleton_self _) 100 rfl
  exact absurd hlate (by simp [second])

end Ecat.OAuth2
