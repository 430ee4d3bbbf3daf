import Mathlib

/-! API versions: the routers of all versions folded into one table with the `Accept` header checked
in a layer above it, and when a request reaches the router of the version it names. -/

namespace Ecat.Versioning

/-! ### Routers -/

/-- A partial map from paths to handlers. -/
structure Router (Path Handler : Type) where
  routes : List (Path × Handler)
  nodup : (routes.map Prod.fst).Nodup

/-- `notFound` is the 404 of a router without the path, `unknownVersion` that of the version layer. -/
inductive Response (Handler : Type)
  | served (handler : Handler)
  | notFound
  | unknownVersion
  deriving DecidableEq, Repr

def Response.is404 {Handler : Type} : Response Handler → Bool
  | .served _ => false
  | .notFound => true
  | .unknownVersion => true

variable {Path Handler : Type} [DecidableEq Path]

namespace Router

def new : Router Path Handler := ⟨[], .nil⟩

def paths (r : Router Path Handler) : List Path := r.routes.map Prod.fst

/-- `merge`, which panics when the routers share a path. -/
def merge (a b : Router Path Handler) : Option (Router Path Handler) :=
  if h : ∀ path ∈ a.paths, path ∉ b.paths then
    some ⟨a.routes ++ b.routes, by rw [List.map_append]; exact a.nodup.append b.nodup (fun path hpath => h path hpath)⟩
  else none

def answer (r : Router Path Handler) (path : Path) : Response Handler :=
  (r.routes.lookup path).elim .notFound .served

end Router

/-! ### The version of a request -/

def isSpace (c : Char) : Bool := c = ' ' || c = '\t'

/-- `to_str` of a header reads visible ASCII and tabs only. -/
def isVisible (c : Char) : Bool := 32 ≤ c.toNat && c.toNat < 127 || c = '\t'

def toStr (value : List Char) : Option (List Char) := if value.all isVisible then some value else none

def trimMatches (p : Char → Bool) (text : List Char) : List Char := (text.dropWhile p).rdropWhile p

def versionKey : List Char := "version=".toList

/-- `trim_start_matches`, which takes the prefix away as often as it is there. -/
def trimStartMatches (pre text : List Char) : List Char := go text.length text
where
  go : Nat → List Char → List Char
    | 0, text => text
    | fuel + 1, text => if pre.isPrefixOf text then go fuel (text.drop pre.length) else text

/-- The header is the first `Accept` of the request. -/
def extractVersion (accept : Option (List Char)) : Option String := do
  let text ← toStr (← accept)
  let part ← (text.splitOn ';').find? fun p => versionKey.isPrefixOf (trimMatches isSpace p)
  return String.ofList (trimMatches (· = '"') (trimStartMatches versionKey (trimMatches isSpace part)))

/-! ### Versions -/

/-- The versions in the order in which the map gives them. -/
structure VersionedRouter (Path Handler : Type) where
  versions : List (String × Router Path Handler)
  nodup : (versions.map Prod.fst).Nodup
  defaultVersion : Option String

/-- The router that the header strategy builds: one table, and the names that its layer lets through. -/
structure App (Path Handler : Type) where
  router : Router Path Handler
  names : List String

namespace VersionedRouter

def new : VersionedRouter Path Handler := ⟨[], .nil, none⟩

def addVersion (vr : VersionedRouter Path Handler) (version : String) (router : Router Path Handler) :
    VersionedRouter Path Handler :=
  { vr with
    versions := vr.versions.filter (·.1 ≠ version) ++ [(version, router)]
    nodup := by
      rw [List.map_append]
      apply (vr.nodup.sublist (List.filter_sublist.map _)).append (List.nodup_singleton _)
      simp }

def withDefault (vr : VersionedRouter Path Handler) (version : String) : VersionedRouter Path Handler :=
  { vr with defaultVersion := some version }

def mergeAll (router : Router Path Handler) (versions : List (String × Router Path Handler)) :
    Option (Router Path Handler) := versions.foldlM (fun router v => router.merge v.2) router

def buildHeaderRouter (vr : VersionedRouter Path Handler) : Option (App Path Handler) :=
  (mergeAll .new vr.versions).map fun router => ⟨router, vr.versions.map Prod.fst⟩

def routerOf (vr : VersionedRouter Path Handler) (version : String) : Option (Router Path Handler) :=
  vr.versions.lookup version

end VersionedRouter

def App.call (app : App Path Handler) (accept : Option (List Char)) (path : Path) : Response Handler :=
  match extractVersion accept with
  | some version => if version ∈ app.names then app.router.answer path else .unknownVersion
  | none => app.router.answer path

/-- The build does not panic; a request that names a version gets the answer of that version's router, or
a 404 for a version that is not there, and a request that names none that of the default version. -/
def Dispatches (vr : VersionedRouter Path Handler) : Prop :=
  ∃ app, vr.buildHeaderRouter = some app ∧ ∀ accept path,
    match extractVersion accept with
    | some version =>
      match vr.routerOf version with
      | some router => app.call accept path = router.answer path
      | none => (app.call accept path).is404 = true
    | none => ∀ version router, vr.defaultVersion = some version → vr.routerOf version = some router →
      app.call accept path = router.answer path

/-- An `Accept` header can name the version. -/
def Nameable (version : String) : Prop :=
  (∀ c ∈ version.toList, isVisible c = true ∧ c ≠ ';') ∧ version.toList.head? ≠ some '"' ∧
    version.toList.getLast? ≠ some '"'

/-! ### Names in headers -/

def headerFor (version : String) : List Char := versionKey ++ '"' :: version.toList ++ ['"']

theorem trimMatches_self {p : Char → Bool} {text : List Char} (hhead : ∀ c, text.head? = some c → p c = false)
    (hlast : ∀ c, text.getLast? = some c → p c = false) : trimMatches p text = text := by
  have hdrop : text.dropWhile p = text := by
    cases text with
    | nil => rfl
    | cons c text => exact List.dropWhile_cons_of_neg (by simpa using hhead c rfl)
  rw [trimMatches, hdrop, List.rdropWhile_eq_self_iff]
  intro hne
  rw [Bool.not_eq_true]
  exact hlast _ (List.getLast?_eq_some_getLast hne)

theorem head_dropWhile {p : Char → Bool} {text : List Char} {c : Char} (h : (text.dropWhile p).head? = some c) :
    p c = false := by
  induction text with
  | nil => cases h
  | cons d text ih =>
    by_cases hd : p d = true
    · rw [List.dropWhile_cons_of_pos hd] at h
      exact ih h
    · rw [List.dropWhile_cons_of_neg hd] at h
      cases h
      simpa using hd

theorem trimMatches_head {p : Char → Bool} {text : List Char} {c : Char}
    (h : (trimMatches p text).head? = some c) : p c = false := by
  apply @head_dropWhile p text c
  obtain ⟨rest, hrest⟩ := List.rdropWhile_prefix p (text.dropWhile p)
  rw [trimMatches] at h
  rw [← hrest, List.head?_append, h]
  rfl

theorem trimMatches_last {p : Char → Bool} {text : List Char} {c : Char}
    (h : (trimMatches p text).getLast? = some c) : p c = false := by
  have hne : trimMatches p text ≠ [] := by
    intro hnil
    rw [hnil] at h
    cases h
  have hlast := List.rdropWhile_last_not p (text.dropWhile p) hne
  rw [List.getLast?_eq_some_getLast hne, Option.some.injEq] at h
  rw [← h, ← Bool.not_eq_true]
  exact hlast

theorem mem_trimMatches {p : Char → Bool} {text : List Char} {c : Char} (h : c ∈ trimMatches p text) : c ∈ text :=
  (List.dropWhile_sublist p).subset ((List.rdropWhile_prefix p _).subset h)

theorem mem_trimStartMatches {pre text : List Char} {c : Char} (h : c ∈ trimStartMatches pre text) : c ∈ text := by
  have hgo : ∀ fuel text, c ∈ trimStartMatches.go pre fuel text → c ∈ text := by
    intro fuel
    induction fuel with
    | zero => exact fun _ => id
    | succ fuel ih =>
      intro text hc
      rw [trimStartMatches.go] at hc
      split_ifs at hc
      · exact List.mem_of_mem_drop (ih _ hc)
      · exact hc
  exact hgo _ _ h

theorem mem_splitOn {text part : List Char} {sep : Char} (h : part ∈ text.splitOn sep) :
    ∀ c ∈ part, c ∈ text ∧ c ≠ sep := by
  induction text generalizing part with
  | nil =>
    rw [List.splitOn_nil, List.mem_singleton] at h
    subst h
    simp
  | cons d text ih =>
    rw [List.splitOn_cons_eq_if_modifyHead] at h
    split_ifs at h with hd
    · rcases List.mem_cons.1 h with rfl | h
      · simp
      · intro c hc
        exact ⟨List.mem_cons_of_mem d (ih h c hc).1, (ih h c hc).2⟩
    · obtain ⟨first, rest, hparts⟩ := List.exists_cons_of_ne_nil (List.splitOn_ne_nil sep text)
      rw [hparts] at h ih
      rcases List.mem_cons.1 h with rfl | h
      · intro c hc
        rcases List.mem_cons.1 hc with rfl | hc
        · exact ⟨List.mem_cons_self, by simpa using hd⟩
        · obtain ⟨hmem, hne⟩ := ih List.mem_cons_self c hc
          exact ⟨List.mem_cons_of_mem d hmem, hne⟩
      · intro c hc
        obtain ⟨hmem, hne⟩ := ih (List.mem_cons_of_mem first h) c hc
        exact ⟨List.mem_cons_of_mem d hmem, hne⟩

/-- A name read from a header is one that a header can name. -/
theorem nameable_of_extract {accept : Option (List Char)} {version : String}
    (h : extractVersion accept = some version) :
    Nameable version := by
  rw [extractVersion, Option.bind_eq_bind, Option.bind_eq_some_iff] at h
  obtain ⟨value, rfl, h⟩ := h
  obtain ⟨text, htext, h⟩ := Option.bind_eq_some_iff.1 h
  obtain ⟨part, hpart, h⟩ := Option.bind_eq_some_iff.1 h
  cases h
  have hvisible : text.all isVisible = true := by
    rw [toStr] at htext
    split_ifs at htext with hall
    cases htext
    exact hall
  have hmem := mem_splitOn (List.mem_of_find?_eq_some hpart)
  rw [Nameable, String.toList_ofList]
  refine ⟨fun c hc => ?_, fun hhead => ?_, fun hlast => ?_⟩
  · obtain ⟨htext, hne⟩ := hmem c (mem_trimMatches (mem_trimStartMatches (mem_trimMatches hc)))
    exact ⟨List.all_eq_true.1 hvisible c htext, hne⟩
  · have hquote := trimMatches_head hhead
    cases hquote
  · have hquote := trimMatches_last hlast
    cases hquote

theorem trimStartMatches_headerFor (version : String) :
    trimStartMatches versionKey (headerFor version) = '"' :: version.toList ++ ['"'] := by
  have hprefix : versionKey.isPrefixOf (headerFor version) = true := by
    rw [headerFor, List.append_assoc, List.isPrefixOf_iff_prefix]
    exact List.prefix_append _ _
  have hdrop : (headerFor version).drop versionKey.length = '"' :: version.toList ++ ['"'] := by
    rw [headerFor, List.append_assoc]
    exact List.drop_left
  have hquote : versionKey.isPrefixOf ('"' :: version.toList ++ ['"']) = false := rfl
  have hlength : (headerFor version).length = version.toList.length + 8 + 2 := by
    have hkey : versionKey.length = 8 := by decide
    simp only [headerFor, List.length_append, List.length_cons, List.length_nil, hkey]
    omega
  rw [trimStartMatches, hlength, trimStartMatches.go, if_pos hprefix, hdrop, trimStartMatches.go, hquote]
  rfl

theorem trimMatches_quoted {name : List Char} (hhead : name.head? ≠ some '"') (hlast : name.getLast? ≠ some '"') :
    trimMatches (· = '"') ('"' :: name ++ ['"']) = name := by
  rw [trimMatches, List.cons_append, List.dropWhile_cons_of_pos (by rfl)]
  cases name with
  | nil => rfl
  | cons c name =>
    have hc : ¬ decide (c = '"') = true := by simpa using hhead
    have hdrop : (c :: name ++ ['"']).dropWhile (· = '"') = c :: name ++ ['"'] := List.dropWhile_cons_of_neg hc
    rw [hdrop, List.rdropWhile_concat_pos _ _ _ (by rfl), List.rdropWhile_eq_self_iff]
    intro hne
    rw [List.getLast?_eq_some_getLast hne] at hlast
    simpa using hlast

theorem extract_headerFor {version : String} (h : Nameable version) :
    extractVersion (some (headerFor version)) = some version := by
  obtain ⟨hchars, hhead, hlast⟩ := h
  have hvisible : toStr (headerFor version) = some (headerFor version) := by
    apply if_pos
    rw [headerFor, List.all_append, List.all_append, List.all_cons]
    have hall : version.toList.all isVisible = true := List.all_eq_true.2 fun c hc => (hchars c hc).1
    rw [hall]
    decide
  have hsplit : (headerFor version).splitOn ';' = [headerFor version] := by
    apply List.splitOn_eq_singleton
    have hkey : ';' ∉ versionKey := by decide
    have hname : ';' ∉ version.toList := fun hc => (hchars _ hc).2 rfl
    simp [headerFor, hkey, hname]
  have htrim : trimMatches isSpace (headerFor version) = headerFor version := by
    apply trimMatches_self
    · intro c hc
      cases hc
      rfl
    · intro c hc
      rw [headerFor, List.getLast?_concat] at hc
      cases hc
      rfl
  have hprefix : versionKey.isPrefixOf (headerFor version) = true := by
    rw [headerFor, List.append_assoc, List.isPrefixOf_iff_prefix]
    exact List.prefix_append _ _
  have hquotes : trimMatches (· = '"') ('"' :: version.toList ++ ['"']) = version.toList :=
    trimMatches_quoted hhead hlast
  rw [extractVersion]
  simp only [Option.bind_eq_bind, Option.bind_some, hvisible, hsplit, List.find?_cons, htrim, hprefix,
    trimStartMatches_headerFor, hquotes,
    String.ofList_toList]
  rfl

/-! ### The folded table -/

def routesOf (versions : List (String × Router Path Handler)) : List (Path × Handler) := versions.flatMap (·.2.routes)

theorem mergeAll_some {router merged : Router Path Handler} {versions : List (String × Router Path Handler)}
    (h : VersionedRouter.mergeAll router versions = some merged) :
    merged.routes = router.routes ++ routesOf versions := by
  induction versions generalizing router with
  | nil =>
    cases h
    simp [routesOf]
  | cons v versions ih =>
    rw [VersionedRouter.mergeAll, List.foldlM_cons] at h
    obtain ⟨next, hnext, h⟩ := Option.bind_eq_some_iff.1 h
    rw [Router.merge] at hnext
    split_ifs at hnext
    cases hnext
    rw [ih h]
    simp [routesOf]

theorem mergeAll_isSome {router : Router Path Handler} {versions : List (String × Router Path Handler)} :
    (∃ merged, VersionedRouter.mergeAll router versions = some merged) ↔
      ((router.routes ++ routesOf versions).map Prod.fst).Nodup := by
  induction versions generalizing router with
  | nil =>
    have hnil : router.routes ++ routesOf ([] : List (String × Router Path Handler)) = router.routes := by
      simp [routesOf]
    rw [hnil]
    exact iff_of_true ⟨router, rfl⟩ router.nodup
  | cons v versions ih =>
    have hroutes : router.routes ++ routesOf (v :: versions) = (router.routes ++ v.2.routes) ++ routesOf versions := by
      simp [routesOf]
    rw [VersionedRouter.mergeAll, List.foldlM_cons, hroutes]
    by_cases hshared : ∀ path ∈ router.paths, path ∉ v.2.paths
    · rw [Router.merge, dif_pos hshared]
      exact ih
    · rw [Router.merge, dif_neg hshared]
      refine iff_of_false (fun h => nomatch h) fun hnodup => hshared ?_
      rw [List.map_append, List.map_append] at hnodup
      intro path hpath
      exact List.disjoint_of_nodup_append (List.nodup_append.1 hnodup).1 hpath

omit [DecidableEq Path] in
theorem nodup_routesOf {versions : List (String × Router Path Handler)} :
    ((routesOf versions).map Prod.fst).Nodup ↔
      versions.Pairwise fun v w => ∀ path ∈ v.2.paths, path ∉ w.2.paths := by
  rw [routesOf, List.map_flatMap, List.nodup_flatMap]
  constructor
  · intro h
    exact h.2.imp fun hvw _ hpath hpath' => hvw hpath hpath'
  · intro h
    exact ⟨fun v _ => v.2.nodup, h.imp fun hvw _ hpath hpath' => hvw _ hpath hpath'⟩

theorem lookup_eq_some {κ α : Type} [DecidableEq κ] {l : List (κ × α)} (hnodup : (l.map Prod.fst).Nodup) {k : κ}
    {a : α} : l.lookup k = some a ↔ (k, a) ∈ l := by
  induction l with
  | nil => simp
  | cons e l ih =>
    obtain ⟨hfresh, hrest⟩ := List.nodup_cons.1 hnodup
    by_cases hk : k = e.1
    · have hout : (k, a) ∉ l := fun hmem => hfresh (hk ▸ List.mem_map_of_mem hmem)
      have hlookup : (e :: l).lookup k = some e.2 := by simp [List.lookup, hk]
      rw [hlookup, List.mem_cons, or_iff_left hout, Option.some.injEq, Prod.ext_iff]
      simp [hk, eq_comm]
    · have hlookup : (e :: l).lookup k = l.lookup k := by
        have hne : (k == e.1) = false := by simpa using hk
        simp [List.lookup, hne]
      have hhead : (k, a) ≠ e := fun heq => hk (congrArg Prod.fst heq)
      rw [hlookup, ih hrest, List.mem_cons, or_iff_right hhead]

variable {vr : VersionedRouter Path Handler} {app : App Path Handler} {v w : String × Router Path Handler}

omit [DecidableEq Path] in
theorem routerOf_eq_some {version : String} {router : Router Path Handler} :
    vr.routerOf version = some router ↔ (version, router) ∈ vr.versions := lookup_eq_some vr.nodup

theorem answer_of_mem {router : Router Path Handler} {path : Path} {handler : Handler}
    (h : (path, handler) ∈ router.routes) : router.answer path = .served handler := by
  rw [Router.answer, (lookup_eq_some router.nodup).2 h]
  rfl

theorem answer_of_not_mem {router : Router Path Handler} {path : Path} (h : path ∉ router.paths) :
    router.answer path = .notFound := by
  cases hlookup : router.routes.lookup path with
  | none =>
    rw [Router.answer, hlookup]
    rfl
  | some handler => exact absurd (List.mem_map_of_mem ((lookup_eq_some router.nodup).1 hlookup)) h

/-- Routers with the same routes, in any order, answer alike. -/
theorem answer_congr {r r' : Router Path Handler} (h : ∀ route, route ∈ r.routes ↔ route ∈ r'.routes) (path : Path) :
    r.answer path = r'.answer path := by
  have hlookup : r.routes.lookup path = r'.routes.lookup path := by
    ext handler
    rw [lookup_eq_some r.nodup, lookup_eq_some r'.nodup, h]
  rw [Router.answer, Router.answer, hlookup]

theorem build_routes (h : vr.buildHeaderRouter = some app) :
    app.router.routes = routesOf vr.versions ∧ app.names = vr.versions.map Prod.fst := by
  obtain ⟨merged, hmerged, rfl⟩ := Option.map_eq_some_iff.1 h
  exact ⟨mergeAll_some hmerged, rfl⟩

theorem build_isSome : (∃ app, vr.buildHeaderRouter = some app) ↔
    vr.versions.Pairwise fun v w => ∀ path ∈ v.2.paths, path ∉ w.2.paths := by
  rw [← nodup_routesOf]
  constructor
  · intro ⟨app, h⟩
    obtain ⟨merged, hmerged, _⟩ := Option.map_eq_some_iff.1 h
    exact mergeAll_isSome.1 ⟨merged, hmerged⟩
  · intro h
    obtain ⟨merged, hmerged⟩ := (@mergeAll_isSome _ _ _ Router.new vr.versions).2 h
    exact ⟨_, Option.map_eq_some_iff.2 ⟨merged, hmerged, rfl⟩⟩

/-! ### Dispatch -/

/-- The versions whose own answers a request must get: those that a header can name, and the default. -/
def VersionedRouter.Asked (vr : VersionedRouter Path Handler) (version : String) : Prop :=
  Nameable version ∨ vr.defaultVersion = some version

/-- A request reaches the folded table when its header names a version that is there, or none. -/
theorem call_of_registered (h : vr.buildHeaderRouter = some app) {accept : Option (List Char)}
    (hname : ∀ version, extractVersion accept = some version → version ∈ vr.versions.map Prod.fst) (path : Path) :
    app.call accept path = app.router.answer path := by
  rw [App.call, (build_routes h).2]
  cases hversion : extractVersion accept with
  | none => rfl
  | some version => exact if_pos (hname version hversion)

/-- The table of all versions answers as one of them does when no other has routes. -/
theorem answer_sole (h : vr.buildHeaderRouter = some app) (hv : v ∈ vr.versions)
    (hsole : ∀ w ∈ vr.versions, w.1 ≠ v.1 → w.2.routes = []) (path : Path) :
    app.router.answer path = v.2.answer path := by
  apply answer_congr
  intro route
  rw [(build_routes h).1, routesOf, List.mem_flatMap]
  constructor
  · intro ⟨w, hw, hroute⟩
    by_cases hname : w.1 = v.1
    · have hsame : w = v := List.inj_on_of_nodup_map vr.nodup hw hv hname
      exact hsame ▸ hroute
    · rw [hsole w hw hname] at hroute
      cases hroute
  · intro hroute
    exact ⟨v, hv, hroute⟩

/-- A version that is asked for gets its own answers, so no other has a route. -/
theorem Dispatches.sole (h : Dispatches vr) (hv : v ∈ vr.versions) (hasked : vr.Asked v.1) (hw : w ∈ vr.versions)
    (hne : w.1 ≠ v.1) : w.2.routes = [] := by
  obtain ⟨app, hbuild, hcalls⟩ := h
  have hrouter : vr.routerOf v.1 = some v.2 := routerOf_eq_some.2 hv
  have hown : ∀ path, app.router.answer path = v.2.answer path := by
    intro path
    rcases hasked with hname | hdefault
    · have hversion := extract_headerFor hname
      have hcall := hcalls (some (headerFor v.1)) path
      rw [call_of_registered hbuild] at hcall
      · simpa only [hversion, hrouter] using hcall
      · intro version hv'
        cases hversion.symm.trans hv'
        exact List.mem_map_of_mem hv
    · have hcall := hcalls none path
      exact hcall v.1 v.2 hdefault hrouter
  by_contra hroutes
  obtain ⟨⟨path, handler⟩, hroute⟩ := List.exists_mem_of_ne_nil _ hroutes
  have hserved : app.router.answer path = .served handler := by
    apply answer_of_mem
    rw [(build_routes hbuild).1, routesOf, List.mem_flatMap]
    exact ⟨w, hw, hroute⟩
  have hshared : path ∉ v.2.paths := by
    have hsymm : Std.Symm fun v w : String × Router Path Handler => ∀ path ∈ v.2.paths, path ∉ w.2.paths :=
      ⟨fun _ _ hvw path hpath hpath' => hvw path hpath' hpath⟩
    have hall := (build_isSome.1 ⟨app, hbuild⟩).forall hw hv fun heq => hne (congrArg Prod.fst heq)
    exact hall path (List.mem_map_of_mem hroute)
  rw [hown path, answer_of_not_mem hshared] at hserved
  cases hserved

/-- The header strategy answers as it should exactly where the versions share no path, and every version
that is asked for is the only one with routes. -/
theorem dispatches_iff (vr : VersionedRouter Path Handler) : Dispatches vr ↔
    (vr.versions.Pairwise fun v w => ∀ path ∈ v.2.paths, path ∉ w.2.paths) ∧
      ∀ v ∈ vr.versions, vr.Asked v.1 → ∀ w ∈ vr.versions, w.1 ≠ v.1 → w.2.routes = [] := by
  constructor
  · intro h
    obtain ⟨app, hbuild, _⟩ := id h
    exact ⟨build_isSome.1 ⟨app, hbuild⟩, fun v hv hasked w hw hne => h.sole hv hasked hw hne⟩
  · intro ⟨hdisjoint, hsole⟩
    obtain ⟨app, hbuild⟩ := build_isSome.2 hdisjoint
    refine ⟨app, hbuild, fun accept path => ?_⟩
    cases hversion : extractVersion accept with
    | none =>
      intro version router hdefault hrouter
      have hv := routerOf_eq_some.1 hrouter
      rw [call_of_registered hbuild (by simp [hversion])]
      exact answer_sole hbuild hv (hsole _ hv (.inr hdefault)) path
    | some version =>
      cases hrouter : vr.routerOf version with
      | some router =>
        have hv := routerOf_eq_some.1 hrouter
        have hnameable := nameable_of_extract hversion
        simp only [hrouter]
        rw [call_of_registered hbuild]
        · exact answer_sole hbuild hv (hsole _ hv (.inl hnameable)) path
        · intro version' hversion'
          cases hversion.symm.trans hversion'
          exact List.mem_map_of_mem hv
      | none =>
        have hout : version ∉ app.names := by
          rw [(build_routes hbuild).2]
          intro hmem
          obtain ⟨v, hv, rfl⟩ := List.mem_map.1 hmem
          rw [routerOf_eq_some.2 hv] at hrouter
          cases hrouter
        simp [App.call, hversion, hrouter, hout, Response.is404]

/-- Two versions of one path, the normal case, and two versions with a path each. -/
def samePath : VersionedRouter String String :=
  .withDefault (.addVersion (.addVersion .new "v1" ⟨[("/health", "health v1")], by decide⟩)
    "v2" ⟨[("/health", "health v2")], by decide⟩) "v1"

def otherPath : VersionedRouter String String :=
  .withDefault (.addVersion (.addVersion .new "v1" ⟨[("/health", "health v1")], by decide⟩)
    "v2" ⟨[("/users", "users v2")], by decide⟩) "v1"

/-- The build of the first panics; the second answers version `v2` with a handler of `v1`. -/
theorem versions_mixed : samePath.buildHeaderRouter = none ∧
    otherPath.buildHeaderRouter.map (·.call (some "version=v2".toList) "/health") = some (.served "health v1") ∧
    ¬ ∀ vr : VersionedRouter String String, Dispatches vr := by
  have hpanics : samePath.buildHeaderRouter = none := by rfl
  refine ⟨hpanics, by rfl, fun h => ?_⟩
  obtain ⟨app, hbuild, _⟩ := h samePath
  rw [hpanics] at hbuild
  cases hbuild

end Ecat.Versioning
