/-
The routing of webhooks.

A webhook is found by its method and its path: in the cache, among the stored rows by the
whole path, and else among the rows with parameters by the first segment and the number of
the others.  Of these the one with the most static segments is taken, each of which must
occur in the request.

* `WebhookService` — the rows and the cache, each of whose entries is a row under one of
  the two keys that the code writes;
* `findDynamicWebhook_eq` — the loop over the rows is the first maximum of a filtered list.
-/
import N8n.PathPattern
import Mathlib.Data.List.MinMax

namespace N8n

open PathPattern

inductive IHttpRequestMethods where
  | DELETE
  | GET
  | HEAD
  | PATCH
  | POST
  | PUT
  deriving DecidableEq

def IHttpRequestMethods.toString : IHttpRequestMethods → String
  | DELETE => "DELETE"
  | GET => "GET"
  | HEAD => "HEAD"
  | PATCH => "PATCH"
  | POST => "POST"
  | PUT => "PUT"

structure WebhookEntity where
  workflowId : String
  webhookPath : String
  method : IHttpRequestMethods
  node : String
  webhookId : Option String := none
  pathLength : Option ℕ := none
  deriving DecidableEq

/-- `webhook:${method}-${path}`. -/
def webhookCacheKey (method : IHttpRequestMethods) (path : String) : String :=
  "webhook:" ++ method.toString ++ "-" ++ path

theorem webhookCacheKey_injective {method method' : IHttpRequestMethods} {path path' : String}
    (h : webhookCacheKey method path = webhookCacheKey method' path') :
    method = method' ∧ path = path' := by
  have hdash : ∀ m : IHttpRequestMethods, '-' ∉ ("webhook:" ++ m.toString).toList := by
    intro m
    cases m <;> decide
  have hkey : ∀ (m : IHttpRequestMethods) (p : String), (webhookCacheKey m p).toList
      = ("webhook:" ++ m.toString).toList ++ '-' :: p.toList := by
    intro m p
    rw [webhookCacheKey, String.toList_append, String.toList_append, List.append_assoc]
    rfl
  have hchars := congrArg String.toList h
  rw [hkey, hkey] at hchars
  have hparts := congrArg (List.splitOn '-') hchars
  rw [List.splitOn_append_cons_self_of_not_mem (hdash method),
    List.splitOn_append_cons_self_of_not_mem (hdash method'), List.cons.injEq] at hparts
  have hmethod : method = method' := by
    have htext := String.toList_inj.mp hparts.1
    cases method <;> cases method' <;> first | rfl | exact absurd htext (by decide)
  refine ⟨hmethod, ?_⟩
  rw [hparts.1] at hchars
  exact String.toList_inj.mp (List.cons.inj (List.append_cancel_left hchars)).2

namespace WebhookEntity
variable (w : WebhookEntity)

def uniquePath : String :=
  if ':' ∈ w.webhookPath.toList then w.webhookId.getD "" ++ "/" ++ w.webhookPath
  else w.webhookPath

def cacheKey : String := webhookCacheKey w.method w.uniquePath

def staticSegments : List String := statics (segments w.webhookPath)

def isDynamic : Bool := (segments w.webhookPath).any isParam

/-- A row without an id has no length either; a row with one has a parameter, and the
number of its segments. -/
def WellFormed : Prop :=
  match w.webhookId with
  | none => w.pathLength = none
  | some _ => w.isDynamic = true ∧ w.pathLength = some (segments w.webhookPath).length

instance (w : WebhookEntity) : Decidable w.WellFormed := by
  unfold WellFormed
  split <;> infer_instance

end WebhookEntity

/-- The table of webhooks, in the order in which it is read; its key are the path and the
method. -/
structure WebhookRepository where
  rows : List WebhookEntity
  nodup : (rows.map fun w => (w.webhookPath, w.method)).Nodup
  wellFormed : ∀ w ∈ rows, w.WellFormed

namespace WebhookRepository
variable (r : WebhookRepository)

/-- `findOneBy({ webhookPath, method })`. -/
def findOneBy (webhookPath : String) (method : IHttpRequestMethods) : Option WebhookEntity :=
  r.rows.find? fun w => w.webhookPath = webhookPath ∧ w.method = method

def findBy (webhookId : Option String) (method : IHttpRequestMethods)
    (pathLength : ℕ) : List WebhookEntity :=
  r.rows.filter fun w =>
    w.webhookId = webhookId ∧ w.method = method ∧ w.pathLength = some pathLength

def getStaticWebhooks : List WebhookEntity :=
  r.rows.filter fun w => w.webhookId = none

/-- What `populateCache` writes. -/
def staticEntries : List (String × WebhookEntity) :=
  r.getStaticWebhooks.map fun w => (w.cacheKey, w)

theorem eq_of_key {w w' : WebhookEntity} (hw : w ∈ r.rows)
    (hw' : w' ∈ r.rows) (hpath : w.webhookPath = w'.webhookPath) (hmethod : w.method = w'.method) :
    w = w' :=
  List.inj_on_of_nodup_map r.nodup hw hw' (Prod.ext hpath hmethod)

end WebhookRepository

/-- The cache; `available` says whether its calls succeed. -/
structure CacheService where
  entries : Dict String WebhookEntity := .empty
  available : Bool := true

namespace CacheService

def get (c : CacheService) (key : String) : Except Unit (Option WebhookEntity) :=
  if c.available then .ok (c.entries.get? key) else .error ()

def set (c : CacheService) (key : String) (w : WebhookEntity) : Except Unit CacheService :=
  if c.available then .ok { c with entries := c.entries.set key w } else .error ()

def setMany (c : CacheService) (keysValues : List (String × WebhookEntity)) :
    Except Unit CacheService :=
  if c.available then .ok { c with entries := c.entries.setAll keysValues } else .error ()

/-- Each entry is a row, under the key of its unique path or under that of its path. -/
def Consistent (c : CacheService) (r : WebhookRepository) : Prop :=
  ∀ key w, c.entries.get? key = some w →
    w ∈ r.rows ∧ (key = w.cacheKey ∨ key = webhookCacheKey w.method w.webhookPath)

end CacheService

/-- The service: the stored rows, and a cache that is consistent with them. -/
structure WebhookService where
  webhookRepository : WebhookRepository
  cacheService : CacheService := {}
  consistent : cacheService.Consistent webhookRepository

/-- What the loop of `findDynamicWebhook` keeps. -/
structure WebhookMatch where
  webhook : Option WebhookEntity := none
  maxMatches : ℕ := 0

def allStaticSegmentsMatch (requestSegments : List String) (dw : WebhookEntity) : Bool :=
  dw.staticSegments.all fun s => s ∈ requestSegments

/-- The body of the loop. -/
def WebhookMatch.next (requestSegments : List String) (acc : WebhookMatch) (dw : WebhookEntity) :
    WebhookMatch :=
  if allStaticSegmentsMatch requestSegments dw ∧ dw.staticSegments.length > acc.maxMatches then
    { maxMatches := dw.staticSegments.length, webhook := some dw }
  else if dw.staticSegments.length = 0 ∧ acc.webhook = none then { acc with webhook := some dw }
  else acc

def findDynamicWebhook (r : WebhookRepository) (path : String) (method : IHttpRequestMethods) :
    Option WebhookEntity :=
  let uuidSegment := (segments path).head?
  let otherSegments := (segments path).tail
  let dynamicWebhooks := r.findBy uuidSegment method otherSegments.length
  (dynamicWebhooks.foldl (WebhookMatch.next otherSegments) {}).webhook

namespace WebhookService

def findStaticWebhook (s : WebhookService) (method : IHttpRequestMethods) (path : String) :
    Option WebhookEntity :=
  s.webhookRepository.findOneBy path method

def cached (s : WebhookService) (method : IHttpRequestMethods) (path : String) :
    Option WebhookEntity :=
  match s.cacheService.get (webhookCacheKey method path) with
  | .ok cachedStaticWebhook => cachedStaticWebhook
  | .error _ => none

/-- The webhook, and the cache afterwards. -/
def findCached (s : WebhookService) (method : IHttpRequestMethods) (path : String) :
    Option WebhookEntity × CacheService :=
  match s.cached method path with
  | some cachedStaticWebhook => (some cachedStaticWebhook, s.cacheService)
  | none => match s.findStaticWebhook method path with
    | some dbStaticWebhook =>
      match s.cacheService.set (webhookCacheKey method path) dbStaticWebhook with
      | .ok cacheService => (some dbStaticWebhook, cacheService)
      | .error _ => (some dbStaticWebhook, s.cacheService)
    | none => (findDynamicWebhook s.webhookRepository path method, s.cacheService)

end WebhookService

namespace CacheService.Consistent

variable {c : CacheService} {r : WebhookRepository}

theorem empty (r : WebhookRepository) : CacheService.Consistent {} r := fun _ _ h => by cases h

theorem set (h : c.Consistent r) {key : String} {w : WebhookEntity} (hw : w ∈ r.rows)
    (hkey : key = w.cacheKey ∨ key = webhookCacheKey w.method w.webhookPath) :
    CacheService.Consistent { c with entries := c.entries.set key w } r := by
  intro other w' hget
  rw [Dict.get?_set] at hget
  split at hget
  · rename_i hother
    cases hget
    rw [hother]
    exact ⟨hw, hkey⟩
  · exact h other w' hget

theorem setAll {entries : List (String × WebhookEntity)}
    (hentries : ∀ e ∈ entries, e.2 ∈ r.rows ∧ e.1 = e.2.cacheKey) :
    ∀ {c : CacheService}, c.Consistent r →
      CacheService.Consistent { c with entries := c.entries.setAll entries } r := by
  induction entries with
  | nil => exact fun h => h
  | cons e entries ih =>
    intro c h
    obtain ⟨he, hrest⟩ := List.forall_mem_cons.mp hentries
    exact ih hrest (h.set he.1 (.inl he.2))

end CacheService.Consistent

namespace WebhookService
variable (s : WebhookService)

theorem consistent_findCached (method : IHttpRequestMethods)
    (path : String) : (s.findCached method path).2.Consistent s.webhookRepository := by
  rw [findCached]
  split
  · exact s.consistent
  · split
    · rename_i w hw
      rw [CacheService.set]
      split
      · rename_i hset
        split at hset
        · cases hset
          obtain ⟨hpath, hmethod⟩ : w.webhookPath = path ∧ w.method = method := by
            simpa using List.find?_some hw
          refine s.consistent.set (List.mem_of_find?_eq_some hw) (.inr ?_)
          rw [hpath, hmethod]
        · cases hset
      · exact s.consistent
    · exact s.consistent

def findWebhook (method : IHttpRequestMethods) (path : String) :
    Option WebhookEntity × WebhookService :=
  let found := s.findCached method path
  (found.1, { s with cacheService := found.2, consistent := s.consistent_findCached method path })

theorem findWebhook_eq (method : IHttpRequestMethods) (path : String) :
    (s.findWebhook method path).1 = (s.cached method path).or
      ((s.findStaticWebhook method path).or (findDynamicWebhook s.webhookRepository path method)) :=
  by
  have hcached : (s.findWebhook method path).1 = (s.findCached method path).1 := rfl
  rw [hcached, findCached]
  cases s.cached method path with
  | some w => rfl
  | none =>
    cases s.findStaticWebhook method path with
    | some w =>
      cases hset : s.cacheService.set (webhookCacheKey method path) w <;> simp only [hset] <;> rfl
    | none => rfl

theorem consistent_populateCache {c : CacheService}
    (h : s.cacheService.setMany s.webhookRepository.staticEntries = .ok c) :
    c.Consistent s.webhookRepository := by
  rw [CacheService.setMany] at h
  split at h
  · cases h
    refine CacheService.Consistent.setAll (fun e he => ?_) s.consistent
    obtain ⟨w, hw, rfl⟩ := List.mem_map.mp he
    exact ⟨List.mem_of_mem_filter hw, rfl⟩
  · cases h

/-- The write is not waited for, nor is its error. -/
def populateCache : WebhookService :=
  match h : s.cacheService.setMany s.webhookRepository.staticEntries with
  | .ok cacheService => { s with cacheService, consistent := s.consistent_populateCache h }
  | .error _ => s

theorem cached_spec {s : WebhookService} {method : IHttpRequestMethods} {path : String}
    {w : WebhookEntity} (h : s.cached method path = some w) :
    w ∈ s.webhookRepository.rows ∧ w.method = method ∧
      (path = w.webhookPath ∨ path = w.uniquePath) := by
  rw [cached, CacheService.get] at h
  split at h
  · rename_i hget
    split at hget
    · cases hget
      obtain ⟨hw, hkey | hkey⟩ := s.consistent _ w h
      · obtain ⟨hmethod, hpath⟩ := webhookCacheKey_injective hkey
        exact ⟨hw, hmethod.symm, .inr hpath⟩
      · obtain ⟨hmethod, hpath⟩ := webhookCacheKey_injective hkey
        exact ⟨hw, hmethod.symm, .inl hpath⟩
    · cases hget
  · cases h

end WebhookService

/-- The count that the loop keeps is that of its webhook. -/
def WebhookMatch.Counted (acc : WebhookMatch) : Prop :=
  acc.maxMatches = (acc.webhook.map fun w => w.staticSegments.length).getD 0

variable {requestSegments : List String} {dw : WebhookEntity}

theorem WebhookMatch.next_of_not_all
    (h : ¬ allStaticSegmentsMatch requestSegments dw = true) (acc : WebhookMatch) :
    acc.next requestSegments dw = acc := by
  have hne : dw.staticSegments.length ≠ 0 := by
    intro hzero
    rw [allStaticSegmentsMatch, List.length_eq_zero_iff.mp hzero] at h
    exact h rfl
  rw [next, if_neg fun hall => h hall.1, if_neg fun hzero => hne hzero.1]

theorem WebhookMatch.next_of_all
    (h : allStaticSegmentsMatch requestSegments dw = true) {acc : WebhookMatch}
    (hacc : acc.Counted) : (acc.next requestSegments dw).Counted ∧
      (acc.next requestSegments dw).webhook = List.argAux
        (fun b c => c.staticSegments.length < b.staticSegments.length) acc.webhook dw := by
  obtain ⟨webhook, maxMatches⟩ := acc
  obtain rfl : maxMatches = (webhook.map fun w => w.staticSegments.length).getD 0 := hacc
  cases webhook with
  | none =>
    -- a row of parameters only is taken by the second branch
    by_cases hpos : dw.staticSegments.length > 0
    · simp [next, h, hpos, Counted, List.argAux]
    · simp [next, Nat.eq_zero_of_not_pos hpos, Counted, List.argAux]
  | some w =>
    by_cases hmore : w.staticSegments.length < dw.staticSegments.length
    · simp [next, h, hmore, Counted, List.argAux]
    · simp [next, hmore, Counted, List.argAux]

theorem WebhookMatch.foldl_next_from :
    ∀ (rows : List WebhookEntity) {acc : WebhookMatch}, acc.Counted →
      (rows.foldl (next requestSegments) acc).webhook
        = (rows.filter (allStaticSegmentsMatch requestSegments)).foldl
            (List.argAux fun b c => c.staticSegments.length < b.staticSegments.length)
            acc.webhook := by
  intro rows
  induction rows with
  | nil => exact fun _ => rfl
  | cons dw rows ih =>
    intro acc hacc
    by_cases hall : allStaticSegmentsMatch requestSegments dw = true
    · obtain ⟨hnext, hwebhook⟩ := next_of_all hall hacc
      rw [List.foldl_cons, List.filter_cons_of_pos hall, List.foldl_cons, ih hnext, hwebhook]
    · rw [List.foldl_cons, List.filter_cons_of_neg hall, next_of_not_all hall, ih hacc]

theorem WebhookMatch.foldl_next (requestSegments : List String) (rows : List WebhookEntity) :
    (rows.foldl (next requestSegments) {}).webhook
      = (rows.filter (allStaticSegmentsMatch requestSegments)).argmax
          fun w => w.staticSegments.length :=
  foldl_next_from rows rfl

namespace LiveWebhooks

/-- The parameters of a request, an unset one being `none`.  A plain object does not take
`__proto__`. -/
abbrev Params := Dict String (Option String)

def setParam (params : Params) (name : String) (value : Option String) : Params :=
  if name = "__proto__" then params else params.set name value

def bindParams (webhook : WebhookEntity) (path : String) : Params :=
  if webhook.isDynamic then
    let pathElements := (segments path).drop 1
    (segments webhook.webhookPath).zipIdx.foldl (fun params ele =>
      if isParam ele.1 then setParam params (paramName ele.1) pathElements[ele.2]? else params)
      .empty
  else .empty

def removeTrailingSlash (path : String) : String :=
  if path.toList.getLast? = some '/' then String.ofList path.toList.dropLast else path

def findWebhook (s : WebhookService) (path : String) (httpMethod : IHttpRequestMethods) :
    Option WebhookEntity :=
  (s.findWebhook httpMethod (removeTrailingSlash path)).1

/-- The webhook that a request is for, with the parameters of the request. -/
def executeWebhook (s : WebhookService) (httpMethod : IHttpRequestMethods) (path : String) :
    Option (WebhookEntity × Params) :=
  (findWebhook s path httpMethod).map fun webhook => (webhook, bindParams webhook path)

theorem foldl_setParam (elements : List String) :
    ∀ (pattern : List (String × ℕ)) (params : Params),
      pattern.foldl (fun params ele =>
          if isParam ele.1 then setParam params (paramName ele.1) elements[ele.2]? else params)
        params
        = params.setAll (bindings "__proto__" (pattern.map fun p => (p.1, elements[p.2]?)))
  | [], _ => rfl
  | ele :: pattern, params => by
    rw [List.foldl_cons, foldl_setParam elements pattern, List.map_cons, bindings_cons]
    by_cases hparam : isParam ele.1 = true
    · by_cases hname : paramName ele.1 = "__proto__"
      · rw [if_pos hparam, setParam, if_pos hname, if_neg fun h => h.2 hname]
      · rw [if_pos hparam, setParam, if_neg hname, if_pos ⟨hparam, hname⟩]
        rfl
    · rw [if_neg hparam, if_neg fun h => hparam h.1]

theorem bindParams_eq {webhook : WebhookEntity} (h : webhook.isDynamic = true) (path : String) :
    bindParams webhook path = Dict.empty.setAll (bindings "__proto__"
      (positions (segments webhook.webhookPath) ((segments path).drop 1))) := by
  rw [bindParams, if_pos h, positions]
  exact foldl_setParam _ _ _

theorem segments_of_removeTrailingSlash (path : String) :
    ∃ more, segments path = segments (removeTrailingSlash path) ++ more ∧
      ∀ segment ∈ more, isParam segment = false := by
  rw [removeTrailingSlash]
  split
  · rename_i hlast
    have hpath : path = String.ofList path.toList.dropLast ++ "/" ++ "" := by
      rw [← String.toList_inj, String.toList_append, String.toList_append, String.toList_ofList]
      exact (List.dropLast_append_getLast? '/' hlast).symm.trans (List.append_nil _).symm
    refine ⟨segments "", ?_, by decide⟩
    nth_rewrite 1 [hpath]
    exact segments_append _ _
  · exact ⟨[], (List.append_nil _).symm, fun _ h => by cases h⟩

theorem removeTrailingSlash_append (path : String) :
    removeTrailingSlash (path ++ "/") = path := by
  have hchars : (path ++ "/").toList = path.toList ++ ['/'] := String.toList_append
  rw [removeTrailingSlash, hchars, if_pos List.getLast?_concat, List.dropLast_concat,
    String.ofList_toList]

end LiveWebhooks

end N8n
