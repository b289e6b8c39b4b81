/-
Test URLs and production URLs.

The webhooks of a node are registered for a test and stored as rows when the workflow is
activated.  Whether a path has parameters is decided for the one by `isDynamicPath`, which
disregards the first segment, and for the other by the whole path; the one keeps a leading
slash and the other does not; and the two are looked up by different keys.
-/
import N8n.AddedWebhook
import N8n.WebhookRouting
import N8n.WebhookTable
import Mathlib.Data.List.Dedup

namespace N8n

open PathPattern LiveWebhooks

structure WebhookNode where
  workflowId : String
  name : String
  type : String
  webhookId : String
  path : String
  httpMethods : List IHttpRequestMethods
  webhookId_ne : webhookId ≠ ""
  httpMethods_ne : httpMethods ≠ []

namespace WebhookNode
variable (node : WebhookNode)

/-- `getNodeWebhookPath`, of the path between its outer slashes. -/
def fullPath : String :=
  let path := removeTrailingSlash (removeLeadingSlash node.path)
  if path = "" then node.webhookId else path

def webhookData (httpMethod : IHttpRequestMethods) : TestWebhook where
  node := node.name
  nodeType := node.type
  httpMethod
  path := node.fullPath
  webhookId := if isDynamicPath node.fullPath ∧ node.webhookId ≠ "" then some node.webhookId
    else none

def getNodeWebhooks : List TestWebhook := node.httpMethods.map node.webhookData

/-- The row that `addWebhooks` makes. -/
def webhook (webhookData : TestWebhook) : WebhookEntity :=
  addedWebhook node.workflowId webhookData.node webhookData.httpMethod webhookData.path
    (some node.webhookId)

def registration (webhook : TestWebhook) : TestWebhookRegistration where
  workflowId := node.workflowId
  pushRef := none
  webhook
  session := 0

def registrations (userId : String) : Dict String TestWebhookRegistration :=
  Dict.empty.setAll (node.getNodeWebhooks.map fun webhook =>
    let cacheableWebhook := webhook.cacheable userId
    (cacheableWebhook.toKey, node.registration cacheableWebhook))

section

variable (node : WebhookNode)

def registeredPath : String := removeTrailingSlash node.fullPath

def storedPath : String := removeTrailingSlash (removeLeadingSlash node.fullPath)

def registered (userId : String) (httpMethod : IHttpRequestMethods) : TestWebhook :=
  (node.webhookData httpMethod).cacheable userId

def row (httpMethod : IHttpRequestMethods) : WebhookEntity :=
  node.webhook (node.webhookData httpMethod)

def testId : Option String := if isDynamicPath node.fullPath then some node.webhookId else none

def storedId : Option String := if hasParam node.fullPath then some node.webhookId else none

theorem registered_eq (userId : String) (httpMethod : IHttpRequestMethods) :
    node.registered userId httpMethod
      = { node := node.name, nodeType := node.type, httpMethod, path := node.registeredPath,
          webhookId := node.testId, isTest := true, userId := some userId } := by
  simp only [registered, TestWebhook.cacheable, webhookData, registeredPath, testId,
    node.webhookId_ne, ne_eq, not_false_eq_true, and_true]

theorem row_eq (httpMethod : IHttpRequestMethods) : node.row httpMethod
    = { workflowId := node.workflowId, webhookPath := node.storedPath, method := httpMethod,
        node := node.name, webhookId := node.storedId,
        pathLength := node.storedId.map fun _ => (segments node.storedPath).length } := by
  have hid : (some node.webhookId).filter (· ≠ "") = some node.webhookId := by
    rw [Option.filter_some, if_pos (decide_eq_true node.webhookId_ne)]
  simp only [row, webhook, webhookData, addedWebhook, storedPath, storedId, hid]

theorem toKey_registered (userId : String) (httpMethod : IHttpRequestMethods) :
    (node.registered userId httpMethod).toKey = toKey httpMethod node.registeredPath node.testId :=
  by rw [registered_eq, TestWebhook.toKey]

theorem path_registered (userId : String) (httpMethod : IHttpRequestMethods) :
    (node.registered userId httpMethod).path = node.registeredPath := by
  rw [registered_eq]

theorem testId_of_true (h : isDynamicPath node.fullPath = true) :
    node.testId = some node.webhookId := if_pos h

theorem testId_of_false (h : isDynamicPath node.fullPath = false) : node.testId = none :=
  if_neg (Bool.eq_false_iff.mp h)

theorem storedId_of_true (h : hasParam node.fullPath = true) :
    node.storedId = some node.webhookId := if_pos h

theorem storedId_of_false (h : hasParam node.fullPath = false) : node.storedId = none :=
  if_neg (Bool.eq_false_iff.mp h)

theorem hasParam_storedPath : hasParam node.storedPath = hasParam node.fullPath := by
  rw [storedPath, hasParam_removeTrailingSlash, hasParam_removeLeadingSlash]

theorem hasParam_registeredPath : hasParam node.registeredPath = hasParam node.fullPath :=
  hasParam_removeTrailingSlash node.fullPath

theorem isDynamic_row (httpMethod : IHttpRequestMethods) :
    (node.row httpMethod).isDynamic = hasParam node.fullPath := by
  rw [WebhookEntity.isDynamic, row_eq, ← hasParam_storedPath, hasParam_eq]

/-- A second row of the same method changes nothing. -/
def rows : List WebhookEntity := node.httpMethods.dedup.map node.row

variable {w : WebhookEntity}

theorem mem_rows :
    w ∈ node.rows ↔ ∃ httpMethod ∈ node.httpMethods, node.row httpMethod = w := by
  rw [rows, List.mem_map]
  exact exists_congr fun httpMethod => and_congr_left fun _ => List.mem_dedup

def webhookRepository : WebhookRepository where
  rows := node.rows
  nodup := by
    rw [rows, List.map_map]
    refine (List.nodup_dedup node.httpMethods).map fun m m' h => ?_
    exact (Prod.mk.inj h).2
  wellFormed w hw := by
    obtain ⟨httpMethod, -, rfl⟩ := node.mem_rows.mp hw
    exact wellFormed_addedWebhook

/-- What `addWebhooks` leaves. -/
def stored : WebhookService where
  webhookRepository := node.webhookRepository
  cacheService := { entries := Dict.empty.setAll (node.rows.map fun w => (w.cacheKey, w)) }
  consistent := CacheService.Consistent.setAll (c := {})
    (fun e he => by
      obtain ⟨w, hw, rfl⟩ := List.mem_map.mp he
      exact ⟨hw, rfl⟩) (.empty _)

def Finds (path : String) (webhookId : Option String) : Prop :=
  keyRest path webhookId = keyRest node.registeredPath node.testId ∧
    ∀ s ∈ statics (segments node.registeredPath), s ∈ segments path

def uniquePath : String :=
  if ':' ∈ node.storedPath.toList then node.storedId.getD "" ++ "/" ++ node.storedPath
  else node.storedPath

/-- The row is found for a path. -/
def Serves (path : String) : Prop :=
  path = node.storedPath ∨ path = node.uniquePath ∨
    node.storedId = (segments path).head? ∧
      (segments node.storedPath).length = (segments path).tail.length ∧
        ∀ s ∈ statics (segments node.storedPath), s ∈ (segments path).tail

instance (path : String) (webhookId : Option String) : Decidable (node.Finds path webhookId) :=
  inferInstanceAs (Decidable (_ ∧ _))

instance (path : String) : Decidable (node.Serves path) :=
  inferInstanceAs (Decidable (_ ∨ _ ∨ _ ∧ _ ∧ _))

variable {node} {userId : String}

theorem get?_registrations {key : String} {r : TestWebhookRegistration} :
    (node.registrations userId).get? key = some r ↔ ∃ httpMethod ∈ node.httpMethods,
      (node.registered userId httpMethod).toKey = key ∧
        node.registration (node.registered userId httpMethod) = r := by
  have hentries : (node.getNodeWebhooks.map fun webhook =>
      ((webhook.cacheable userId).toKey, node.registration (webhook.cacheable userId)))
      = node.httpMethods.map fun m =>
          ((node.registered userId m).toKey, node.registration (node.registered userId m)) := by
    rw [getNodeWebhooks, List.map_map]
    rfl
  rw [registrations, hentries]
  constructor
  · intro h
    rcases Dict.get?_setAll_cases h with hmem | ⟨hempty, -⟩
    · obtain ⟨httpMethod, hmethod, heq⟩ := List.mem_map.mp hmem
      exact ⟨httpMethod, hmethod, (Prod.mk.inj heq).1, (Prod.mk.inj heq).2⟩
    · cases hempty
  · rintro ⟨httpMethod, hmethod, rfl, rfl⟩
    refine Dict.get?_setAll_of_agree ?_ (.inr (List.mem_map.mpr ⟨httpMethod, hmethod, rfl⟩))
    intro e he hkey
    obtain ⟨m, -, rfl⟩ := List.mem_map.mp he
    simp only [toKey_registered, toKey_inj, and_true] at hkey
    rw [hkey]

variable {path : String} {httpMethod : IHttpRequestMethods}

theorem getActiveWebhook_eq_some {webhookId : Option String} {w : TestWebhook} :
    TestWebhooks.getActiveWebhook (node.registrations userId) httpMethod path webhookId = some w ↔
      (httpMethod ∈ node.httpMethods ∧ node.Finds path webhookId) ∧
        node.registered userId httpMethod = w := by
  have hkey : ∀ m, (node.registered userId m).toKey = toKey httpMethod path webhookId ↔
      m = httpMethod ∧ keyRest path webhookId = keyRest node.registeredPath node.testId := by
    intro m
    rw [toKey_registered, toKey_inj]
    exact and_congr_right fun _ => eq_comm
  have hpath : ∀ m, (node.registration (node.registered userId m)).webhook.path
      = node.registeredPath := node.path_registered userId
  rw [TestWebhooks.getActiveWebhook, Option.bind_eq_some_iff]
  simp only [get?_registrations, hkey, TestWebhooks.getActiveWebhookFromRegistration_eq,
    Option.ite_none_right_eq_some, Option.some.injEq, Finds]
  constructor
  · rintro ⟨_, ⟨m, hm, ⟨rfl, hrest⟩, rfl⟩, hstatics, hw⟩
    rw [hpath] at hstatics
    exact ⟨⟨hm, hrest, hstatics⟩, hw⟩
  · rintro ⟨⟨hm, hrest, hstatics⟩, hw⟩
    refine ⟨_, ⟨httpMethod, hm, ⟨rfl, hrest⟩, rfl⟩, ?_, hw⟩
    rwa [hpath]

variable {httpMethod : IHttpRequestMethods}

theorem webhookPath_row : (node.row httpMethod).webhookPath = node.storedPath := by
  rw [row_eq]

theorem method_row : (node.row httpMethod).method = httpMethod := by
  rw [row_eq]

theorem webhookId_row : (node.row httpMethod).webhookId = node.storedId := by
  rw [row_eq]

theorem pathLength_row : (node.row httpMethod).pathLength
      = node.storedId.map fun _ => (segments node.storedPath).length := by
  rw [row_eq]

theorem staticSegments_row :
    (node.row httpMethod).staticSegments = statics (segments node.storedPath) := by
  rw [WebhookEntity.staticSegments, webhookPath_row]

theorem uniquePath_row : (node.row httpMethod).uniquePath = node.uniquePath := by
  rw [WebhookEntity.uniquePath, webhookPath_row, webhookId_row, uniquePath]

theorem cached_uniquePath
    (hm : httpMethod ∈ node.httpMethods) (hpath : path = node.uniquePath) :
    node.stored.cached httpMethod path = some (node.row httpMethod) := by
  have hkey : webhookCacheKey httpMethod path = (node.row httpMethod).cacheKey := by
    rw [WebhookEntity.cacheKey, method_row, uniquePath_row, hpath]
  have hentry : ((node.row httpMethod).cacheKey, node.row httpMethod)
      ∈ node.rows.map fun w => (w.cacheKey, w) :=
    List.mem_map.mpr ⟨_, node.mem_rows.mpr ⟨httpMethod, hm, rfl⟩, rfl⟩
  have hget : node.stored.cacheService.entries.get? (webhookCacheKey httpMethod path)
      = some (node.row httpMethod) := by
    rw [hkey]
    refine Dict.get?_setAll_of_agree (fun e he heq => ?_) (.inr hentry)
    obtain ⟨w, hw, rfl⟩ := List.mem_map.mp he
    obtain ⟨m, -, rfl⟩ := node.mem_rows.mp hw
    have hmethod := (webhookCacheKey_injective heq).1
    rw [method_row, method_row] at hmethod
    rw [hmethod]
  have hread : node.stored.cacheService.get (webhookCacheKey httpMethod path)
      = .ok (node.stored.cacheService.entries.get? (webhookCacheKey httpMethod path)) := rfl
  rw [WebhookService.cached, hread, hget]

theorem of_findWebhook
    (h : (node.stored.findWebhook httpMethod path).1 = some w) :
    (httpMethod ∈ node.httpMethods ∧ node.Serves path) ∧ node.row httpMethod = w := by
  have hrow : w ∈ node.rows ∧ w.method = httpMethod ∧ node.Serves path := by
    rw [WebhookService.findWebhook_eq, Option.or_eq_some_iff, Option.or_eq_some_iff] at h
    rcases h with hcached | ⟨-, hstatic | ⟨-, hdynamic⟩⟩
    · obtain ⟨hw, hmethod, hpath⟩ := WebhookService.cached_spec hcached
      obtain ⟨m, -, rfl⟩ := node.mem_rows.mp hw
      rw [webhookPath_row, uniquePath_row] at hpath
      exact ⟨hw, hmethod, hpath.imp_right .inl⟩
    · have hw := List.mem_of_find?_eq_some hstatic
      obtain ⟨hpath, hmethod⟩ : w.webhookPath = path ∧ w.method = httpMethod := by
        simpa using List.find?_some hstatic
      obtain ⟨m, -, rfl⟩ := node.mem_rows.mp hw
      rw [webhookPath_row] at hpath
      exact ⟨hw, hmethod, .inl hpath.symm⟩
    · obtain ⟨hw, ⟨hid, hmethod, hlength⟩, hstatics⟩ :=
        mem_contenders.mp (findDynamicWebhook_eq_some_iff.mp hdynamic).1
      obtain ⟨m, -, rfl⟩ := node.mem_rows.mp hw
      refine ⟨hw, hmethod, .inr (.inr ?_)⟩
      rw [webhookId_row] at hid
      rw [pathLength_row] at hlength
      rw [allStaticSegmentsMatch, staticSegments_row, List.all_eq_true] at hstatics
      obtain ⟨id, hstored, hlength⟩ := Option.map_eq_some_iff.mp hlength
      exact ⟨hid, hlength, fun s hs => of_decide_eq_true (hstatics s hs)⟩
  obtain ⟨hw, hmethod, hserves⟩ := hrow
  obtain ⟨m, hm, rfl⟩ := node.mem_rows.mp hw
  rw [method_row] at hmethod
  rw [← hmethod]
  exact ⟨⟨hm, hserves⟩, rfl⟩

theorem findWebhook_eq_some : (node.stored.findWebhook httpMethod path).1 = some w ↔
      (httpMethod ∈ node.httpMethods ∧ node.Serves path) ∧ node.row httpMethod = w := by
  refine ⟨of_findWebhook, ?_⟩
  rintro ⟨⟨hm, hserves⟩, rfl⟩
  have hrow : node.row httpMethod ∈ node.stored.webhookRepository.rows :=
    node.mem_rows.mpr ⟨httpMethod, hm, rfl⟩
  have hsome : (node.stored.findWebhook httpMethod path).1.isSome = true := by
    rw [WebhookService.findWebhook_eq, Option.isSome_or, Option.isSome_or, Bool.or_eq_true,
      Bool.or_eq_true]
    rcases hserves with hpath | hunique | ⟨hid, hlength, hstatics⟩
    · refine .inr (.inl (List.find?_isSome.mpr ⟨_, hrow, decide_eq_true ⟨?_, ?_⟩⟩))
      · rw [webhookPath_row, hpath]
      · rw [method_row]
    · refine .inl ?_
      rw [cached_uniquePath hm hunique]
      rfl
    · refine .inr (.inr (Option.isSome_iff_ne_none.mpr ?_))
      rw [ne_eq, findDynamicWebhook_eq_none_iff]
      refine List.ne_nil_of_mem (mem_contenders.mpr ⟨hrow, ⟨?_, method_row, ?_⟩, ?_⟩)
      · rw [webhookId_row, hid]
      · rw [pathLength_row, ← hlength]
        cases hhead : (segments path).head? with
        | none => exact absurd hhead (head?_segments_ne_none path)
        | some id =>
          rw [hid, hhead, Option.map_some]
      · rw [allStaticSegmentsMatch, staticSegments_row, List.all_eq_true]
        exact fun s hs => decide_eq_true (hstatics s hs)
  obtain ⟨w, hw⟩ := Option.isSome_iff_exists.mp hsome
  rw [hw, (of_findWebhook hw).2]

theorem getActiveWebhook_eq (userId path : String) (webhookId : Option String)
    (httpMethod : IHttpRequestMethods) :
    TestWebhooks.getActiveWebhook (node.registrations userId) httpMethod path webhookId
      = if httpMethod ∈ node.httpMethods ∧ node.Finds path webhookId then
          some (node.registered userId httpMethod)
        else none := by
  refine Option.ext fun w => ?_
  rw [getActiveWebhook_eq_some, Option.ite_none_right_eq_some, Option.some_inj]

theorem findWebhook_eq (path : String) (httpMethod : IHttpRequestMethods) :
    (node.stored.findWebhook httpMethod path).1
      = if httpMethod ∈ node.httpMethods ∧ node.Serves path then some (node.row httpMethod)
        else none := by
  refine Option.ext fun w => ?_
  rw [findWebhook_eq_some, Option.ite_none_right_eq_some, Option.some_inj]

/-- The registration is found with the whole path or with its first segment as id. -/
def Tests (node : WebhookNode) (path : String) : Prop :=
  node.Finds path none ∨ node.Finds ("/".intercalate (segments path).tail) (segments path).head?

instance (node : WebhookNode) (path : String) : Decidable (node.Tests path) :=
  inferInstanceAs (Decidable (_ ∨ _))

/-- The parameters of a test: none, if it is found with the whole path. -/
def testParams (node : WebhookNode) (path : String) : Params :=
  if node.Finds path none then .empty
  else Dict.empty.setAll (bindings "__proto__"
    (positions (segments node.registeredPath) (segments path).tail))

def storedParams (node : WebhookNode) (path : String) : Params :=
  if hasParam node.fullPath then Dict.empty.setAll (bindings "__proto__"
    (positions (segments node.storedPath) ((segments path).drop 1)))
  else .empty

/-- The test finds a webhook of a node and a method iff the service does, and both bind the
same parameters. -/
def Agree (node : WebhookNode) (userId : String) (httpMethod : IHttpRequestMethods)
    (path : String) : Prop :=
  (TestWebhooks.executeWebhook (node.registrations userId) httpMethod path).map
      (fun found => (found.1.node, found.1.httpMethod, found.2))
    = (LiveWebhooks.executeWebhook node.stored httpMethod path).map
        fun found => (found.1.node, found.1.method, found.2)

theorem bindParams_row (httpMethod : IHttpRequestMethods) (path : String) :
    bindParams (node.row httpMethod) path = node.storedParams path := by
  rw [storedParams]
  split
  · rename_i h
    rw [bindParams_eq ((node.isDynamic_row httpMethod).trans h), webhookPath_row]
  · rename_i h
    rw [bindParams, if_neg fun hdynamic => h ((node.isDynamic_row httpMethod).symm.trans hdynamic)]

theorem executeWebhook_registrations
    (hm : httpMethod ∈ node.httpMethods) :
    TestWebhooks.executeWebhook (node.registrations userId) httpMethod path
      = if node.Tests (removeTrailingSlash path) then
          some (node.registered userId httpMethod, node.testParams (removeTrailingSlash path))
        else none := by
  rw [TestWebhooks.executeWebhook_eq, getActiveWebhook_eq, getActiveWebhook_eq]
  by_cases hwhole : node.Finds (removeTrailingSlash path) none
  · have htests : node.Tests (removeTrailingSlash path) := Or.inl hwhole
    rw [if_pos ⟨hm, hwhole⟩, if_pos htests, testParams, if_pos hwhole]
    rfl
  · rw [if_neg fun h => hwhole h.2, Option.map_none, Option.none_or]
    by_cases hfirst : node.Finds ("/".intercalate (segments (removeTrailingSlash path)).tail)
        (segments (removeTrailingSlash path)).head?
    · have htests : node.Tests (removeTrailingSlash path) := Or.inr hfirst
      rw [if_pos ⟨hm, hfirst⟩, if_pos htests, testParams, if_neg hwhole, Option.map_some,
        path_registered]
    · have hneither : ¬ node.Tests (removeTrailingSlash path) := fun h => h.elim hwhole hfirst
      rw [if_neg fun h => hfirst h.2, if_neg hneither, Option.map_none]

theorem executeWebhook_stored
    (hm : httpMethod ∈ node.httpMethods) :
    LiveWebhooks.executeWebhook node.stored httpMethod path
      = if node.Serves (removeTrailingSlash path) then
          some (node.row httpMethod, node.storedParams path)
        else none := by
  rw [LiveWebhooks.executeWebhook, LiveWebhooks.findWebhook, findWebhook_eq]
  by_cases hserves : node.Serves (removeTrailingSlash path)
  · rw [if_pos ⟨hm, hserves⟩, if_pos hserves, Option.map_some, bindParams_row]
  · rw [if_neg fun h => hserves h.2, if_neg hserves, Option.map_none]

theorem agree_iff :
    node.Agree userId httpMethod path ↔ (httpMethod ∈ node.httpMethods →
      (node.Tests (removeTrailingSlash path) ↔ node.Serves (removeTrailingSlash path)) ∧
        (node.Tests (removeTrailingSlash path) →
          node.testParams (removeTrailingSlash path) = node.storedParams path)) := by
  rw [Agree]
  by_cases hm : httpMethod ∈ node.httpMethods
  · rw [executeWebhook_registrations hm, executeWebhook_stored hm]
    by_cases htests : node.Tests (removeTrailingSlash path) <;>
      by_cases hserves : node.Serves (removeTrailingSlash path) <;>
        simp [hm, htests, hserves, registered_eq, row_eq]
  · rw [TestWebhooks.executeWebhook_eq, LiveWebhooks.executeWebhook, LiveWebhooks.findWebhook,
      getActiveWebhook_eq, getActiveWebhook_eq, findWebhook_eq]
    simp [hm]

end

end WebhookNode

end N8n
