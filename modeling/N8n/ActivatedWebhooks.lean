/-
The webhooks of activated workflows.

A workflow is activated when none of its webhooks is found to be another one's: each is
looked up under its full path, with the webhook id if it has parameters.  Its rows are then
stored under the path without the id, and removed when the workflow is deactivated.

* **`ActivatedWebhooks.owned_of_apart`** — every added row stays stored, and the requests for
  it reach it, along runs in which all workflows are.
-/
import N8n.AddedWebhook
import N8n.WebhookRouting
import N8n.WebhookTable

namespace N8n

open PathPattern LiveWebhooks

structure NodeWebhook where
  node : String
  httpMethod : IHttpRequestMethods
  path : String
  nodeWebhookId : Option String
  restartWebhook : Bool := false
  deriving DecidableEq

namespace NodeWebhook

def webhookId (webhook : NodeWebhook) : Option String :=
  if isDynamicPath webhook.path then webhook.nodeWebhookId.filter (· ≠ "") else none

/-- The id, if the path has a colon, and the path. -/
def getWebhookPath (webhook : NodeWebhook) : String :=
  let webhookId := if ':' ∈ webhook.path.toList then webhook.webhookId else none
  "/".intercalate ((webhookId.toList ++ [webhook.path]).filter (· ≠ ""))

def row (workflowId : String) (webhook : NodeWebhook) : WebhookEntity :=
  addedWebhook workflowId webhook.node webhook.httpMethod webhook.path webhook.nodeWebhookId

end NodeWebhook

/-- A workflow with the webhooks of its enabled nodes. -/
structure WebhookWorkflow where
  id : String
  webhooks : List NodeWebhook
  deriving DecidableEq

def WebhookWorkflow.rows (workflow : WebhookWorkflow) : List WebhookEntity :=
  (workflow.webhooks.filter fun webhook => !webhook.restartWebhook).map (·.row workflow.id)

/-- Where adding a workflow fails: at the webhook of this index, with its row stored or not;
and whether the webhooks are then cleared. -/
structure AddFailure where
  index : ℕ
  stored : Bool
  cleared : Bool
  deriving DecidableEq

structure WebhookConflict where
  trigger : String
  conflict : WebhookEntity
  deriving DecidableEq

inductive ActivationInput where
  | addWebhooks (workflow : WebhookWorkflow) (failure : Option AddFailure)
  | clearWebhooks (workflowId : String) (deleted : Bool)
  | findWebhook (method : IHttpRequestMethods) (path : String)
  | evict (key : String)

/-- The table, the cache, and the rows of the workflows that were added and not cleared. -/
structure ActivatedWebhooks where
  table : WebhookTable := .empty
  wellFormed : ∀ key w, table.rows.get? key = some w → w.WellFormed := by
    intro _ _ h
    cases h
  cacheService : CacheService := {}
  added : List WebhookEntity := []

variable {w : WebhookEntity}

theorem WebhookEntity.WellFormed.replacing_some {id : String} (h : w.WellFormed)
    (hid : w.webhookId = some id) (old : Option WebhookEntity) : w.replacing old = w := by
  rw [WebhookEntity.WellFormed, hid] at h
  cases old with
  | none => rfl
  | some old =>
    have hwebhookId : w.webhookId.or old.webhookId = w.webhookId := by rw [hid, Option.some_or]
    have hpathLength : w.pathLength.or old.pathLength = w.pathLength := by rw [h.2, Option.some_or]
    rw [WebhookEntity.replacing, hwebhookId, hpathLength]

theorem WebhookEntity.WellFormed.replacing_none {old : WebhookEntity} (h : w.WellFormed)
    (hid : w.webhookId = none) : w.replacing (some old)
      = { w with webhookId := old.webhookId, pathLength := old.pathLength } := by
  rw [WebhookEntity.WellFormed, hid] at h
  rw [WebhookEntity.replacing, hid, h, Option.none_or, Option.none_or]

theorem WebhookEntity.WellFormed.replacing {old : Option WebhookEntity}
    (h : w.WellFormed) (hold : ∀ v ∈ old, v.WellFormed ∧ v.webhookPath = w.webhookPath) :
    (w.replacing old).WellFormed := by
  cases hid : w.webhookId with
  | some id => rwa [h.replacing_some hid]
  | none =>
    cases old with
    | none => exact h
    | some old =>
      obtain ⟨hwf, hpath⟩ := hold old rfl
      rw [h.replacing_none hid]
      rw [WebhookEntity.WellFormed] at hwf ⊢
      simpa only [WebhookEntity.isDynamic, hpath] using hwf

namespace ActivatedWebhooks
variable (s : ActivatedWebhooks)

theorem nodup_values : (s.table.rows.values.map fun w => (w.webhookPath, w.method)).Nodup := by
  have hkeys : (s.table.rows.values.map fun w => (w.webhookPath, w.method))
      = s.table.rows.entries.map Prod.fst := by
    rw [Dict.values, List.map_map]
    exact List.map_congr_left fun e he => s.table.keyed e.1 e.2 (Dict.mem_entries_iff.mp he)
  rw [hkeys]
  exact s.table.rows.nodup

def webhookRepository : WebhookRepository where
  rows := s.table.rows.values
  nodup := s.nodup_values
  wellFormed w hw := by
    obtain ⟨key, hkey⟩ := Dict.mem_values_iff.mp hw
    exact s.wellFormed key w hkey

def cacheSet (key : String) (w : WebhookEntity) : ActivatedWebhooks :=
  match s.cacheService.set key w with
  | .ok cacheService => { s with cacheService }
  | .error _ => s

def cached (method : IHttpRequestMethods) (path : String) : Option WebhookEntity :=
  match s.cacheService.get (webhookCacheKey method path) with
  | .ok cachedStaticWebhook => cachedStaticWebhook
  | .error _ => none

def findWebhook (method : IHttpRequestMethods) (path : String) :
    Option WebhookEntity × ActivatedWebhooks :=
  match s.cached method path with
  | some cachedStaticWebhook => (some cachedStaticWebhook, s)
  | none => match s.table.findOneBy path method with
    | some dbStaticWebhook =>
      (some dbStaticWebhook, s.cacheSet (webhookCacheKey method path) dbStaticWebhook)
    | none => (findDynamicWebhook s.webhookRepository path method, s)

structure ConflictCheck where
  service : ActivatedWebhooks
  processedWebhooks : Dict String NodeWebhook := .empty
  conflicts : List WebhookConflict := []

def ConflictCheck.conflict (check : ConflictCheck) (trigger : String) (conflict : WebhookEntity) :
    ConflictCheck :=
  { check with conflicts := check.conflicts ++ [{ trigger, conflict }] }

variable (workflowId : String)

def ConflictCheck.next (check : ConflictCheck) (webhook : NodeWebhook) : ConflictCheck :=
  let path := webhook.getWebhookPath
  let webhookKey := webhook.httpMethod.toString ++ " " ++ path
  match check.processedWebhooks.get? webhookKey with
  | some conflict => check.conflict webhook.node
      { workflowId, webhookPath := conflict.path, method := conflict.httpMethod,
        node := conflict.node, webhookId := conflict.webhookId }
  | none =>
    let found := check.service.findWebhook webhook.httpMethod path
    let check := { check with service := found.2 }
    match found.1.filter (·.workflowId ≠ workflowId) with
    | some potentialConflict => check.conflict webhook.node potentialConflict
    | none => { check with processedWebhooks := check.processedWebhooks.set webhookKey webhook }

def findWebhookConflicts (workflow : WebhookWorkflow) : ConflictCheck :=
  (workflow.webhooks.filter fun webhook => webhook.path ≠ "" ∨ webhook.webhookId ≠ none).foldl
    (ConflictCheck.next workflow.id) { service := s }

def upsert (w : WebhookEntity) (hw : w.WellFormed) : ActivatedWebhooks :=
  { s with
    table := s.table.upsert w
    wellFormed := by
      intro key v hv
      rw [WebhookTable.get?_upsert] at hv
      split at hv
      · cases hv
        refine hw.replacing fun old hold => ?_
        have hkey := s.table.keyed _ _ hold
        exact ⟨s.wellFormed _ _ hold, (Prod.mk.inj hkey).1⟩
      · exact s.wellFormed key v hv }

def storeWebhook (webhook : NodeWebhook) : ActivatedWebhooks :=
  let w := webhook.row workflowId
  (s.cacheSet w.cacheKey w).upsert w wellFormed_addedWebhook

def populateCache : ActivatedWebhooks :=
  match s.cacheService.setMany (s.table.getStaticWebhooks.map fun w => (w.cacheKey, w)) with
  | .ok cacheService => { s with cacheService }
  | .error _ => s

def deleteWorkflowWebhooks : ActivatedWebhooks :=
  let webhooks := s.table.findByWorkflow workflowId
  { s with
    table := s.table.remove webhooks
    wellFormed := by
      intro key w hw
      rw [WebhookTable.get?_remove] at hw
      split at hw
      · cases hw
      · exact s.wellFormed key w hw
    cacheService :=
      if s.cacheService.available then
        { s.cacheService with
          entries := s.cacheService.entries.eraseAll (webhooks.map (·.cacheKey)) }
      else s.cacheService }

def forget : ActivatedWebhooks :=
  { s with added := s.added.filter (·.workflowId ≠ workflowId) }

def addWebhooks (workflow : WebhookWorkflow) : Option AddFailure → Except Unit ActivatedWebhooks
  | none =>
    let webhooks := workflow.webhooks.filter fun webhook => !webhook.restartWebhook
    let stored := webhooks.foldl (·.storeWebhook workflow.id ·) (s.forget workflow.id)
    let populated := if webhooks = [] then stored else stored.populateCache
    .ok { populated with added := populated.added ++ workflow.rows }
  | some failure =>
    let webhooks := workflow.webhooks.filter fun webhook => !webhook.restartWebhook
    match webhooks[failure.index]? with
    | none => .error ()
    | some webhook =>
      let before := (webhooks.take failure.index).foldl (·.storeWebhook workflow.id ·)
        (s.forget workflow.id)
      let stored := if failure.stored then before.storeWebhook workflow.id webhook
        else before.cacheSet (webhook.row workflow.id).cacheKey (webhook.row workflow.id)
      .ok (if failure.cleared then stored.deleteWorkflowWebhooks workflow.id else stored)

/-- A workflow is only added when no conflict was found for it. -/
def step : ActivationInput → Except Unit ActivatedWebhooks
  | .addWebhooks workflow failure =>
    let check := s.findWebhookConflicts workflow
    if check.conflicts = [] then check.service.addWebhooks workflow failure else .error ()
  | .clearWebhooks workflowId deleted =>
    .ok (if deleted then (s.forget workflowId).deleteWorkflowWebhooks workflowId else s)
  | .findWebhook method path => .ok (s.findWebhook method path).2
  | .evict key => .ok { s with
      cacheService := { s.cacheService with entries := s.cacheService.entries.erase key } }

end ActivatedWebhooks

namespace WebhookEntity

/-- The segments of the URL path of a row: its id, if it has one, and its path. -/
def template (w : WebhookEntity) : List String :=
  w.webhookId.toList.flatMap segments ++ segments w.webhookPath

/-- The request has a value for each parameter. -/
def Instantiates (w : WebhookEntity) (path : String) : Prop := Fits w.template (segments path)

/-- A row with parameters has an id, of one segment that is no parameter. -/
def Addressable (w : WebhookEntity) : Prop :=
  hasParam w.webhookPath = true → ∃ id ∈ w.webhookId, '/' ∉ id.toList ∧ isParam id = false

/-- A request for `w` that is taken for `other`: it is one of the two paths under which `other`
is looked up, or it may be one for `other`, which has as many static segments. -/
def TakenFor (w other : WebhookEntity) (path : String) : Prop :=
  path = other.webhookPath ∨ path = other.uniquePath ∨
    other.webhookId = (segments path).head? ∧ other.pathLength = some (segments path).tail.length ∧
      allStaticSegmentsMatch (segments path).tail other = true ∧
        w.staticSegments.length ≤ other.staticSegments.length

def Disturbs (other w : WebhookEntity) : Prop :=
  other.method = w.method ∧ ∃ path, w.Instantiates path ∧ w.TakenFor other path

variable {w : WebhookEntity} {path : String}

theorem fits_iff_eq {pattern request : List String} (h : ∀ p ∈ pattern, isParam p = false) :
    Fits pattern request ↔ pattern = request := by
  constructor
  · intro hfits
    induction hfits with
    | nil => rfl
    | cons hp _ ih =>
      obtain ⟨hfirst, hrest⟩ := List.forall_mem_cons.mp h
      rw [hp hfirst, ih hrest]
  · rintro rfl
    exact Fits.refl pattern

theorem Addressable.static (h : w.Addressable) (hid : w.webhookId = none) :
    hasParam w.webhookPath = false := by
  refine Bool.eq_false_iff.mpr fun hparam => ?_
  obtain ⟨id, hmem, -⟩ := h hparam
  rw [hid] at hmem
  cases hmem

theorem instantiates_static (h : w.Addressable) (hid : w.webhookId = none) :
    w.Instantiates path ↔ path = w.webhookPath := by
  have htemplate : w.template = segments w.webhookPath := by
    rw [template, hid]
    rfl
  rw [Instantiates, htemplate, fits_iff_eq fun p hp => isParam_of_hasParam_false (h.static hid) hp]
  exact ⟨fun heq => segments_injective heq.symm, fun heq => by rw [heq]⟩

theorem instantiates_dynamic {id : String} (hwf : w.WellFormed) (h : w.Addressable)
    (hid : w.webhookId = some id) : w.Instantiates path ↔
      (segments path).head? = some id ∧ Fits (segments w.webhookPath) (segments path).tail := by
  rw [WellFormed, hid] at hwf
  have hparam : hasParam w.webhookPath = true := (hasParam_eq _).trans hwf.1
  obtain ⟨id', hmem, hslash, hstatic⟩ := h hparam
  obtain rfl : id = id' := Option.some_inj.mp (hid.symm.trans hmem)
  have htemplate : w.template = id :: segments w.webhookPath := by
    rw [template, hid, Option.toList_some, List.flatMap_singleton, segments_of_not_mem hslash]
    rfl
  obtain ⟨segment, others, hsegments⟩ := List.exists_cons_of_ne_nil (segments_ne_nil path)
  rw [Instantiates, htemplate, hsegments, Fits, List.forall₂_cons, List.head?_cons,
    List.tail_cons, Option.some_inj]
  exact and_congr_left fun _ => ⟨fun heq => (heq hstatic).symm, fun heq _ => heq.symm⟩

theorem not_instantiates_self (hwf : w.WellFormed) (h : w.Addressable)
    (hid : w.webhookId ≠ none) : ¬ w.Instantiates w.webhookPath := by
  obtain ⟨id, hid⟩ := Option.ne_none_iff_exists'.mp hid
  rw [instantiates_dynamic hwf h hid]
  rintro ⟨-, hfits⟩
  have hlength := hfits.length_eq
  rw [List.length_tail] at hlength
  have hpos := one_le_length_segments w.webhookPath
  omega

end WebhookEntity

namespace ActivatedWebhooks

/-- The row is stored, and the requests for it reach it. -/
structure Owned (s : ActivatedWebhooks) (w : WebhookEntity) : Prop where
  stored : s.table.findOneBy w.webhookPath w.method = some w
  routed : ∀ path, w.Instantiates path → (s.findWebhook w.method path).1 = some w

/-- No row at another place disturbs the row. -/
def Alone (s : ActivatedWebhooks) (w : WebhookEntity) : Prop :=
  ∀ key other, s.table.rows.get? key = some other → key ≠ w.primaryKey → ¬ other.Disturbs w

/-- The invariant of an added row. -/
structure Kept (s : ActivatedWebhooks) (w : WebhookEntity) : Prop where
  stored : s.table.rows.get? w.primaryKey = some w
  addressable : w.Addressable
  alone : s.Alone w
  /-- Nothing else is cached for its requests. -/
  cached : ∀ path other, w.Instantiates path → s.cached w.method path = some other → other = w

/-- A row that can be stored: nothing disturbs it, what it replaces is its own workflow's with
no columns that would stay, and nothing else is cached for its requests, but for the one entry
that is overwritten. -/
structure Ready (s : ActivatedWebhooks) (w : WebhookEntity) : Prop where
  addressable : w.Addressable
  alone : s.Alone w
  replaces : ∀ old, s.table.rows.get? w.primaryKey = some old →
    old = w ∨ w.webhookId ≠ none ∨ old.webhookId = none ∧ ':' ∉ w.webhookPath.toList
  cached : ∀ path other, w.Instantiates path → path ≠ w.uniquePath →
    s.cached w.method path = some other → other = w

/-- A workflow can be added: its rows do not meet each other, each can be stored, and none
takes a place or a request of an added row of another workflow. -/
structure Apart (s : ActivatedWebhooks) (workflow : WebhookWorkflow) : Prop where
  rows : workflow.rows.Pairwise fun v w =>
    v.primaryKey ≠ w.primaryKey ∧ ¬ v.Disturbs w ∧ ¬ w.Disturbs v
  ready : ∀ v ∈ workflow.rows, s.Ready v
  others : ∀ v ∈ workflow.rows, ∀ w ∈ s.added, w.workflowId ≠ workflow.id →
    w.primaryKey ≠ v.primaryKey ∧ ¬ v.Disturbs w

def Undisturbed (s : ActivatedWebhooks) : ActivationInput → Prop
  | .addWebhooks workflow _ => s.Apart workflow
  | _ => True

section

variable {s t : ActivatedWebhooks} {v w : WebhookEntity}

/-- **A kept row is owned.** -/
theorem Kept.owned (h : s.Kept w) : s.Owned w := by
  refine ⟨h.stored, fun path hpath => ?_⟩
  have hwf := s.wellFormed _ _ h.stored
  have hsame : ∀ other key, s.table.rows.get? key = some other → other.method = w.method →
      w.TakenFor other path → other = w := by
    intro other key hother hmethod htaken
    by_cases hkey : key = w.primaryKey
    · rw [hkey, h.stored] at hother
      exact (Option.some_inj.mp hother).symm
    · exact absurd ⟨hmethod, path, hpath, htaken⟩ (h.alone key other hother hkey)
  rw [findWebhook]
  split
  · rename_i other hcached
    rw [h.cached path other hpath hcached]
  · split
    · rename_i other hother
      have hkey := s.table.keyed _ _ hother
      rw [hsame other _ hother (Prod.mk.inj hkey).2 (.inl (Prod.mk.inj hkey).1.symm)]
    · rename_i hnone
      cases hid : w.webhookId with
      | none =>
        rw [(WebhookEntity.instantiates_static h.addressable hid).mp hpath] at hnone
        exact absurd (hnone.symm.trans h.stored) (by simp)
      | some id =>
        obtain ⟨hhead, hfits⟩ :=
          (WebhookEntity.instantiates_dynamic hwf h.addressable hid).mp hpath
        have hrow : w ∈ s.webhookRepository.rows := Dict.mem_values_of_get? h.stored
        have hmatches : w.Matches w.method path := ⟨rfl, hid.trans hhead.symm, hfits⟩
        refine findDynamicWebhook_eq_some_iff.mpr ⟨hmatches.mem_contenders hrow, ?_⟩
        -- a contender with no fewer static segments is the row itself
        have hforemost : ∀ other ∈ contenders s.webhookRepository w.method path,
            w.staticSegments.length ≤ other.staticSegments.length → other = w := by
          intro other hother hle
          obtain ⟨hmem, ⟨hhead', hmethod, hlength⟩, hstatics⟩ := mem_contenders.mp hother
          obtain ⟨key, hkey⟩ := Dict.mem_values_iff.mp hmem
          exact hsame other key hkey hmethod (.inr (.inr ⟨hhead', hlength, hstatics, hle⟩))
        refine ⟨fun other hother => ?_, fun other hother hle => ?_⟩
        · by_contra hlt
          rw [hforemost other hother (Nat.le_of_not_le hlt)] at hlt
          exact hlt (Nat.le_refl _)
        · rw [hforemost other hother hle]

theorem table_cacheSet (key : String) (v : WebhookEntity) :
    (s.cacheSet key v).table = s.table := by
  rw [cacheSet]
  split <;> rfl

theorem added_cacheSet (key : String) (v : WebhookEntity) :
    (s.cacheSet key v).added = s.added := by
  rw [cacheSet]
  split <;> rfl

variable {path : String} {method : IHttpRequestMethods}

theorem cached_eq : s.cached method path
    = if s.cacheService.available then
        s.cacheService.entries.get? (webhookCacheKey method path)
      else none := by
  rw [cached, CacheService.get]
  by_cases h : s.cacheService.available = true
  · rw [if_pos h, if_pos h]
  · rw [if_neg h, if_neg h]

variable {other : WebhookEntity}

theorem cached_cacheSet {key : String} (h : (s.cacheSet key v).cached method path = some other) :
    if key = webhookCacheKey method path then other = v else s.cached method path = some other := by
  rw [cacheSet, CacheService.set] at h
  by_cases havailable : s.cacheService.available = true
  · rw [if_pos havailable] at h
    rw [cached_eq, if_pos havailable, Dict.get?_set] at h
    split at h
    · rename_i hkey
      rw [if_pos hkey.symm]
      exact (Option.some_inj.mp h).symm
    · rename_i hkey
      rwa [if_neg (Ne.symm hkey), cached_eq, if_pos havailable]
  · rw [if_neg havailable] at h
    rw [cached_eq, if_neg havailable] at h
    cases h

theorem Kept.of_table (h : s.Kept w) (htable : t.table = s.table)
    (hcached : ∀ path other, w.Instantiates path → t.cached w.method path = some other →
      other = w ∨ s.cached w.method path = some other) : t.Kept w where
  stored := by rw [htable]; exact h.stored
  addressable := h.addressable
  alone := by rw [Alone, htable]; exact h.alone
  cached path other hpath hother :=
    (hcached path other hpath hother).elim id (h.cached path other hpath)

theorem Ready.of_table (h : s.Ready w) (htable : t.table = s.table)
    (hcached : ∀ path other, w.Instantiates path → path ≠ w.uniquePath →
      t.cached w.method path = some other → other = w ∨ s.cached w.method path = some other) :
    t.Ready w where
  addressable := h.addressable
  alone := by rw [Alone, htable]; exact h.alone
  replaces := by rw [htable]; exact h.replaces
  cached path other hpath hunique hother :=
    (hcached path other hpath hunique hother).elim id (h.cached path other hpath hunique)

theorem cached_cacheSet_row (hapart : ¬ v.Disturbs w)
    (hpath : w.Instantiates path)
    (h : (s.cacheSet v.cacheKey v).cached w.method path = some other) :
    s.cached w.method path = some other := by
  have hother := cached_cacheSet h
  rwa [if_neg] at hother
  intro hkey
  obtain ⟨hmethod, hunique⟩ := webhookCacheKey_injective hkey
  exact hapart ⟨hmethod, path, hpath, .inr (.inl hunique.symm)⟩

theorem Kept.cacheSet (h : s.Kept w) (hapart : ¬ v.Disturbs w) : (s.cacheSet v.cacheKey v).Kept w :=
  h.of_table (table_cacheSet _ _) fun _ _ hpath hother =>
    .inr (cached_cacheSet_row hapart hpath hother)

theorem findWebhook_cases (s : ActivatedWebhooks) (method : IHttpRequestMethods) (path : String) :
    (s.findWebhook method path).2 = s ∨ ∃ v, s.table.findOneBy path method = some v ∧
      (s.findWebhook method path).2 = s.cacheSet (webhookCacheKey method path) v := by
  rw [findWebhook]
  split
  · exact .inl rfl
  · split
    · rename_i v hv
      exact .inr ⟨v, hv, rfl⟩
    · exact .inl rfl

theorem Kept.findWebhook (h : s.Kept w) (method : IHttpRequestMethods) (path : String) :
    (s.findWebhook method path).2.Kept w := by
  rcases s.findWebhook_cases method path with heq | ⟨v, hv, heq⟩
  · rwa [heq]
  · rw [heq]
    refine h.of_table (table_cacheSet _ _) fun path' other hpath hother => ?_
    have hentry := cached_cacheSet hother
    split at hentry
    · rename_i hkey
      obtain ⟨rfl, rfl⟩ := webhookCacheKey_injective hkey
      refine .inl (hentry.trans ?_)
      by_cases hkey : (path, w.method) = w.primaryKey
      · have hstored := h.stored
        rw [← hkey] at hstored
        exact Option.some_inj.mp (hv.symm.trans hstored)
      · have hrow := Prod.mk.inj (s.table.keyed _ _ hv)
        exact absurd ⟨hrow.2, path, hpath, .inl hrow.1.symm⟩ (h.alone _ v hv hkey)
    · exact .inr hentry

theorem Ready.findWebhook (h : s.Ready w) (hwf : w.WellFormed) (method : IHttpRequestMethods)
    (path : String) : (s.findWebhook method path).2.Ready w := by
  rcases s.findWebhook_cases method path with heq | ⟨v, hv, heq⟩
  · rwa [heq]
  · rw [heq]
    refine h.of_table (table_cacheSet _ _) fun path' other hpath hunique hother => ?_
    have hentry := cached_cacheSet hother
    split at hentry
    · rename_i hkey
      obtain ⟨rfl, rfl⟩ := webhookCacheKey_injective hkey
      refine .inl (hentry.trans ?_)
      by_cases hkey : (path, w.method) = w.primaryKey
      · -- its own path, which is not its unique one, so it has a colon
        obtain rfl : path = w.webhookPath := (Prod.mk.inj hkey).1
        rcases h.replaces v hv with hsame | hid | ⟨-, hcolon⟩
        · exact hsame
        · exact absurd hpath (WebhookEntity.not_instantiates_self hwf h.addressable hid)
        · rw [WebhookEntity.uniquePath, if_neg hcolon] at hunique
          exact absurd rfl hunique
      · have hrow := Prod.mk.inj (s.table.keyed _ _ hv)
        exact absurd ⟨hrow.2, path, hpath, .inl hrow.1.symm⟩ (h.alone _ v hv hkey)
    · exact .inr hentry

theorem service_findWebhookConflicts {P : ActivatedWebhooks → Prop}
    (hfind : ∀ s method path, P s → P (s.findWebhook method path).2) (hs : P s)
    (workflow : WebhookWorkflow) : P (s.findWebhookConflicts workflow).service := by
  have hnext : ∀ (check : ConflictCheck) webhook, P check.service →
      P (check.next workflow.id webhook).service := by
    intro check webhook hcheck
    rw [ConflictCheck.next]
    split
    · exact hcheck
    · simp only
      split
      · exact hfind _ _ _ hcheck
      · exact hfind _ _ _ hcheck
  rw [findWebhookConflicts]
  generalize workflow.webhooks.filter _ = webhooks
  have hfold : ∀ (webhooks : List NodeWebhook) (check : ConflictCheck), P check.service →
      P (webhooks.foldl (ConflictCheck.next workflow.id) check).service := by
    intro webhooks
    induction webhooks with
    | nil => exact fun _ hcheck => hcheck
    | cons webhook webhooks ih => exact fun check hcheck => ih _ (hnext check webhook hcheck)
  exact hfold webhooks _ hs

theorem Ready.replacing (h : s.Ready w) (hwf : w.WellFormed) :
    w.replacing (s.table.rows.get? w.primaryKey) = w := by
  cases hold : s.table.rows.get? w.primaryKey with
  | none => rfl
  | some old =>
    cases hid : w.webhookId with
    | some id => exact hwf.replacing_some hid _
    | none =>
      have hnone : old.webhookId = none ∧ old.pathLength = none := by
        rcases h.replaces old hold with rfl | hsome | ⟨hid', -⟩
        · rw [WebhookEntity.WellFormed, hid] at hwf
          exact ⟨hid, hwf⟩
        · exact absurd hid hsome
        · have hwf' := s.wellFormed _ _ hold
          rw [WebhookEntity.WellFormed, hid'] at hwf'
          exact ⟨hid', hwf'⟩
      rw [hwf.replacing_none hid, hnone.1, hnone.2]
      rw [WebhookEntity.WellFormed, hid] at hwf
      rw [← hid, ← hwf]

variable {workflowId : String} {webhook : NodeWebhook}

theorem get?_storeWebhook
    (hready : s.Ready (webhook.row workflowId)) (key : String × IHttpRequestMethods) :
    (s.storeWebhook workflowId webhook).table.rows.get? key
      = if key = (webhook.row workflowId).primaryKey then some (webhook.row workflowId)
        else s.table.rows.get? key := by
  have htable : (s.storeWebhook workflowId webhook).table
      = (s.cacheSet (webhook.row workflowId).cacheKey (webhook.row workflowId)).table.upsert
          (webhook.row workflowId) := rfl
  rw [htable, table_cacheSet, WebhookTable.get?_upsert, hready.replacing wellFormed_addedWebhook]

theorem Alone.storeWebhook (h : s.Alone w) (hready : s.Ready (webhook.row workflowId))
    (hapart : (webhook.row workflowId).primaryKey ≠ w.primaryKey →
      ¬ (webhook.row workflowId).Disturbs w) : (s.storeWebhook workflowId webhook).Alone w := by
  intro key other hother hkey
  rw [get?_storeWebhook hready] at hother
  split at hother
  · rename_i hsame
    cases hother
    exact hapart (hsame ▸ hkey)
  · exact h key other hother hkey

theorem Kept.storeWebhook (h : s.Kept w) (hready : s.Ready (webhook.row workflowId))
    (hkey : w.primaryKey ≠ (webhook.row workflowId).primaryKey)
    (hapart : ¬ (webhook.row workflowId).Disturbs w) :
    (s.storeWebhook workflowId webhook).Kept w where
  stored := by rw [get?_storeWebhook hready, if_neg hkey]; exact h.stored
  addressable := h.addressable
  alone := h.alone.storeWebhook hready fun _ => hapart
  cached path other hpath hother :=
    h.cached path other hpath (cached_cacheSet_row hapart hpath hother)

theorem Ready.storeWebhook (h : s.Ready w) (hready : s.Ready (webhook.row workflowId))
    (hkey : w.primaryKey ≠ (webhook.row workflowId).primaryKey)
    (hapart : ¬ (webhook.row workflowId).Disturbs w) :
    (s.storeWebhook workflowId webhook).Ready w where
  addressable := h.addressable
  alone := h.alone.storeWebhook hready fun _ => hapart
  replaces := by rw [get?_storeWebhook hready, if_neg hkey]; exact h.replaces
  cached path other hpath hunique hother :=
    h.cached path other hpath hunique (cached_cacheSet_row hapart hpath hother)

theorem Ready.kept (h : s.Ready (webhook.row workflowId)) :
    (s.storeWebhook workflowId webhook).Kept (webhook.row workflowId) where
  stored := by rw [get?_storeWebhook h, if_pos rfl]
  addressable := h.addressable
  alone := h.alone.storeWebhook h fun hne => absurd rfl hne
  cached path other hpath hother := by
    have hentry := cached_cacheSet hother
    split at hentry
    · exact hentry
    · rename_i hkey
      refine h.cached path other hpath (fun hunique => hkey ?_) hentry
      rw [hunique, WebhookEntity.cacheKey]

theorem kept_foldl_storeWebhook : ∀ {webhooks : List NodeWebhook}
    {s : ActivatedWebhooks} {kept : List WebhookEntity}, (∀ w ∈ kept, s.Kept w) →
    (∀ x ∈ webhooks, s.Ready (x.row workflowId)) →
    (webhooks.map (·.row workflowId)).Pairwise (fun v w =>
      v.primaryKey ≠ w.primaryKey ∧ ¬ v.Disturbs w ∧ ¬ w.Disturbs v) →
    (∀ x ∈ webhooks, ∀ w ∈ kept, w.primaryKey ≠ (x.row workflowId).primaryKey ∧
      ¬ (x.row workflowId).Disturbs w) →
    ∀ w ∈ kept ++ webhooks.map (·.row workflowId),
      (webhooks.foldl (·.storeWebhook workflowId ·) s).Kept w := by
  intro webhooks
  induction webhooks with
  | nil =>
    intro s kept hkept _ _ _ w hw
    exact hkept w (by simpa using hw)
  | cons x webhooks ih =>
    intro s kept hkept hready hpairwise hothers w hw
    obtain ⟨hx, hrest⟩ := List.forall_mem_cons.mp hready
    obtain ⟨hfirst, hpairs⟩ := List.pairwise_cons.mp hpairwise
    obtain ⟨hxothers, hrestothers⟩ := List.forall_mem_cons.mp hothers
    rw [List.foldl_cons]
    refine @ih _ (kept ++ [x.row workflowId]) ?_ ?_ hpairs ?_ w (by simpa using hw)
    · intro w hw
      rcases List.mem_append.mp hw with hw | hw
      · exact (hkept w hw).storeWebhook hx (hxothers w hw).1 (hxothers w hw).2
      · rw [List.mem_singleton.mp hw]
        exact hx.kept
    · intro y hy
      obtain ⟨hkey, hapart, -⟩ := hfirst _ (List.mem_map_of_mem hy)
      exact (hrest y hy).storeWebhook hx (Ne.symm hkey) hapart
    · intro y hy w hw
      rcases List.mem_append.mp hw with hw | hw
      · exact hrestothers y hy w hw
      · rw [List.mem_singleton.mp hw]
        obtain ⟨hkey, -, hapart⟩ := hfirst _ (List.mem_map_of_mem hy)
        exact ⟨hkey, hapart⟩

theorem Kept.populateCache (h : s.Kept w) : s.populateCache.Kept w := by
  rw [ActivatedWebhooks.populateCache, CacheService.setMany]
  by_cases havailable : s.cacheService.available = true
  · rw [if_pos havailable]
    refine h.of_table rfl fun path other hpath hother => ?_
    rw [cached_eq, if_pos havailable] at hother
    rcases Dict.get?_setAll_cases hother with hentry | ⟨hbefore, -⟩
    · obtain ⟨v, hv, heq⟩ := List.mem_map.mp hentry
      obtain ⟨hkey, rfl⟩ := Prod.mk.inj heq
      obtain ⟨hmethod, hunique⟩ := webhookCacheKey_injective hkey
      have hstored := WebhookTable.get?_of_mem_values (List.mem_of_mem_filter hv)
      refine .inl ?_
      by_cases hsame : v.primaryKey = w.primaryKey
      · rw [hsame, h.stored] at hstored
        exact (Option.some_inj.mp hstored).symm
      · exact absurd ⟨hmethod, path, hpath, .inr (.inl hunique.symm)⟩ (h.alone _ v hstored hsame)
    · refine .inr ?_
      rwa [cached_eq, if_pos havailable]
  · rw [if_neg havailable]
    exact h

theorem Kept.deleteWorkflowWebhooks (h : s.Kept w)
    (hother : w.workflowId ≠ workflowId) : (s.deleteWorkflowWebhooks workflowId).Kept w where
  stored := by
    refine (WebhookTable.get?_remove _ _).trans ((if_neg fun hmem => ?_).trans h.stored)
    obtain ⟨v, hv, hkey⟩ := List.mem_map.mp hmem
    obtain ⟨hstored, hid⟩ := WebhookTable.get?_of_mem_findByWorkflow hv
    rw [hkey, h.stored] at hstored
    exact hother (Option.some_inj.mp hstored ▸ hid)
  addressable := h.addressable
  alone key other hget hkey := by
    have hbefore := (WebhookTable.get?_remove _ _).symm.trans hget
    split at hbefore
    · cases hbefore
    · exact h.alone key other hbefore hkey
  cached path other hpath hcached := by
    refine h.cached path other hpath ?_
    rw [cached_eq] at hcached ⊢
    by_cases havailable : s.cacheService.available = true
    · rw [if_pos havailable]
      simp only [ActivatedWebhooks.deleteWorkflowWebhooks, if_pos havailable] at hcached
      rw [Dict.get?_eraseAll] at hcached
      split at hcached
      · cases hcached
      · exact hcached
    · simp only [ActivatedWebhooks.deleteWorkflowWebhooks, if_neg havailable] at hcached
      cases hcached

theorem Kept.evict (h : s.Kept w) (key : String) : Kept { s with
    cacheService := { s.cacheService with entries := s.cacheService.entries.erase key } } w := by
  refine h.of_table rfl fun path other hpath hother => .inr ?_
  rw [cached_eq] at hother ⊢
  by_cases havailable : s.cacheService.available = true
  · rw [if_pos havailable] at hother ⊢
    rw [Dict.get?_erase] at hother
    split at hother
    · cases hother
    · exact hother
  · rw [if_neg havailable] at hother
    cases hother

theorem mem_added_forget :
    w ∈ (s.forget workflowId).added ↔ w ∈ s.added ∧ w.workflowId ≠ workflowId := by
  rw [forget, List.mem_filter, decide_eq_true_iff]

def Inv (s : ActivatedWebhooks) : Prop := ∀ w ∈ s.added, s.Kept w

theorem added_findWebhook (method : IHttpRequestMethods) (path : String) :
    (s.findWebhook method path).2.added = s.added := by
  rcases s.findWebhook_cases method path with heq | ⟨v, -, heq⟩
  · rw [heq]
  · rw [heq, added_cacheSet]

theorem added_foldl_storeWebhook (workflowId : String) : ∀ (webhooks : List NodeWebhook)
    (s : ActivatedWebhooks), (webhooks.foldl (·.storeWebhook workflowId ·) s).added = s.added
  | [], _ => rfl
  | x :: webhooks, s => by
    have hx : (s.storeWebhook workflowId x).added = s.added := added_cacheSet _ _
    rw [List.foldl_cons, added_foldl_storeWebhook workflowId webhooks, hx]

theorem added_populateCache : s.populateCache.added = s.added := by
  rw [populateCache]
  split <;> rfl

variable {workflow : WebhookWorkflow}

theorem Inv.check (h : s.Inv) (hapart : s.Apart workflow) :
    (s.findWebhookConflicts workflow).service.Inv ∧
      (s.findWebhookConflicts workflow).service.Apart workflow := by
  have hcheck := service_findWebhookConflicts
    (P := fun t => t.added = s.added ∧ (∀ w ∈ s.added, t.Kept w) ∧ ∀ v ∈ workflow.rows, t.Ready v)
    (fun t method path ht => ?_) ⟨rfl, h, hapart.ready⟩ workflow
  · obtain ⟨hadded, hkept, hready⟩ := hcheck
    refine ⟨fun w hw => hkept w (hadded ▸ hw), hapart.rows, hready, fun v hv w hw => ?_⟩
    exact hapart.others v hv w (hadded ▸ hw)
  · obtain ⟨hadded, hkept, hready⟩ := ht
    refine ⟨(added_findWebhook _ _).trans hadded, fun w hw => (hkept w hw).findWebhook _ _,
      fun v hv => (hready v hv).findWebhook ?_ _ _⟩
    obtain ⟨x, -, rfl⟩ := List.mem_map.mp hv
    exact wellFormed_addedWebhook

theorem Inv.store (h : s.Inv) (hapart : s.Apart workflow) {webhooks : List NodeWebhook}
    (hsub : webhooks.Sublist (workflow.webhooks.filter fun webhook => !webhook.restartWebhook)) :
    ∀ w ∈ (s.forget workflow.id).added ++ webhooks.map (·.row workflow.id),
      (webhooks.foldl (·.storeWebhook workflow.id ·) (s.forget workflow.id)).Kept w := by
  have hrows : (webhooks.map (·.row workflow.id)).Sublist workflow.rows := hsub.map _
  have hmem : ∀ x ∈ webhooks, x.row workflow.id ∈ workflow.rows := fun x hx =>
    hrows.subset (List.mem_map_of_mem hx)
  refine kept_foldl_storeWebhook (fun w hw => ?_) (fun x hx => ?_) (hapart.rows.sublist hrows)
    (fun x hx w hw => ?_)
  · exact (h w (mem_added_forget.mp hw).1).of_table rfl fun _ _ _ hother => .inr hother
  · exact (hapart.ready _ (hmem x hx)).of_table rfl fun _ _ _ _ hother => .inr hother
  · obtain ⟨hadded, hid⟩ := mem_added_forget.mp hw
    exact hapart.others _ (hmem x hx) w hadded hid

theorem Inv.addFailing {index : ℕ} (h : s.Inv) (hapart : s.Apart workflow)
    (hwebhook : (workflow.webhooks.filter fun webhook => !webhook.restartWebhook)[index]?
      = some webhook) (stored : Bool) :
    let before := ((workflow.webhooks.filter fun webhook => !webhook.restartWebhook).take
      index).foldl (·.storeWebhook workflow.id ·) (s.forget workflow.id)
    let t := if stored then before.storeWebhook workflow.id webhook
      else before.cacheSet (webhook.row workflow.id).cacheKey (webhook.row workflow.id)
    ∀ w ∈ t.added, w.workflowId ≠ workflow.id ∧ t.Kept w := by
  intro before t w hw
  have hbefore : before.added = (s.forget workflow.id).added := added_foldl_storeWebhook _ _ _
  have hadded : t.added = (s.forget workflow.id).added := by
    cases stored with
    | true => exact (added_cacheSet _ _).trans hbefore
    | false => exact (added_cacheSet _ _).trans hbefore
  rw [hadded] at hw
  obtain ⟨hsadded, hid⟩ := mem_added_forget.mp hw
  refine ⟨hid, ?_⟩
  cases stored with
  | true =>
    have hsub := List.take_sublist (index + 1)
      (workflow.webhooks.filter fun webhook => !webhook.restartWebhook)
    rw [List.take_add_one, hwebhook] at hsub
    have hstored := h.store hapart hsub w (List.mem_append_left _ hw)
    rw [List.foldl_append] at hstored
    exact hstored
  | false =>
    have hstored := h.store hapart (List.take_sublist index _) w (List.mem_append_left _ hw)
    refine hstored.cacheSet (hapart.others _ ?_ w hsadded hid).2
    exact List.mem_map_of_mem (List.mem_of_getElem? hwebhook)

theorem Inv.addWebhooks {failure : Option AddFailure} (h : s.Inv)
    (hapart : s.Apart workflow) (hadd : s.addWebhooks workflow failure = .ok t) : t.Inv := by
  cases failure with
  | none =>
    have hstored := h.store hapart (List.Sublist.refl _)
    have hadded := added_foldl_storeWebhook workflow.id
      (workflow.webhooks.filter fun webhook => !webhook.restartWebhook) (s.forget workflow.id)
    cases hadd
    intro w hw
    simp only at hw
    split at hw
    · rename_i hnil
      rw [hadded] at hw
      rw [if_pos hnil]
      exact (hstored w hw).of_table rfl fun _ _ _ hother => .inr hother
    · rename_i hne
      rw [added_populateCache, hadded] at hw
      rw [if_neg hne]
      exact (hstored w hw).populateCache.of_table rfl fun _ _ _ hother => .inr hother
  | some failure =>
    rw [ActivatedWebhooks.addWebhooks] at hadd
    split at hadd
    · cases hadd
    · rename_i webhook hwebhook
      have hkept := h.addFailing hapart hwebhook failure.stored
      cases hadd
      intro w hw
      split at hw
      · rename_i hcleared
        rw [if_pos hcleared]
        obtain ⟨hid, hw⟩ := hkept w hw
        exact hw.deleteWorkflowWebhooks hid
      · rename_i hcleared
        rw [if_neg hcleared]
        exact (hkept w hw).2

theorem Inv.step {input : ActivationInput} (h : s.Inv) (hapart : s.Undisturbed input)
    (hstep : s.step input = .ok t) : t.Inv := by
  cases input with
  | addWebhooks workflow failure =>
    rw [ActivatedWebhooks.step] at hstep
    split at hstep
    · obtain ⟨hinv, hapart⟩ := h.check hapart
      exact hinv.addWebhooks hapart hstep
    · cases hstep
  | clearWebhooks workflowId deleted =>
    cases hstep
    intro w hw
    split at hw
    · rename_i hdeleted
      obtain ⟨hadded, hid⟩ := mem_added_forget.mp hw
      rw [if_pos hdeleted]
      refine Kept.deleteWorkflowWebhooks ?_ hid
      exact (h w hadded).of_table rfl fun _ _ _ hother => .inr hother
    · rename_i hdeleted
      rw [if_neg hdeleted]
      exact h w hw
  | findWebhook method path =>
    cases hstep
    intro w hw
    rw [added_findWebhook] at hw
    exact (h w hw).findWebhook method path
  | evict key =>
    cases hstep
    exact fun w hw => (h w hw).evict key

end

/-- Nothing is stored. -/
def start (available : Bool) : ActivatedWebhooks := { cacheService := { available } }

/-- **The rows of the workflows that were added and not cleared are their own**, and the
requests for them reach them, along every run in which each workflow is apart from the others
when it is added. -/
theorem owned_of_apart (available : Bool) (inputs : List ActivationInput)
    (h : Along step (fun s input _ => s.Undisturbed input) (start available) inputs) :
    Along step (fun _ _ s' => ∀ w ∈ s'.added, s'.Owned w) (start available) inputs := by
  refine Along.of_step (I := Inv) ?_ (fun w hw => absurd hw List.not_mem_nil) h
  intro s input s' hs hstep hapart
  have hs' := hs.step hapart hstep
  exact ⟨fun w hw => (hs' w hw).owned, hs'⟩

def OtherMethods (s : ActivatedWebhooks) (v : WebhookEntity) : Prop :=
  (∀ other ∈ s.table.rows.values, other.method ≠ v.method) ∧
    (∀ e ∈ s.cacheService.entries.entries, e.1 = e.2.cacheKey ∧ e.2.method ≠ v.method) ∧
      ∀ w ∈ s.added, w.method ≠ v.method

instance (s : ActivatedWebhooks) (v : WebhookEntity) : Decidable (s.OtherMethods v) :=
  inferInstanceAs (Decidable (_ ∧ _ ∧ _))

theorem apart_of_methods {s : ActivatedWebhooks} {workflow : WebhookWorkflow}
    (haddressable : ∀ v ∈ workflow.rows, v.Addressable)
    (hrows : workflow.rows.Pairwise fun v w => v.method ≠ w.method)
    (hother : ∀ v ∈ workflow.rows, s.OtherMethods v) : s.Apart workflow where
  rows := hrows.imp fun hmethod =>
    ⟨fun hkey => hmethod (Prod.mk.inj hkey).2, fun h => hmethod h.1, fun h => hmethod h.1.symm⟩
  ready v hv :=
    { addressable := haddressable v hv
      alone := fun key other hget _ h => (hother v hv).1 other (Dict.mem_values_of_get? hget) h.1
      replaces := fun old hold => by
        have hkey := s.table.keyed _ _ hold
        exact absurd (Prod.mk.inj hkey).2 ((hother v hv).1 old (Dict.mem_values_of_get? hold))
      cached := fun path other _ _ hcached => by
        rw [cached_eq] at hcached
        split at hcached
        · obtain ⟨hkey, hmethod⟩ := (hother v hv).2.1 _ (Dict.mem_entries_iff.mpr hcached)
          exact absurd (webhookCacheKey_injective hkey).1.symm hmethod
        · cases hcached }
  others v hv w hw _ :=
    have hmethod := (hother v hv).2.2 w hw
    ⟨fun hkey => hmethod (Prod.mk.inj hkey).2, fun h => hmethod h.1.symm⟩

/-- A workflow with one webhook, `user/:id`. -/
def userWorkflow (id webhookId : String) (httpMethod : IHttpRequestMethods) : WebhookWorkflow where
  id
  webhooks :=
    [{ node := "Webhook", httpMethod, path := "user/:id", nodeWebhookId := some webhookId }]

/-- Two workflows with the same path under different methods. -/
theorem owned_of_apart_methods : Along step (fun _ _ s' => ∀ w ∈ s'.added, s'.Owned w) (start true)
    [.addWebhooks (userWorkflow "w1" "uuid-1" .GET) none,
      .addWebhooks (userWorkflow "w2" "uuid-2" .POST) none, .clearWebhooks "w1" true] := by
  have hid₁ : ∀ v ∈ (userWorkflow "w1" "uuid-1" .GET).rows, v.webhookId = some "uuid-1" := by
    decide +kernel
  have hid₂ : ∀ v ∈ (userWorkflow "w2" "uuid-2" .POST).rows, v.webhookId = some "uuid-2" := by
    decide +kernel
  have hfirst : (step (start true)
      (.addWebhooks (userWorkflow "w1" "uuid-1" .GET) none)).toOption.all (fun s =>
        decide (∀ v ∈ (userWorkflow "w2" "uuid-2" .POST).rows, s.OtherMethods v)) = true := by
    decide +kernel
  refine owned_of_apart true _ fun s₁ h₁ => ⟨?_, fun s₂ _ => ⟨?_, fun _ _ => ⟨trivial, trivial⟩⟩⟩
  · refine apart_of_methods (fun v hv _ => ⟨"uuid-1", hid₁ v hv, by decide, by decide⟩)
      (by decide +kernel) fun v _ => ?_
    exact ⟨fun _ h => (by cases h), fun _ h => (by cases h), fun _ h => (by cases h)⟩
  · rw [h₁] at hfirst
    exact apart_of_methods (fun v hv _ => ⟨"uuid-2", hid₂ v hv, by decide, by decide⟩)
      (by decide +kernel) (of_decide_eq_true hfirst)

/-- The second workflow takes the row of the first: no conflict is found, since the webhook is
looked up with its own id. -/
theorem not_owned_of_apart_sameTemplate : ¬ ∀ (available : Bool) (inputs : List ActivationInput),
    Along step (fun _ _ s' => ∀ w ∈ s'.added, s'.Owned w) (start available) inputs := by
  intro h
  have hrun : Along step (fun _ _ s' => ∀ w ∈ s'.added,
      s'.table.findOneBy w.webhookPath w.method = some w) (start true)
      [.addWebhooks (userWorkflow "w1" "uuid-1" .GET) none,
        .addWebhooks (userWorkflow "w2" "uuid-2" .GET) none] :=
    (h true _).mono fun _ _ _ hs w hw => (hs w hw).stored
  exact absurd hrun (by decide +kernel)

end ActivatedWebhooks

end N8n
