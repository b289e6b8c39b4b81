/-
A failed activation of webhooks.

Each webhook is stored, and set up with its service where it does not exist yet.  When one of
these calls throws, the webhooks of the active version are deleted with their services, one after
the other, and then the rows of the workflow are removed; what this throws is logged.  At the start
of the process an error of the database is ignored instead.

* **`leavesNothing_iff`** — when a failed activation leaves nothing behind.
-/
import N8n.ActivatedWebhooks
import N8n.QueuedActivations

namespace N8n

namespace WebhookRollback

/-- What is thrown: whether it is an `Error`, and the fields that are read. -/
structure ThrownError where
  isError : Bool := true
  name : String
  message : String
  detail : Option String := none
  deriving DecidableEq

/-- A webhook, with the name of its description, and whether its node type has methods for it. -/
structure WebhookData extends NodeWebhook where
  name : String := "default"
  hasMethods : Bool := true
  deriving DecidableEq

inductive WebhookSetupMethodNames where
  | checkExists | create | delete
  deriving DecidableEq

/-- A webhook that is added, and how the calls for it end. -/
structure Attempt where
  webhookData : WebhookData
  upsert : Except ThrownError Unit := .ok ()
  checkExists : Except ThrownError Bool := .ok false
  create : Except ThrownError Bool := .ok true

/-- A webhook of the active version, and how the delete call for it ends. -/
structure Deletion where
  webhookData : WebhookData
  delete : Except ThrownError Bool := .ok true

/-- How the calls of a rollback end.  The workflow may be missing, or its active version; if there
is one, its webhooks are read. -/
structure ClearAnswers where
  findOne : Except ThrownError (Option (Option (Except ThrownError (List Deletion))))
  findBy : Except ThrownError Unit := .ok ()
  remove : Except ThrownError Unit := .ok ()

structure SetupCall where
  method : WebhookSetupMethodNames
  webhookData : WebhookData
  resolved : Bool
  deriving DecidableEq

/-- The stored webhooks, and the calls of methods so far. -/
structure Activation where
  service : ActivatedWebhooks
  calls : List SetupCall := []

/-- An activation of a workflow, with the answers to all its calls. -/
structure ActivationRun where
  workflowId : String
  activation : WorkflowActivateMode
  attempts : List Attempt
  clear : ClearAnswers
  getStaticWebhooks : Except ThrownError Unit := .ok ()

namespace ThrownError

def isQueryFailedError (error : ThrownError) : Bool := error.name = "QueryFailedError"

/-- The error is one for the user: the path is taken, or it has the detail as its message. -/
def reported (nodeName : String) (error : ThrownError) : ThrownError :=
  if error.isError ∧ error.isQueryFailedError then
    { name := "WebhookPathTakenError"
      message := "The URL path that the \"" ++ nodeName ++
        "\" node uses is already taken. Please change it to something else." }
  else match error.detail.filter (· ≠ "") with
    | some detail => { error with message := detail }
    | none => error

def workflowNotFound : ThrownError :=
  { name := "UnexpectedError", message := "Could not find workflow" }

def activeVersionNotFound : ThrownError :=
  { name := "UnexpectedError", message := "Active version not found for workflow" }

end ThrownError

namespace Activation

variable (s : Activation)

/-- `undefined`, if the node type does not have the method. -/
def runWebhookMethod (method : WebhookSetupMethodNames) (webhookData : WebhookData)
    (answer : Except ThrownError Bool) : Except ThrownError (Option Bool) × Activation :=
  if webhookData.hasMethods then
    (answer.map some,
      { s with calls := s.calls ++ [⟨method, webhookData, answer.toBool⟩] })
  else (.ok none, s)

def createWebhookIfNotExists (attempt : Attempt) : Outcome ThrownError Activation :=
  match s.runWebhookMethod .checkExists attempt.webhookData attempt.checkExists with
  | (.error e, s) => .threw e s
  | (.ok webhookExists, s) =>
    if webhookExists = some true then .returned s
    else match s.runWebhookMethod .create attempt.webhookData attempt.create with
      | (.error e, s) => .threw e s
      | (.ok _, s) => .returned s

/-- The row is cached, whether or not it is stored then. -/
def storeWebhook (workflowId : String) (attempt : Attempt) : Outcome ThrownError Activation :=
  let webhook := attempt.webhookData.toNodeWebhook
  match attempt.upsert with
  | .ok () => .returned { s with service := s.service.storeWebhook workflowId webhook }
  | .error e =>
    let row := webhook.row workflowId
    .threw e { s with service := s.service.cacheSet row.cacheKey row }

def deleteWebhook (deletion : Deletion) : Outcome ThrownError Activation :=
  match s.runWebhookMethod .delete deletion.webhookData deletion.delete with
  | (.error e, s) => .threw e s
  | (.ok _, s) => .returned s

/-- The cache forgets the rows before they are removed. -/
def deleteWorkflowWebhooks (workflowId : String) (clear : ClearAnswers) :
    Outcome ThrownError Activation :=
  let removed := s.service.deleteWorkflowWebhooks workflowId
  match clear.findBy, clear.remove with
  | .error e, _ => .threw e s
  | .ok (), .error e =>
    .threw e { s with service := { s.service with cacheService := removed.cacheService } }
  | .ok (), .ok () => .returned { s with service := removed }

def clearWebhooks (workflowId : String) (clear : ClearAnswers) : Outcome ThrownError Activation :=
  match clear.findOne with
  | .error e => .threw e s
  | .ok none => .threw .workflowNotFound s
  | .ok (some none) => .threw .activeVersionNotFound s
  | .ok (some (some (.error e))) => .threw e s
  | .ok (some (some (.ok webhooks))) =>
    (Outcome.each deleteWebhook s
      (webhooks.filter fun deletion => !deletion.webhookData.restartWebhook)).andThen
        (·.deleteWorkflowWebhooks workflowId clear)

/-- One round of the loop of `addWebhooks`. -/
def addWebhook (run : ActivationRun) (attempt : Attempt) : Outcome ThrownError Activation :=
  match (s.storeWebhook run.workflowId attempt).andThen (·.createWebhookIfNotExists attempt) with
  | .returned s => .returned s
  | .threw error s =>
    if run.activation.isStart ∧ error.isQueryFailedError then .returned s
    else .threw (error.reported attempt.webhookData.node)
      (s.clearWebhooks run.workflowId run.clear).state

def populateCache (run : ActivationRun) : Outcome ThrownError Activation :=
  match run.getStaticWebhooks with
  | .error e => .threw e s
  | .ok () => .returned { s with service := s.service.populateCache }

end Activation

namespace ActivationRun

def webhooks (run : ActivationRun) : List Attempt :=
  run.attempts.filter fun attempt => !attempt.webhookData.restartWebhook

/-- Whether there are webhooks, or what is thrown, and what is left. -/
def addWebhooks (run : ActivationRun) (service : ActivatedWebhooks) :
    Except ThrownError Bool × Activation :=
  let s : Activation := { service }
  if run.webhooks = [] then (.ok false, s)
  else match (Outcome.each (·.addWebhook run) s run.webhooks).andThen (·.populateCache run) with
    | .returned s => (.ok true, s)
    | .threw e s => (.error e, s)

end ActivationRun

/-- **Nothing is left of a failed activation**: no row of the workflow is stored, and the delete
method was called for every webhook that was created. -/
structure Activation.LeavesNothing (workflowId : String) (t : Activation) : Prop where
  rows : t.service.table.findByWorkflow workflowId = []
  deleted : ∀ webhookData, ⟨.create, webhookData, true⟩ ∈ t.calls →
    ∃ resolved, ⟨.delete, webhookData, resolved⟩ ∈ t.calls

namespace Attempt

/-- What the methods of the webhook throw. -/
def setUpError (attempt : Attempt) : Option ThrownError :=
  if attempt.webhookData.hasMethods then
    match attempt.checkExists, attempt.create with
    | .error e, _ => some e
    | .ok false, .error e => some e
    | _, _ => none
  else none

/-- What is thrown for the webhook. -/
def thrown (attempt : Attempt) : Option ThrownError :=
  match attempt.upsert with
  | .error e => some e
  | .ok () => attempt.setUpError

def Stores (attempt : Attempt) : Prop := attempt.upsert.toBool = true

def Creates (attempt : Attempt) : Prop :=
  attempt.Stores ∧ attempt.webhookData.hasMethods = true ∧
    attempt.checkExists.toOption = some false ∧ attempt.create.toBool = true

instance (attempt : Attempt) : Decidable attempt.Stores := inferInstanceAs (Decidable (_ = _))

instance (attempt : Attempt) : Decidable attempt.Creates := inferInstanceAs (Decidable (_ ∧ _))

/-- What is thrown is not ignored. -/
def Fails (activation : WorkflowActivateMode) (attempt : Attempt) : Prop :=
  ∃ e ∈ attempt.thrown, ¬(activation.isStart ∧ e.isQueryFailedError)

instance (activation : WorkflowActivateMode) (attempt : Attempt) :
    Decidable (attempt.Fails activation) :=
  inferInstanceAs (Decidable (∃ e ∈ attempt.thrown, _))

end Attempt

def attempted (activation : WorkflowActivateMode) : List Attempt → List Attempt
  | [] => []
  | attempt :: attempts =>
    if attempt.Fails activation then [attempt] else attempt :: attempted activation attempts

namespace Deletion

/-- The delete call throws. -/
def Fails (deletion : Deletion) : Prop :=
  deletion.webhookData.hasMethods = true ∧ deletion.delete.toBool = false

instance (deletion : Deletion) : Decidable deletion.Fails :=
  inferInstanceAs (Decidable (_ ∧ _))

/-- The webhooks whose delete method is called: up to the first that fails, where they have one. -/
def called : List Deletion → List WebhookData
  | [] => []
  | deletion :: deletions =>
    if deletion.webhookData.hasMethods then
      deletion.webhookData :: if deletion.Fails then [] else called deletions
    else called deletions

end Deletion

namespace ClearAnswers

/-- The webhooks of the active version, if it is found and they can be read. -/
def deletions (clear : ClearAnswers) : Option (List Deletion) :=
  match clear.findOne with
  | .ok (some (some (.ok webhooks))) =>
    some (webhooks.filter fun deletion => !deletion.webhookData.restartWebhook)
  | _ => none

/-- The rows are removed in the end: the active version is found, no delete call throws, and the
database removes the rows. -/
def Completes (clear : ClearAnswers) : Prop :=
  (∃ deletions ∈ clear.deletions, ∀ deletion ∈ deletions, ¬ deletion.Fails) ∧
    clear.findBy.toBool = true ∧ clear.remove.toBool = true

def Deletes (clear : ClearAnswers) (webhookData : WebhookData) : Prop :=
  ∃ deletions ∈ clear.deletions, webhookData ∈ Deletion.called deletions

end ClearAnswers

namespace ActivationRun

/-- Some webhook fails, so that there is a rollback. -/
def Clears (run : ActivationRun) : Prop :=
  ∃ attempt ∈ run.webhooks, attempt.Fails run.activation

/-- **The rollback gets far enough**: it completes, or there was no row to be removed; and it calls
the delete method of every webhook that was created. -/
structure RollsBack (run : ActivationRun) (service : ActivatedWebhooks) : Prop where
  rows : run.Clears ∧ run.clear.Completes ∨
    service.table.findByWorkflow run.workflowId = [] ∧
      ∀ attempt ∈ attempted run.activation run.webhooks, ¬ attempt.Stores
  deleted : ∀ attempt ∈ attempted run.activation run.webhooks, attempt.Creates →
    run.Clears ∧ run.clear.Deletes attempt.webhookData

end ActivationRun

end WebhookRollback

namespace WebhookTable

variable {t : WebhookTable}

theorem findByWorkflow_eq_nil_iff {workflowId : String} : t.findByWorkflow workflowId = [] ↔
    ∀ key w, t.rows.get? key = some w → w.workflowId ≠ workflowId := by
  rw [findByWorkflow, List.filter_eq_nil_iff]
  constructor
  · intro h key w hw hid
    exact h w (Dict.mem_values_of_get? hw) (decide_eq_true hid)
  · intro h w hw hid
    exact h _ w (get?_of_mem_values hw) (of_decide_eq_true hid)

theorem findByWorkflow_upsert_ne_nil (w : WebhookEntity) :
    (t.upsert w).findByWorkflow w.workflowId ≠ [] := by
  intro h
  have hget : (t.upsert w).rows.get? w.primaryKey = some (w.replacing _) :=
    (get?_upsert w w.primaryKey).trans (if_pos rfl)
  refine findByWorkflow_eq_nil_iff.mp h _ _ hget ?_
  cases t.rows.get? w.primaryKey <;> rfl

theorem findByWorkflow_remove (workflowId : String) :
    (t.remove (t.findByWorkflow workflowId)).findByWorkflow workflowId = [] := by
  refine findByWorkflow_eq_nil_iff.mpr fun key w hw hid => ?_
  rw [get?_remove] at hw
  split at hw
  · cases hw
  · rename_i hkey
    refine hkey (List.mem_map.mpr ⟨w, ?_, t.keyed key w hw⟩)
    exact List.mem_filter.mpr ⟨Dict.mem_values_of_get? hw, decide_eq_true hid⟩

end WebhookTable

namespace WebhookRollback

namespace Activation

/-- The attempts lead from `s` to `s'`. -/
structure After (workflowId : String) (s : Activation) (attempts : List Attempt)
    (s' : Activation) : Prop where
  rows : s'.service.table.findByWorkflow workflowId = [] ↔
    s.service.table.findByWorkflow workflowId = [] ∧ ∀ attempt ∈ attempts, ¬ attempt.Stores
  created : ∀ webhookData, ⟨.create, webhookData, true⟩ ∈ s'.calls ↔
    ⟨.create, webhookData, true⟩ ∈ s.calls ∨
      ∃ attempt ∈ attempts, attempt.Creates ∧ attempt.webhookData = webhookData
  deleted : ∀ webhookData resolved, ⟨.delete, webhookData, resolved⟩ ∈ s'.calls ↔
    ⟨.delete, webhookData, resolved⟩ ∈ s.calls

variable {workflowId : String} {s s' s'' : Activation} {attempt : Attempt}

theorem After.refl : After workflowId s [] s where
  rows := by simp
  created _ := by simp
  deleted _ _ := Iff.rfl

theorem After.cons {attempts : List Attempt} (h : After workflowId s [attempt] s')
    (hs : After workflowId s' attempts s'') : After workflowId s (attempt :: attempts) s'' where
  rows := by
    rw [hs.rows, h.rows, List.forall_mem_singleton, List.forall_mem_cons, and_assoc]
  created webhookData := by
    rw [hs.created, h.created, or_assoc]
    simp only [List.mem_cons, List.not_mem_nil, or_false, exists_eq_or_imp, exists_eq_left]
  deleted webhookData resolved := (hs.deleted _ _).trans (h.deleted _ _)

theorem After.single {table : WebhookTable} (calls : List SetupCall)
    (htable : s'.service.table = table) (hcalls : s'.calls = s.calls ++ calls)
    (hrows : table.findByWorkflow workflowId = [] ↔
      s.service.table.findByWorkflow workflowId = [] ∧ ¬ attempt.Stores)
    (hcreated : ∀ webhookData, ⟨.create, webhookData, true⟩ ∈ calls ↔
      attempt.Creates ∧ attempt.webhookData = webhookData)
    (hdeleted : ∀ call ∈ calls, call.method ≠ .delete) : After workflowId s [attempt] s' where
  rows := by
    rw [htable, hrows, List.forall_mem_singleton]
  created webhookData := by
    rw [hcalls, List.mem_append, hcreated]
    simp only [List.mem_singleton, exists_eq_left]
  deleted webhookData resolved := by
    rw [hcalls, List.mem_append]
    exact or_iff_left fun h => hdeleted _ h rfl

theorem table_storeWebhook (service : ActivatedWebhooks) (workflowId : String)
    (webhook : NodeWebhook) : (service.storeWebhook workflowId webhook).table
      = service.table.upsert (webhook.row workflowId) := by
  show (service.cacheSet _ _).table.upsert _ = _
  rw [ActivatedWebhooks.table_cacheSet]

/-- The calls of the methods of a webhook. -/
def setUpCalls (attempt : Attempt) : List SetupCall :=
  if attempt.webhookData.hasMethods then
    ⟨.checkExists, attempt.webhookData, attempt.checkExists.toBool⟩ ::
      if attempt.checkExists.toOption = some false then
        [⟨.create, attempt.webhookData, attempt.create.toBool⟩] else []
  else []

theorem createWebhookIfNotExists_eq (s : Activation) (attempt : Attempt) :
    s.createWebhookIfNotExists attempt
      = match attempt.setUpError with
        | none => .returned { s with calls := s.calls ++ setUpCalls attempt }
        | some e => .threw e { s with calls := s.calls ++ setUpCalls attempt } := by
  obtain ⟨webhookData, upsert, checkExists, create⟩ := attempt
  rw [createWebhookIfNotExists, runWebhookMethod, Attempt.setUpError, setUpCalls]
  rcases hmethods : webhookData.hasMethods with _ | _
  · simp [runWebhookMethod, hmethods]
  rcases checkExists with e | _ | _
  · simp [Except.map, Except.toOption]
  · rcases create with e | _ <;>
      simp [runWebhookMethod, hmethods, Except.map, Except.toOption, Except.toBool]
  · simp [Except.map, Except.toOption]

theorem method_of_mem_setUpCalls {call : SetupCall} (h : call ∈ setUpCalls attempt) :
    call.method ≠ .delete := by
  rw [setUpCalls] at h
  split at h
  · split at h <;> grind
  · cases h

theorem created_mem_setUpCalls {webhookData : WebhookData} (hstores : attempt.Stores) :
    ⟨.create, webhookData, true⟩ ∈ setUpCalls attempt ↔
      attempt.Creates ∧ attempt.webhookData = webhookData := by
  rw [setUpCalls, Attempt.Creates]
  split
  · split <;> grind
  · grind

theorem setUp_cases (workflowId : String) (s : Activation) (attempt : Attempt) :
    ∃ s', After workflowId s [attempt] s' ∧
      (s.storeWebhook workflowId attempt).andThen (·.createWebhookIfNotExists attempt)
        = match attempt.thrown with
          | none => .returned s'
          | some e => .threw e s' := by
  rw [storeWebhook, Attempt.thrown]
  rcases hupsert : attempt.upsert with e | _
  · have hstores : ¬ attempt.Stores := by rw [Attempt.Stores, hupsert]; exact Bool.false_ne_true
    refine ⟨_, ?_, rfl⟩
    refine After.single [] (ActivatedWebhooks.table_cacheSet _ _) (List.append_nil _).symm
      (and_iff_left hstores).symm (fun _ => ?_) (List.forall_mem_nil _)
    exact iff_of_false List.not_mem_nil fun h => hstores h.1.1
  · have hstores : attempt.Stores := by rw [Attempt.Stores, hupsert]; rfl
    have hrows := WebhookTable.findByWorkflow_upsert_ne_nil (t := s.service.table)
      (attempt.webhookData.toNodeWebhook.row workflowId)
    refine ⟨_, ?_, createWebhookIfNotExists_eq _ _⟩
    exact After.single (setUpCalls attempt) (table_storeWebhook s.service _ _) rfl
      (iff_of_false hrows fun h => h.2 hstores) (fun _ => created_mem_setUpCalls hstores)
      (fun _ => method_of_mem_setUpCalls)

theorem addWebhook_cases (run : ActivationRun) (s : Activation) (attempt : Attempt) :
    ∃ s', After run.workflowId s [attempt] s' ∧
      if attempt.Fails run.activation then
        ∃ e, s.addWebhook run attempt = .threw e (s'.clearWebhooks run.workflowId run.clear).state
      else s.addWebhook run attempt = .returned s' := by
  obtain ⟨s', hafter, heq⟩ := setUp_cases run.workflowId s attempt
  refine ⟨s', hafter, ?_⟩
  rw [addWebhook, heq]
  rcases hthrown : attempt.thrown with _ | e
  · rw [if_neg fun ⟨_, hmem, _⟩ => (by rw [hthrown] at hmem; cases hmem)]
  · have hfails : attempt.Fails run.activation
        ↔ ¬(run.activation.isStart ∧ e.isQueryFailedError) := by
      simp only [Attempt.Fails, hthrown, Option.mem_some_iff, exists_eq_left']
    by_cases hignored : run.activation.isStart ∧ e.isQueryFailedError
    · rw [if_neg fun h => hfails.mp h hignored]
      exact if_pos hignored
    · rw [if_pos (hfails.mpr hignored)]
      exact ⟨_, if_neg hignored⟩

theorem exists_after (run : ActivationRun) : ∀ (attempts : List Attempt) (s : Activation),
    ∃ s', After run.workflowId s (attempted run.activation attempts) s' ∧
      if ∃ attempt ∈ attempts, attempt.Fails run.activation then
        ∃ e, Outcome.each (·.addWebhook run) s attempts
          = .threw e (s'.clearWebhooks run.workflowId run.clear).state
      else Outcome.each (·.addWebhook run) s attempts = .returned s' := by
  intro attempts
  induction attempts with
  | nil => exact fun s => ⟨s, After.refl, rfl⟩
  | cons attempt attempts ih =>
    intro s
    obtain ⟨s₁, hafter, hround⟩ := addWebhook_cases run s attempt
    rw [attempted]
    by_cases hfails : attempt.Fails run.activation
    · rw [if_pos hfails] at hround ⊢
      obtain ⟨e, hround⟩ := hround
      refine ⟨s₁, hafter, ?_⟩
      rw [if_pos ⟨attempt, List.mem_cons_self, hfails⟩]
      exact ⟨e, by rw [Outcome.each, hround]; rfl⟩
    · rw [if_neg hfails] at hround ⊢
      obtain ⟨s₂, hrest, hloop⟩ := ih s₁
      refine ⟨s₂, hafter.cons hrest, ?_⟩
      have hsome : (∃ a ∈ attempt :: attempts, a.Fails run.activation)
          ↔ ∃ a ∈ attempts, a.Fails run.activation := by
        simp only [List.mem_cons, exists_eq_or_imp, hfails, false_or]
      simp only [hsome, Outcome.each, hround, Outcome.returned_andThen]
      exact hloop

end Activation

namespace Activation

/-- From `s` to `t` the delete methods of these webhooks are called, and nothing is created. -/
structure Cleared (deletes : WebhookData → Prop) (s t : Activation) : Prop where
  created : ∀ webhookData, ⟨.create, webhookData, true⟩ ∈ t.calls ↔
    ⟨.create, webhookData, true⟩ ∈ s.calls
  deleted : ∀ webhookData, (∃ resolved, ⟨.delete, webhookData, resolved⟩ ∈ t.calls) ↔
    (∃ resolved, ⟨.delete, webhookData, resolved⟩ ∈ s.calls) ∨ deletes webhookData

theorem deleteWebhook_eq (s : Activation) (deletion : Deletion) :
    s.deleteWebhook deletion
      = if deletion.webhookData.hasMethods then
          let t : Activation := { s with
            calls := s.calls ++ [⟨.delete, deletion.webhookData, deletion.delete.toBool⟩] }
          match deletion.delete with
          | .error e => .threw e t
          | .ok _ => .returned t
        else .returned s := by
  rw [deleteWebhook, runWebhookMethod]
  by_cases hmethods : deletion.webhookData.hasMethods = true
  · rw [if_pos hmethods, if_pos hmethods]
    cases deletion.delete <;> rfl
  · rw [if_neg hmethods, if_neg hmethods]

theorem each_deleteWebhook_cases : ∀ (deletions : List Deletion) (s : Activation),
    ∃ t, t.service = s.service ∧ Cleared (· ∈ Deletion.called deletions) s t ∧
      if ∃ deletion ∈ deletions, deletion.Fails then
        ∃ e, Outcome.each deleteWebhook s deletions = .threw e t
      else Outcome.each deleteWebhook s deletions = .returned t := by
  intro deletions
  induction deletions with
  | nil =>
    intro s
    exact ⟨s, rfl, ⟨fun _ => Iff.rfl, fun _ => (or_iff_left List.not_mem_nil).symm⟩, rfl⟩
  | cons deletion deletions ih =>
    intro s
    have hsome : (∃ d ∈ deletion :: deletions, d.Fails)
        ↔ deletion.Fails ∨ ∃ d ∈ deletions, d.Fails := by
      simp only [List.mem_cons, exists_eq_or_imp]
    simp only [Outcome.each, deleteWebhook_eq, Deletion.called, hsome]
    by_cases hmethods : deletion.webhookData.hasMethods = true
    · simp only [if_pos hmethods]
      rcases hdelete : deletion.delete with e | deleted
      · have hfails : deletion.Fails := ⟨hmethods, by rw [hdelete]; rfl⟩
        refine ⟨{ s with calls := s.calls ++ [⟨.delete, deletion.webhookData, false⟩] }, rfl,
          ⟨fun _ => ?_, fun _ => ?_⟩, ?_⟩
        · simp
        · simp [exists_or, hfails]
        · rw [if_pos (.inl hfails)]
          exact ⟨e, rfl⟩
      · have hfails : ¬ deletion.Fails := fun h => by
          have hthrew := h.2
          rw [hdelete] at hthrew
          cases hthrew
        obtain ⟨t, hservice, hcleared, hloop⟩ := ih { s with
          calls := s.calls ++ [⟨.delete, deletion.webhookData, (Except.ok deleted).toBool⟩] }
        refine ⟨t, hservice, ⟨fun w => (hcleared.created w).trans ?_,
          fun w => (hcleared.deleted w).trans ?_⟩, ?_⟩
        · simp
        · simp [exists_or, or_assoc, hfails]
        · simpa only [hfails, false_or, Outcome.returned_andThen] using hloop
    · have hfails : ¬ deletion.Fails := fun h => hmethods h.1
      obtain ⟨t, hservice, hcleared, hloop⟩ := ih s
      simp only [if_neg hmethods, hfails, false_or]
      exact ⟨t, hservice, hcleared, hloop⟩

variable {clear : ClearAnswers}

theorem clearWebhooks_of_none (h : clear.deletions = none)
    (workflowId : String) (s : Activation) : (s.clearWebhooks workflowId clear).state = s := by
  rw [ClearAnswers.deletions] at h
  rw [clearWebhooks]
  rcases hfind : clear.findOne with e | _ | _ | e | webhooks
  case ok.some.some.ok =>
    rw [hfind] at h
    cases h
  all_goals rfl

theorem clearWebhooks_of_some {deletions : List Deletion}
    (h : clear.deletions = some deletions) (workflowId : String) (s : Activation) :
    s.clearWebhooks workflowId clear = (Outcome.each deleteWebhook s deletions).andThen
      (·.deleteWorkflowWebhooks workflowId clear) := by
  rw [ClearAnswers.deletions] at h
  rw [clearWebhooks]
  rcases hfind : clear.findOne with e | _ | _ | e | webhooks <;> rw [hfind] at h <;> cases h
  rfl

theorem deleteWorkflowWebhooks_spec (workflowId : String) (clear : ClearAnswers) (s : Activation) :
    let t := (s.deleteWorkflowWebhooks workflowId clear).state
    t.calls = s.calls ∧ (t.service.table.findByWorkflow workflowId = [] ↔
      clear.findBy.toBool = true ∧ clear.remove.toBool = true ∨
        s.service.table.findByWorkflow workflowId = []) := by
  have hgone : (s.service.deleteWorkflowWebhooks workflowId).table.findByWorkflow workflowId = [] :=
    WebhookTable.findByWorkflow_remove workflowId
  rw [deleteWorkflowWebhooks]
  rcases clear.findBy with e | _
  · exact ⟨rfl, (or_iff_right fun h => by cases h.1).symm⟩
  rcases clear.remove with e | _
  · exact ⟨rfl, (or_iff_right fun h => by cases h.2).symm⟩
  · exact ⟨rfl, iff_of_true hgone (.inl ⟨rfl, rfl⟩)⟩

theorem clearWebhooks_spec (workflowId : String) (clear : ClearAnswers) (s : Activation) :
    let t := (s.clearWebhooks workflowId clear).state
    Cleared clear.Deletes s t ∧ (t.service.table.findByWorkflow workflowId = [] ↔
      clear.Completes ∨ s.service.table.findByWorkflow workflowId = []) := by
  rcases hdeletions : clear.deletions with _ | deletions
  · rw [clearWebhooks_of_none hdeletions]
    refine ⟨⟨fun _ => Iff.rfl, fun w => (or_iff_left ?_).symm⟩, (or_iff_right ?_).symm⟩
    · rintro ⟨_, hmem, _⟩
      rw [hdeletions] at hmem
      cases hmem
    · rintro ⟨⟨_, hmem, _⟩, _⟩
      rw [hdeletions] at hmem
      cases hmem
  · have hdeletes : clear.Deletes = (· ∈ Deletion.called deletions) := by
      funext w
      simp only [ClearAnswers.Deletes, hdeletions, Option.mem_some_iff, exists_eq_left']
    have hcompletes : clear.Completes ↔ (∀ deletion ∈ deletions, ¬ deletion.Fails) ∧
        clear.findBy.toBool = true ∧ clear.remove.toBool = true := by
      simp only [ClearAnswers.Completes, hdeletions, Option.mem_some_iff, exists_eq_left']
    obtain ⟨t, hservice, hcleared, hloop⟩ := each_deleteWebhook_cases deletions s
    rw [clearWebhooks_of_some hdeletions, hdeletes, hcompletes]
    by_cases hfails : ∃ deletion ∈ deletions, deletion.Fails
    · rw [if_pos hfails] at hloop
      obtain ⟨e, hloop⟩ := hloop
      rw [hloop]
      refine ⟨hcleared, ?_⟩
      rw [Outcome.threw_andThen, Outcome.state_threw, hservice]
      exact (or_iff_right fun ⟨h, _⟩ => h _ hfails.choose_spec.1 hfails.choose_spec.2).symm
    · rw [if_neg hfails] at hloop
      obtain ⟨hcalls, hrows⟩ := deleteWorkflowWebhooks_spec workflowId clear t
      rw [hloop, Outcome.returned_andThen]
      refine ⟨⟨fun w => ?_, fun w => ?_⟩, ?_⟩
      · rw [hcalls]
        exact hcleared.created w
      · rw [hcalls]
        exact hcleared.deleted w
      · have hnone : ∀ deletion ∈ deletions, ¬ deletion.Fails :=
          fun deletion hmem h => hfails ⟨deletion, hmem, h⟩
        rw [hrows, hservice, and_iff_right hnone]

end Activation

open Activation

variable {workflowId : String} {service : ActivatedWebhooks} {attempts : List Attempt}
  {s : Activation}

theorem leavesNothing_clearWebhooks_iff (h : After workflowId { service } attempts s)
    (clear : ClearAnswers) :
    (s.clearWebhooks workflowId clear).state.LeavesNothing workflowId ↔
      (clear.Completes ∨ service.table.findByWorkflow workflowId = [] ∧
        ∀ attempt ∈ attempts, ¬ attempt.Stores) ∧
      ∀ attempt ∈ attempts, attempt.Creates → clear.Deletes attempt.webhookData := by
  obtain ⟨hcleared, hrows⟩ := clearWebhooks_spec workflowId clear s
  have hdeleted : ∀ w, (∃ resolved, ⟨.delete, w, resolved⟩ ∈
      (s.clearWebhooks workflowId clear).state.calls) ↔ clear.Deletes w := fun w => by
    rw [hcleared.deleted]
    exact or_iff_right fun ⟨resolved, hmem⟩ => List.not_mem_nil ((h.deleted w resolved).mp hmem)
  have hcreated : ∀ w, ⟨.create, w, true⟩ ∈ (s.clearWebhooks workflowId clear).state.calls ↔
      ∃ attempt ∈ attempts, attempt.Creates ∧ attempt.webhookData = w := fun w => by
    rw [hcleared.created, h.created]
    exact or_iff_right List.not_mem_nil
  rw [h.rows] at hrows
  constructor
  · intro hleaves
    refine ⟨hrows.mp hleaves.rows, fun attempt hmem hcreates => ?_⟩
    exact (hdeleted _).mp (hleaves.deleted _ ((hcreated _).mpr ⟨attempt, hmem, hcreates, rfl⟩))
  · rintro ⟨hempty, hdeletes⟩
    refine ⟨hrows.mpr hempty, fun w hmem => ?_⟩
    obtain ⟨attempt, hattempt, hcreates, rfl⟩ := (hcreated w).mp hmem
    exact (hdeleted _).mpr (hdeletes attempt hattempt hcreates)

theorem leavesNothing_iff_of_after (h : After workflowId { service } attempts s) :
    s.LeavesNothing workflowId ↔
      (service.table.findByWorkflow workflowId = [] ∧ ∀ attempt ∈ attempts, ¬ attempt.Stores) ∧
      ∀ attempt ∈ attempts, ¬ attempt.Creates := by
  have hdeleted : ∀ w resolved, ⟨.delete, w, resolved⟩ ∉ s.calls := fun w resolved hmem =>
    List.not_mem_nil ((h.deleted w resolved).mp hmem)
  have hcreated : ∀ w, ⟨.create, w, true⟩ ∈ s.calls ↔
      ∃ attempt ∈ attempts, attempt.Creates ∧ attempt.webhookData = w := fun w => by
    rw [h.created]
    exact or_iff_right List.not_mem_nil
  constructor
  · intro hleaves
    refine ⟨h.rows.mp hleaves.rows, fun attempt hmem hcreates => ?_⟩
    obtain ⟨resolved, hcall⟩ := hleaves.deleted _ ((hcreated _).mpr ⟨attempt, hmem, hcreates, rfl⟩)
    exact hdeleted _ _ hcall
  · rintro ⟨hempty, hnone⟩
    refine ⟨h.rows.mpr hempty, fun w hmem => ?_⟩
    obtain ⟨attempt, hattempt, hcreates, rfl⟩ := (hcreated w).mp hmem
    exact absurd hcreates (hnone attempt hattempt)

/-- **A failed activation leaves nothing** exactly if its rollback gets far enough. -/
theorem leavesNothing_iff (run : ActivationRun) (service : ActivatedWebhooks) {e : ThrownError}
    {t : Activation} (hthrew : run.addWebhooks service = (.error e, t)) :
    t.LeavesNothing run.workflowId ↔ run.RollsBack service := by
  have hrolls : run.RollsBack service ↔ _ ∧ _ := ⟨fun h => ⟨h.rows, h.deleted⟩, fun h => ⟨h.1, h.2⟩⟩
  obtain ⟨s, hafter, hloop⟩ := exists_after run run.webhooks { service }
  rw [hrolls]
  rw [ActivationRun.addWebhooks] at hthrew
  split at hthrew
  · cases hthrew
  by_cases hfails : ∃ attempt ∈ run.webhooks, attempt.Fails run.activation
  · have hclears : run.Clears := hfails
    rw [if_pos hfails] at hloop
    obtain ⟨e', hloop⟩ := hloop
    rw [hloop, Outcome.threw_andThen] at hthrew
    cases hthrew
    simp only [leavesNothing_clearWebhooks_iff hafter, hclears, true_and]
  · have hclears : ¬ run.Clears := hfails
    rw [if_neg hfails] at hloop
    rw [hloop, Outcome.returned_andThen, populateCache] at hthrew
    split at hthrew
    · rename_i heq
      split at heq
      · cases heq
      · cases hthrew
    · rename_i heq
      split at heq
      · cases heq
        cases hthrew
        simp only [leavesNothing_iff_of_after hafter, hclears, false_and, false_or, imp_false]
      · cases heq

def serviceWebhook (path : String) : WebhookData :=
  { node := "Trigger", httpMethod := .POST, path, nodeWebhookId := none }

def serviceError : ThrownError := { name := "NodeApiError", message := "Service unavailable" }

/-- The third of three webhooks is not created, and the delete call for the first one ends like
this. -/
def thirdFails (delete : Except ThrownError Bool) : ActivationRun where
  workflowId := "w1"
  activation := .activate
  attempts :=
    [{ webhookData := serviceWebhook "a" }, { webhookData := serviceWebhook "b" },
      { webhookData := serviceWebhook "c", create := .error serviceError }]
  clear := {
    findOne := .ok (some (some (.ok
      [{ webhookData := serviceWebhook "a", delete }, { webhookData := serviceWebhook "b" },
        { webhookData := serviceWebhook "c" }]))) }

/-- With all delete calls resolved nothing is left. -/
theorem leavesNothing_thirdFails :
    ((thirdFails (.ok true)).addWebhooks {}).2.LeavesNothing "w1" := by
  refine (leavesNothing_iff (thirdFails (.ok true)) {}
    (Prod.ext (by decide +kernel : _ = Except.error serviceError) rfl)).mpr ⟨.inl ⟨?_, ?_⟩, ?_⟩
  · exact ⟨_, List.mem_cons_of_mem _ (List.mem_cons_of_mem _ List.mem_cons_self), by decide⟩
  · exact ⟨⟨_, rfl, by decide⟩, rfl, rfl⟩
  · intro attempt hmem _
    refine ⟨⟨_, List.mem_cons_of_mem _ (List.mem_cons_of_mem _ List.mem_cons_self), by decide⟩, _,
      rfl, ?_⟩
    revert attempt
    decide

/-- When the first delete call throws, the second webhook is not deleted. -/
theorem not_leavesNothing_thirdFails : ¬ ∀ (run : ActivationRun) (service : ActivatedWebhooks)
    (e : ThrownError) (t : Activation), run.addWebhooks service = (.error e, t) →
      t.LeavesNothing run.workflowId := by
  intro h
  have hleaves := h (thirdFails (.error serviceError)) {} serviceError _
    (Prod.ext (by decide +kernel) rfl)
  have hcreated : (⟨.create, serviceWebhook "b", true⟩ : SetupCall) ∈
      ((thirdFails (.error serviceError)).addWebhooks {}).2.calls := by decide +kernel
  obtain ⟨resolved, hdeleted⟩ := hleaves.deleted _ hcreated
  have hnone : ∀ resolved, (⟨.delete, serviceWebhook "b", resolved⟩ : SetupCall) ∉
      ((thirdFails (.error serviceError)).addWebhooks {}).2.calls := by decide +kernel
  exact hnone resolved hdeleted

end WebhookRollback

end N8n
