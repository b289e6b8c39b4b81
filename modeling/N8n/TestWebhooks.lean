/-
The sessions of test webhooks.

`needsWebhook` makes one timer and registers the webhooks of a workflow one after the other;
a received call, a cancel and the timer deactivate all webhooks of the workflow, and so does
a registration that fails.  Between two awaits of any of them the others go on.

* **`TestWebhooks.endsForOwnReasons`** — along every undisturbed run a session ends for a
  reason of its own, and leaves no webhook behind.
-/
import N8n.Runs
import N8n.WebhookService

namespace N8n

open PathPattern

/-- `path.slice(path.indexOf('/') + 1)`. -/
def afterFirstSlash (path : String) : String :=
  if '/' ∈ path.toList then String.ofList ((path.toList.dropWhile (· ≠ '/')).drop 1) else path

/-- The key of a registration. -/
def toKey (httpMethod : IHttpRequestMethods) (path : String) (webhookId : Option String) : String :=
  match webhookId.filter (· ≠ "") with
  | none => httpMethod.toString ++ "|" ++ path
  | some webhookId =>
    let path := if webhookId.toList <+: path.toList then afterFirstSlash path else path
    httpMethod.toString ++ "|" ++ webhookId ++ "|" ++ toString (segments path).length

structure TestWebhook where
  node : String
  nodeType : String
  httpMethod : IHttpRequestMethods
  path : String
  webhookId : Option String := none
  restartWebhook : Bool := false
  isTest : Bool := false
  userId : Option String := none
  deriving DecidableEq

def TestWebhook.toKey (w : TestWebhook) : String := N8n.toKey w.httpMethod w.path w.webhookId

/-- The webhook as it is registered. -/
def TestWebhook.cacheable (w : TestWebhook) (userId : String) : TestWebhook :=
  { w with path := LiveWebhooks.removeTrailingSlash w.path, isTest := true, userId := some userId }

def SINGLE_WEBHOOK_TRIGGERS : List String :=
  ["n8n-nodes-base.telegramTrigger", "n8n-nodes-base.slackTrigger",
    "n8n-nodes-base.facebookLeadAdsTrigger"]

/-- A preferred trigger, and whether there is data for it. -/
structure TriggerToStartFrom where
  name : String
  data : Bool
  deriving DecidableEq

/-- The options of `needsWebhook`, with the webhooks of the workflow and the nodes that have
run data. -/
structure NeedsWebhookOptions where
  userId : String
  workflowId : String
  webhooks : List TestWebhook
  runData : List String := []
  pushRef : Option String := none
  triggerToStartFrom : Option TriggerToStartFrom := none
  workflowIsActive : Bool := false
  deriving DecidableEq

/-- Where a call of `needsWebhook` awaits for the current webhook, or how it ended. -/
inductive SessionStage where
  | get
  | register
  | create
  | registerAgain
  | deactivating
  | returned (result : Bool)
  | threw
  deriving DecidableEq

/-- A call of `needsWebhook` with the webhooks that are left, and whether its timer runs. -/
structure Session where
  options : NeedsWebhookOptions
  webhooks : List TestWebhook := []
  stage : SessionStage
  timer : Bool := false
  deriving DecidableEq

/-- A registration with the call that made it. -/
structure TestWebhookRegistration where
  workflowId : String
  pushRef : Option String
  webhook : TestWebhook
  session : ℕ
  deriving DecidableEq

/-- Why webhooks are deactivated. -/
inductive EndCause where
  | received
  | cancel
  | failed (session : ℕ)
  | timer (session : ℕ)
  deriving DecidableEq

inductive DeactivationStage where
  | getAll
  | delete (webhooks : List TestWebhook)
  | deregister (webhooks : List TestWebhook)
  deriving DecidableEq

structure Deactivation where
  workflowId : String
  cause : EndCause
  stage : DeactivationStage := .getAll
  deriving DecidableEq

/-- A call of `cancelWebhook`, possibly from the timer of a call, with the keys that are
left, once it has them. -/
structure Cancel where
  workflowId : String
  timer : Option ℕ := none
  keys : Option (List String) := none
  foundWebhook : Bool := false
  deriving DecidableEq

def Cancel.cause (c : Cancel) : EndCause :=
  match c.timer with
  | some n => .timer n
  | none => .cancel

/-- A received call whose workflow runs. -/
structure TestExecution where
  key : String
  workflowId : String
  deriving DecidableEq

structure TestWebhooks where
  registrations : Dict String TestWebhookRegistration := .empty
  timeouts : Dict String ℕ := .empty
  sessions : List Session := []
  executions : List TestExecution := []
  cancels : List Cancel := []
  deactivations : List Deactivation := []
  deriving DecidableEq

/-- How what a call awaits turns out; a registration may be stored and fail all the same. -/
inductive TurnOutcome where
  | succeeds
  | failsBefore
  | failsAfter
  deriving DecidableEq

/-- A call of `needsWebhook` begins or takes its next turn; a webhook is called, and its
workflow has run or was not started; a workflow is cancelled; a timer fires; the `i`-th
cancel or deactivation takes its next turn. -/
inductive TestWebhooksInput where
  | needsWebhook (options : NeedsWebhookOptions)
  | proceed (session : ℕ) (outcome : TurnOutcome)
  | received (key : String)
  | executed (i : ℕ) (started : Bool)
  | cancelWebhook (workflowId : String)
  | fire (session : ℕ)
  | cancel (i : ℕ)
  | deactivate (i : ℕ) (fails : Bool)
  deriving DecidableEq

def DeactivationStage.remaining : DeactivationStage → List TestWebhook
  | getAll => []
  | delete webhooks => webhooks
  | deregister webhooks => webhooks

namespace Session

/-- The webhooks to listen for: those of the preferred trigger, if there is one. -/
def listenFor (options : NeedsWebhookOptions) : List TestWebhook :=
  match options.triggerToStartFrom with
  | some trigger => options.webhooks.filter fun w => w.node = trigger.name
  | none => options.webhooks

/-- The call until it awaits, in the loop over its webhooks, or has ended. -/
def begin (options : NeedsWebhookOptions) : Session :=
  let webhooks := listenFor options
  if options.workflowId = "" then { options, stage := .threw }
  else if options.triggerToStartFrom.any (·.data) then { options, stage := .returned false }
  else if webhooks.all (·.restartWebhook) then { options, stage := .returned false }
  else if options.workflowIsActive ∧ webhooks.any (·.nodeType ∈ SINGLE_WEBHOOK_TRIGGERS) then
    { options, stage := .threw }
  else { options, webhooks, stage := .get, timer := true }

theorem timer_begin {options : NeedsWebhookOptions} (h : (begin options).stage ≠ .get) :
    (begin options).timer = false := by
  rw [begin] at h ⊢
  split at h
  · rw [if_pos ‹_›]
  · rw [if_neg ‹_›]
    split at h
    · rw [if_pos ‹_›]
    · rw [if_neg ‹_›]
      split at h
      · rw [if_pos ‹_›]
      · rw [if_neg ‹_›]
        split at h
        · rw [if_pos ‹_›]
        · exact absurd rfl h

def working (c : Session) : Bool :=
  match c.stage with
  | .get | .register | .create | .registerAgain => true
  | _ => false

/-- The call has returned true, or still may. -/
def mayReturnTrue (c : Session) : Bool := c.working || c.stage = .returned true

/-- The call has returned false or thrown. -/
def gaveUp (c : Session) : Bool := c.stage = .returned false || c.stage = .threw

theorem gaveUp_of_working {c : Session} (h : c.working = true) : c.gaveUp = false := by
  obtain ⟨options, webhooks, stage, timer⟩ := c
  cases stage <;> first | rfl | cases h

theorem registerAgain_of_working {c : Session} (h : c.working = true) (hget : c.stage ≠ .get)
    (hregister : c.stage ≠ .register) (hcreate : c.stage ≠ .create) : c.stage = .registerAgain := by
  obtain ⟨options, webhooks, stage, timer⟩ := c
  cases stage with
  | get => exact absurd rfl hget
  | register => exact absurd rfl hregister
  | create => exact absurd rfl hcreate
  | registerAgain => rfl
  | _ => cases h

end Session

namespace TestWebhooks
variable (s : TestWebhooks)

variable (n : ℕ)

def modifySession (f : Session → Session) : TestWebhooks :=
  { s with sessions := s.sessions.modify n f }

def setStage (stage : SessionStage) : TestWebhooks :=
  s.modifySession n fun c => { c with stage }

def stopTimer : TestWebhooks :=
  s.modifySession n fun c => { c with timer := false }

def clearTimeout (key : String) : TestWebhooks :=
  match s.timeouts.get? key with
  | some n => s.stopTimer n
  | none => s

def addCancel (c : Cancel) : TestWebhooks := { s with cancels := s.cancels ++ [c] }

def addDeactivation (d : Deactivation) : TestWebhooks :=
  { s with deactivations := s.deactivations ++ [d] }

/-- `registrations.register`. -/
def register (options : NeedsWebhookOptions) (w : TestWebhook) : TestWebhooks :=
  let webhook := w.cacheable options.userId
  let registration : TestWebhookRegistration :=
    { workflowId := options.workflowId, pushRef := options.pushRef, webhook, session := n }
  { s with registrations := s.registrations.set webhook.toKey registration }

def fail (options : NeedsWebhookOptions) : TestWebhooks :=
  (s.setStage n .deactivating).addDeactivation
    { workflowId := options.workflowId, cause := .failed n }

def pathTaken (options : NeedsWebhookOptions) (w : TestWebhook) : Bool :=
  (s.registrations.get? w.toKey).any fun registration =>
    w.webhookId.all (· = "") && !registration.webhook.isTest &&
      decide (registration.webhook.userId ≠ some options.userId) &&
      decide (registration.workflowId ≠ options.workflowId)

def succeed (c : Session) (w : TestWebhook) (rest : List TestWebhook) : TestWebhooks :=
  match c.stage with
  | .get =>
    if w.node ∈ c.options.runData then s.setStage n (.returned false)
    else if s.pathTaken c.options w then s.setStage n .threw
    else s.setStage n .register
  | .register => (s.register n c.options w).setStage n .create
  | .create => s.setStage n .registerAgain
  | _ =>
    let s := s.register n c.options w
    { s with timeouts := s.timeouts.set w.toKey n }.modifySession n fun c =>
      { c with webhooks := rest, stage := if rest = [] then .returned true else .get }

/-- What a call awaited for its current webhook failed; `stored` says whether a registration
was stored all the same. -/
def throwFrom (c : Session) (w : TestWebhook) (stored : Bool) : TestWebhooks :=
  match c.stage with
  | .get => s.setStage n .threw
  | .create => s.fail n c.options
  | _ => if stored then (s.register n c.options w).fail n c.options else s.fail n c.options

def proceed (c : Session) (w : TestWebhook) (rest : List TestWebhook) : TurnOutcome → TestWebhooks
  | .succeeds => s.succeed n c w rest
  | .failsBefore => s.throwFrom n c w false
  | .failsAfter => s.throwFrom n c w true

/-- A deactivation is over; if it was that of a failed call, the call throws. -/
def finish (d : Deactivation) (succeeded : Bool) : TestWebhooks :=
  match d.cause with
  | .failed n =>
    let key := (s.sessions[n]?.bind (·.webhooks.head?)).map (·.toKey)
    let timeouts := match succeeded, key with
      | true, some key => s.timeouts.erase key
      | _, _ => s.timeouts
    { s with timeouts }.setStage n .threw
  | _ => s

def webhooksOf (workflowId : String) : List TestWebhook :=
  (s.registrations.values.filter fun r => r.workflowId = workflowId).map (·.webhook)

def goOn (d : Deactivation) (stage : DeactivationStage) : TestWebhooks :=
  if stage.remaining = [] then s.finish d true else s.addDeactivation { d with stage }

/-- The next turn of a deactivation, which is no longer in the list. -/
def deactivate (d : Deactivation) : Bool → TestWebhooks
  | true => s.finish d false
  | false => match d.stage with
    | .getAll => s.goOn d (.delete (s.webhooksOf d.workflowId))
    | .delete webhooks => s.goOn d (.deregister webhooks)
    | .deregister [] => s.finish d true
    | .deregister (w :: rest) =>
      { s with registrations := s.registrations.erase w.toKey }.goOn d (.delete rest)

/-- The next turn of a cancel, which is no longer in the list. -/
def cancelTurn (c : Cancel) : TestWebhooks :=
  match c.keys with
  | none => s.addCancel { c with keys := some s.registrations.keys }
  | some [] => s
  | some (key :: keys) => match s.registrations.get? key with
    | none => s.addCancel { c with keys := some keys }
    | some registration =>
      if registration.workflowId ≠ c.workflowId then s.addCancel { c with keys := some keys }
      else
        let s := s.clearTimeout key
        let s := if c.foundWebhook then s
          else s.addDeactivation { workflowId := c.workflowId, cause := c.cause }
        s.addCancel { c with keys := some keys, foundWebhook := true }

def step : TestWebhooksInput → Except Unit TestWebhooks
  | .needsWebhook options => .ok { s with sessions := s.sessions ++ [Session.begin options] }
  | .proceed n outcome => match s.sessions[n]? with
    | none => .error ()
    | some c => match c.webhooks with
      | [] => .error ()
      | w :: rest => if c.working then .ok (s.proceed n c w rest outcome) else .error ()
  | .received key => match s.registrations.get? key with
    | none => .error ()
    | some registration => .ok { s with
        executions := s.executions ++ [{ key, workflowId := registration.workflowId }] }
  | .executed i started => match s.executions[i]? with
    | none => .error ()
    | some e =>
      let s := { s with executions := s.executions.eraseIdx i }
      .ok (if started then
        (s.clearTimeout e.key).addDeactivation { workflowId := e.workflowId, cause := .received }
        else s)
  | .cancelWebhook workflowId => .ok (s.addCancel { workflowId })
  | .fire n => match s.sessions[n]? with
    | none => .error ()
    | some c => if c.timer then
        .ok ((s.stopTimer n).addCancel { workflowId := c.options.workflowId, timer := some n })
      else .error ()
  | .cancel i => match s.cancels[i]? with
    | none => .error ()
    | some c => .ok ({ s with cancels := s.cancels.eraseIdx i }.cancelTurn c)
  | .deactivate i fails => match s.deactivations[i]? with
    | none => .error ()
    | some d => .ok ({ s with deactivations := s.deactivations.eraseIdx i }.deactivate d fails)

end TestWebhooks

/-! ### Reasons -/

/-- The deactivation is of the workflow of the registration, and if a timer started it, of
the timer of the call that registered. -/
def Deactivation.OwnReason (d : Deactivation) (r : TestWebhookRegistration) : Prop :=
  d.workflowId = r.workflowId ∧ ∀ n, d.cause = .timer n → r.session = n

instance (d : Deactivation) (r : TestWebhookRegistration) : Decidable (d.OwnReason r) := by
  unfold Deactivation.OwnReason
  cases d.cause with
  | timer n => exact decidable_of_iff (d.workflowId = r.workflowId ∧ r.session = n) (by simp)
  | _ => exact decidable_of_iff (d.workflowId = r.workflowId) (by simp)

namespace TestWebhooks

/-- The registrations of a call that returned true stay with their workflow, but for a
deactivation with a reason of their own. -/
def RemovedForOwnReason (s : TestWebhooks) (input : TestWebhooksInput) (s' : TestWebhooks) : Prop :=
  ∀ key r, s.registrations.get? key = some r → s.sessions[r.session]?.any (·.mayReturnTrue) = true →
    (∃ r', s'.registrations.get? key = some r' ∧ r'.workflowId = r.workflowId) ∨
    ∃ i d, input = .deactivate i false ∧ s.deactivations[i]? = some d ∧ d.OwnReason r

/-- No timer and no registration is left of a call that returned false or threw. -/
def LeavesNothing (s : TestWebhooks) : Prop :=
  ∀ (n : ℕ) (c : Session), s.sessions[n]? = some c → c.gaveUp = true →
    c.timer = false ∧ ∀ key r, s.registrations.get? key = some r → r.session ≠ n

/-! ### What must not happen -/

/-- A timer started it, for another call of the workflow. -/
def OtherTimer (workflowId : String) (n : ℕ) (workflowId' : String) (cause : EndCause) : Prop :=
  workflowId' = workflowId ∧ match cause with
    | .timer m => m ≠ n
    | _ => False

instance (workflowId : String) (n : ℕ) (workflowId' : String) (cause : EndCause) :
    Decidable (OtherTimer workflowId n workflowId' cause) := by
  unfold OtherTimer
  cases cause <;> infer_instance

/-- The key is not of another workflow, nor is one to be deregistered under it, and what the
timer of another call has started for the workflow is over. -/
structure RegistersAlone (s : TestWebhooks) (n : ℕ) (workflowId key : String) : Prop where
  registered : ∀ r ∈ s.registrations.get? key, r.workflowId = workflowId
  deregistered : ∀ d ∈ s.deactivations, ∀ w ∈ d.stage.remaining, w.toKey = key →
    d.workflowId = workflowId
  cancels : ∀ c ∈ s.cancels, ¬ OtherTimer workflowId n c.workflowId c.cause
  deactivations : ∀ d ∈ s.deactivations, ¬ OtherTimer workflowId n d.workflowId d.cause

instance (s : TestWebhooks) (n : ℕ) (workflowId key : String) :
    Decidable (s.RegistersAlone n workflowId key) :=
  decidable_of_iff ((∀ r ∈ s.registrations.get? key, r.workflowId = workflowId) ∧
    (∀ d ∈ s.deactivations, ∀ w ∈ d.stage.remaining, w.toKey = key → d.workflowId = workflowId) ∧
    (∀ c ∈ s.cancels, ¬ OtherTimer workflowId n c.workflowId c.cause) ∧
    ∀ d ∈ s.deactivations, ¬ OtherTimer workflowId n d.workflowId d.cause)
    ⟨fun ⟨h₁, h₂, h₃, h₄⟩ => ⟨h₁, h₂, h₃, h₄⟩, fun h => ⟨h.1, h.2, h.3, h.4⟩⟩

def TimerOver (s : TestWebhooks) (n : ℕ) : Prop := ∀ c ∈ s.sessions[n]?, c.timer = false

def NothingRegistered (s : TestWebhooks) (n : ℕ) : Prop :=
  ∀ e ∈ s.registrations.entries, e.2.session ≠ n

instance (s : TestWebhooks) (n : ℕ) : Decidable (s.TimerOver n) :=
  inferInstanceAs (Decidable (∀ c ∈ s.sessions[n]?, _))

instance (s : TestWebhooks) (n : ℕ) : Decidable (s.NothingRegistered n) :=
  inferInstanceAs (Decidable (∀ e ∈ _, _))

/-- What a call awaited makes it return false or throw at once. -/
def givesUp (s : TestWebhooks) (c : Session) (w : TestWebhook) (outcome : TurnOutcome) : Bool :=
  c.stage = .get && (outcome ≠ .succeeds || w.node ∈ c.options.runData || s.pathTaken c.options w)

/-- The turn stores a registration. -/
def stores (c : Session) (outcome : TurnOutcome) : Bool :=
  (c.stage = .register || c.stage = .registerAgain) && outcome ≠ .failsBefore

def ProceedsWell (s : TestWebhooks) (n : ℕ) (outcome : TurnOutcome) (c : Session)
    (w : TestWebhook) : Prop :=
  (s.givesUp c w outcome = true → s.TimerOver n ∧ s.NothingRegistered n) ∧
  (stores c outcome = true →
    s.RegistersAlone n c.options.workflowId (w.cacheable c.options.userId).toKey)

/-- The turn ends the deactivation. -/
def endsNow (s : TestWebhooks) (d : Deactivation) (fails : Bool) : Bool :=
  fails || match d.stage with
    | .getAll => s.webhooksOf d.workflowId = []
    | .delete webhooks => webhooks = []
    | .deregister webhooks => webhooks.length ≤ 1

/-- A failed call throws at the end of its deactivation. -/
def DeactivatesWell (s : TestWebhooks) (fails : Bool) (d : Deactivation) : Prop :=
  match d.cause with
  | .failed n => s.endsNow d fails = true →
    s.TimerOver n ∧ (fails = true → s.NothingRegistered n)
  | _ => True

/-- A registration is stored under a key that is its workflow's alone; a timer fires while
the workflow has no registration of another call; a call returns false or throws when its
timer is over, and with nothing registered unless all was just deactivated. -/
def Undisturbed (s : TestWebhooks) : TestWebhooksInput → Prop
  | .proceed n outcome => ∀ c ∈ s.sessions[n]?, ∀ w ∈ c.webhooks.head?, s.ProceedsWell n outcome c w
  | .fire n => ∀ c ∈ s.sessions[n]?, ∀ e ∈ s.registrations.entries,
    e.2.workflowId = c.options.workflowId → e.2.session = n
  | .deactivate i fails => ∀ d ∈ s.deactivations[i]?, s.DeactivatesWell fails d
  | _ => True

instance (s : TestWebhooks) (input : TestWebhooksInput) : Decidable (s.Undisturbed input) := by
  cases input with
  | proceed n outcome =>
    have : ∀ c w, Decidable (s.ProceedsWell n outcome c w) := fun c w =>
      inferInstanceAs (Decidable (_ ∧ _))
    exact inferInstanceAs (Decidable (∀ c ∈ s.sessions[n]?, ∀ w ∈ c.webhooks.head?, _))
  | fire n => exact inferInstanceAs (Decidable (∀ c ∈ s.sessions[n]?, ∀ e ∈ _, _ → _))
  | deactivate i fails =>
    have : ∀ d, Decidable (s.DeactivatesWell fails d) := by
      intro d
      unfold DeactivatesWell
      split <;> infer_instance
    exact inferInstanceAs (Decidable (∀ d ∈ s.deactivations[i]?, _))
  | _ => exact inferInstanceAs (Decidable True)

/-! ### The invariant -/

section Invariant

variable {s t : TestWebhooks} {n : ℕ} {c : Session} {d : Deactivation}

/-- What a timer started for a workflow meets the registrations of its own call only. -/
def TimerOnly (s : TestWebhooks) (workflowId : String) (cause : EndCause) : Prop :=
  ∀ n, cause = .timer n → ∀ key r, s.registrations.get? key = some r →
    r.workflowId = workflowId → r.session = n

structure Sound (s : TestWebhooks) (d : Deactivation) : Prop where
  timerOnly : s.TimerOnly d.workflowId d.cause
  /-- What is still to be deregistered is of the workflow. -/
  remaining : ∀ w ∈ d.stage.remaining, ∀ r, s.registrations.get? w.toKey = some r →
    r.workflowId = d.workflowId
  /-- After a failed registration, all that the call registered is still to be
  deregistered, and the call registers nothing more. -/
  failed : ∀ n, d.cause = .failed n →
    (∃ c, s.sessions[n]? = some c ∧ c.options.workflowId = d.workflowId ∧ c.working = false) ∧
    ∀ key r, s.registrations.get? key = some r → r.session = n →
      d.stage = .getAll ∨ ∃ w ∈ d.stage.remaining, w.toKey = key

structure Inv (s : TestWebhooks) : Prop where
  keyed : ∀ key r, s.registrations.get? key = some r → r.webhook.toKey = key
  owned : ∀ key r, s.registrations.get? key = some r →
    ∃ c, s.sessions[r.session]? = some c ∧ c.options.workflowId = r.workflowId
  leaves : s.LeavesNothing
  cancels : ∀ c ∈ s.cancels, s.TimerOnly c.workflowId c.cause
  deactivations : ∀ d ∈ s.deactivations, s.Sound d

theorem Inv.initial : ({} : TestWebhooks).Inv where
  keyed := fun _ _ h => by cases h
  owned := fun _ _ h => by cases h
  leaves := fun _ _ h => by cases h
  cancels := List.forall_mem_nil _
  deactivations := List.forall_mem_nil _

/-- The sessions go on: none gets other options, and none that is not at work starts again. -/
def SessionsKept (s t : TestWebhooks) : Prop :=
  ∀ (n : ℕ) (c : Session), s.sessions[n]? = some c → ∃ c', t.sessions[n]? = some c' ∧
    c'.options = c.options ∧ (c.working = false → c'.working = false)

theorem Sound.transfer (h : s.Sound d) (hreg : t.registrations = s.registrations)
    (hsessions : s.SessionsKept t) : t.Sound d where
  timerOnly := by
    rw [TimerOnly, hreg]
    exact h.timerOnly
  remaining := by
    rw [hreg]
    exact h.remaining
  failed := by
    intro n hcause
    obtain ⟨⟨c, hc, hworkflow, hworking⟩, hall⟩ := h.failed n hcause
    obtain ⟨c', hc', hoptions, hkept⟩ := hsessions n c hc
    refine ⟨⟨c', hc', by rw [hoptions, hworkflow], hkept hworking⟩, ?_⟩
    rw [hreg]
    exact hall

theorem Inv.transfer (h : s.Inv) (hreg : t.registrations = s.registrations)
    (hsessions : s.SessionsKept t) (hleaves : t.LeavesNothing)
    (hcancels : ∀ c ∈ t.cancels, c ∈ s.cancels ∨ t.TimerOnly c.workflowId c.cause)
    (hdeactivations : ∀ d ∈ t.deactivations, d ∈ s.deactivations ∨ t.Sound d) : t.Inv where
  keyed := by
    rw [hreg]
    exact h.keyed
  owned := by
    rw [hreg]
    intro key r hr
    obtain ⟨c, hc, hworkflow⟩ := h.owned key r hr
    obtain ⟨c', hc', hoptions, -⟩ := hsessions _ c hc
    exact ⟨c', hc', by rw [hoptions, hworkflow]⟩
  leaves := hleaves
  cancels := by
    intro c hc
    rcases hcancels c hc with hold | hnew
    · rw [TimerOnly, hreg]
      exact h.cancels c hold
    · exact hnew
  deactivations := by
    intro d hd
    rcases hdeactivations d hd with hold | hnew
    · exact (h.deactivations d hold).transfer hreg hsessions
    · exact hnew

theorem SessionsKept.refl (s : TestWebhooks) : s.SessionsKept s :=
  fun _ c hc => ⟨c, hc, rfl, id⟩

theorem Inv.modifySession {f : Session → Session} (h : s.Inv)
    (hoptions : ∀ c, (f c).options = c.options)
    (hworking : ∀ c, s.sessions[n]? = some c → c.working = false → (f c).working = false)
    (hleaves : ∀ c, s.sessions[n]? = some c → (f c).gaveUp = true → (f c).timer = false ∧
      ∀ key r, s.registrations.get? key = some r → r.session ≠ n) :
    (s.modifySession n f).Inv := by
  refine h.transfer rfl ?_ ?_ (fun _ => Or.inl) fun _ => Or.inl
  · intro m c hc
    rw [TestWebhooks.modifySession, List.getElem?_modify, hc]
    by_cases hm : n = m
    · subst hm
      exact ⟨f c, by simp, hoptions c, hworking c hc⟩
    · exact ⟨c, by simp [hm], rfl, id⟩
  · intro m c hc hgave
    rw [TestWebhooks.modifySession, List.getElem?_modify, Option.map_eq_map,
      Option.map_eq_some_iff] at hc
    obtain ⟨c₀, hc₀, rfl⟩ := hc
    by_cases hm : n = m
    · subst hm
      rw [if_pos rfl] at hgave ⊢
      exact hleaves c₀ hc₀ hgave
    · rw [if_neg hm] at hgave ⊢
      exact h.leaves m c₀ hc₀ hgave

theorem eq_of_not_otherTimer {workflowId workflowId' : String} {cause : EndCause} {m : ℕ}
    (h : ¬ OtherTimer workflowId n workflowId' cause) (hworkflow : workflowId' = workflowId)
    (hcause : cause = .timer m) : n = m := by
  subst hcause
  by_contra hne
  exact h ⟨hworkflow, Ne.symm hne⟩

variable {w : TestWebhook}

theorem Inv.register (h : s.Inv) (hc : s.sessions[n]? = some c)
    (hworking : c.working = true)
    (halone : s.RegistersAlone n c.options.workflowId (w.cacheable c.options.userId).toKey) :
    (s.register n c.options w).Inv := by
  have hget : ∀ key r, (s.register n c.options w).registrations.get? key = some r →
      s.registrations.get? key = some r ∨ key = (w.cacheable c.options.userId).toKey ∧
        r.session = n ∧ r.workflowId = c.options.workflowId ∧
        r.webhook = w.cacheable c.options.userId := by
    intro key r hr
    rw [TestWebhooks.register, Dict.get?_set] at hr
    split at hr
    · rename_i hkey
      cases hr
      exact Or.inr ⟨hkey, rfl, rfl, rfl⟩
    · exact Or.inl hr
  have htimer : ∀ workflowId cause, s.TimerOnly workflowId cause →
      ¬ OtherTimer c.options.workflowId n workflowId cause →
      (s.register n c.options w).TimerOnly workflowId cause := by
    intro workflowId cause honly hother m hcause key r hr hworkflow
    rcases hget key r hr with hold | ⟨-, hsession, hnew, -⟩
    · exact honly m hcause key r hold hworkflow
    · rw [hsession]
      exact eq_of_not_otherTimer hother (by rw [← hworkflow, hnew]) hcause
  refine ⟨?_, ?_, ?_, ?_, ?_⟩
  · intro key r hr
    rcases hget key r hr with hold | ⟨hkey, -, -, hwebhook⟩
    · exact h.keyed key r hold
    · rw [hwebhook, hkey]
  · intro key r hr
    rcases hget key r hr with hold | ⟨-, hsession, hworkflow, -⟩
    · exact h.owned key r hold
    · exact ⟨c, hsession ▸ hc, hworkflow.symm⟩
  · intro m d hd hgave
    obtain ⟨htimer, hnone⟩ := h.leaves m d hd hgave
    refine ⟨htimer, fun key r hr => ?_⟩
    rcases hget key r hr with hold | ⟨-, hsession, -, -⟩
    · exact hnone key r hold
    · rw [hsession]
      rintro rfl
      have hd' : s.sessions[n]? = some d := hd
      rw [hc, Option.some.injEq] at hd'
      rw [← hd', Session.gaveUp_of_working hworking] at hgave
      cases hgave
  · exact fun e he => htimer _ _ (h.cancels e he) (halone.cancels e he)
  · intro d hd
    obtain ⟨honly, hremaining, hfailed⟩ := h.deactivations d hd
    refine ⟨htimer _ _ honly (halone.deactivations d hd), ?_, ?_⟩
    · intro v hv r hr
      rcases hget _ r hr with hold | ⟨hkey, -, hworkflow, -⟩
      · exact hremaining v hv r hold
      · rw [hworkflow, halone.deregistered d hd v hv hkey]
    · intro m hcause
      obtain ⟨⟨e, he, hworkflow, hidle⟩, hall⟩ := hfailed m hcause
      refine ⟨⟨e, he, hworkflow, hidle⟩, fun key r hr hsession => ?_⟩
      rcases hget key r hr with hold | ⟨-, hn, -, -⟩
      · exact hall key r hold hsession
      · -- the failed call is not at work, the one that registers is
        rw [← hsession, hn, hc, Option.some.injEq] at he
        rw [← he, hworking] at hidle
        cases hidle

theorem Inv.erase (h : s.Inv) (key : String) :
    ({ s with registrations := s.registrations.erase key } : TestWebhooks).Inv := by
  have hget : ∀ k r, (s.registrations.erase key).get? k = some r → s.registrations.get? k = some r :=
    fun k r hr => Dict.get?_of_get?_erase hr
  refine ⟨fun k r hr => h.keyed k r (hget k r hr), fun k r hr => h.owned k r (hget k r hr), ?_, ?_,
    ?_⟩
  · intro m d hd hgave
    obtain ⟨htimer, hnone⟩ := h.leaves m d hd hgave
    exact ⟨htimer, fun k r hr => hnone k r (hget k r hr)⟩
  · exact fun e he m hcause k r hr => h.cancels e he m hcause k r (hget k r hr)
  · intro d hd
    obtain ⟨honly, hremaining, hfailed⟩ := h.deactivations d hd
    refine ⟨fun m hcause k r hr => honly m hcause k r (hget k r hr),
      fun v hv r hr => hremaining v hv r (hget _ r hr), fun m hcause => ?_⟩
    obtain ⟨hidle, hall⟩ := hfailed m hcause
    exact ⟨hidle, fun k r hr => hall k r (hget k r hr)⟩

theorem Inv.addCancel {e : Cancel} (h : s.Inv) (honly : s.TimerOnly e.workflowId e.cause) :
    (s.addCancel e).Inv := by
  refine h.transfer rfl (SessionsKept.refl s) h.leaves (fun e' he' => ?_) fun _ => Or.inl
  rcases List.mem_append.mp he' with hold | hnew
  · exact Or.inl hold
  · exact Or.inr (List.mem_singleton.mp hnew ▸ honly)

theorem Inv.addDeactivation (h : s.Inv) (hsound : s.Sound d) : (s.addDeactivation d).Inv := by
  refine h.transfer rfl (SessionsKept.refl s) h.leaves (fun _ => Or.inl) fun d' hd' => ?_
  rcases List.mem_append.mp hd' with hold | hnew
  · exact Or.inl hold
  · refine Or.inr ?_
    rw [List.mem_singleton.mp hnew]
    exact hsound.transfer rfl (SessionsKept.refl s)

theorem Inv.setStage {stage : SessionStage} (h : s.Inv) (hc : s.sessions[n]? = some c)
    (hworking : c.working = true)
    (hleaves : stage = .returned false ∨ stage = .threw → s.TimerOver n ∧ s.NothingRegistered n) :
    (s.setStage n stage).Inv := by
  refine h.modifySession (fun _ => rfl) (fun d hd hidle => ?_) fun d hd hgave => ?_
  · rw [hc, Option.some.injEq] at hd
    rw [← hd, hworking] at hidle
    cases hidle
  · obtain ⟨htimer, hnone⟩ := hleaves (by simpa [Session.gaveUp] using hgave)
    exact ⟨htimer d hd, fun key r hr => hnone (key, r) (Dict.mem_entries_iff.mpr hr)⟩

theorem Inv.stopTimer (h : s.Inv) : (s.stopTimer n).Inv :=
  h.modifySession (fun _ => rfl) (fun _ _ hidle => hidle)
    fun c hc hgave => ⟨rfl, (h.leaves n c hc hgave).2⟩

theorem Inv.clearTimeout (h : s.Inv) (key : String) : (s.clearTimeout key).Inv := by
  rw [TestWebhooks.clearTimeout]
  split
  · exact h.stopTimer
  · exact h

theorem registrations_clearTimeout (key : String) :
    (s.clearTimeout key).registrations = s.registrations := by
  rw [TestWebhooks.clearTimeout]
  split <;> rfl

theorem Inv.setTimeouts (h : s.Inv) (timeouts : Dict String ℕ) :
    ({ s with timeouts } : TestWebhooks).Inv :=
  h.transfer rfl (SessionsKept.refl s) h.leaves (fun _ => Or.inl) fun _ => Or.inl

/-! ### Every turn -/

theorem Inv.fail (h : s.Inv) (hc : s.sessions[n]? = some c) (hworking : c.working = true) :
    (s.fail n c.options).Inv := by
  refine (h.setStage hc hworking fun hstage => by simp at hstage).addDeactivation ?_
  refine ⟨fun m hcause => (by cases hcause), List.forall_mem_nil _, fun m hcause => ?_⟩
  cases hcause
  refine ⟨⟨{ c with stage := .deactivating }, ?_, rfl, rfl⟩, fun _ _ _ _ => Or.inl rfl⟩
  rw [TestWebhooks.setStage, TestWebhooks.modifySession, List.getElem?_modify, hc]
  simp

theorem Inv.proceed {rest : List TestWebhook} {outcome : TurnOutcome}
    (h : s.Inv) (hc : s.sessions[n]? = some c) (hworking : c.working = true)
    (hwell : s.ProceedsWell n outcome c w) : (s.proceed n c w rest outcome).Inv := by
  obtain ⟨hgives, hstores⟩ := hwell
  have hthrow : ∀ stored : Bool, (s.givesUp c w outcome = true ∨ c.stage ≠ .get) →
      (stored = true → stores c outcome = true ∨ c.stage = .get ∨ c.stage = .create) →
      (s.throwFrom n c w stored).Inv := by
    intro stored hgives' hstores'
    rw [throwFrom]
    split
    · rename_i hstage
      exact h.setStage hc hworking fun _ => hgives (hgives'.resolve_right fun hne => hne hstage)
    · exact h.fail hc hworking
    · rename_i hget hcreate
      split
      · rename_i hstored
        have hstoring := (hstores' hstored).resolve_right fun heq => heq.elim hget hcreate
        exact (h.register hc hworking (hstores hstoring)).fail hc hworking
      · exact h.fail hc hworking
  cases outcome with
  | succeeds =>
    rw [TestWebhooks.proceed, succeed]
    split
    · rename_i hstage
      split
      · rename_i hnode
        exact h.setStage hc hworking fun _ => hgives (by simp [givesUp, hstage, hnode])
      · split
        · rename_i htaken
          exact h.setStage hc hworking fun _ => hgives (by simp [givesUp, hstage, htaken])
        · exact h.setStage hc hworking fun hstage => by simp at hstage
    · rename_i hstage
      have hreg := h.register hc hworking (hstores (by simp [stores, hstage]))
      exact hreg.setStage hc hworking fun hstage => by simp at hstage
    · exact h.setStage hc hworking fun hstage => by simp at hstage
    · rename_i hget hregister hcreate
      have hagain := Session.registerAgain_of_working hworking hget hregister hcreate
      have hreg := h.register hc hworking (hstores (by simp [stores, hagain]))
      refine (hreg.setTimeouts _).modifySession (fun _ => rfl) (fun d hd hidle => ?_)
        fun d hd hgave => ?_
      · have hd' : s.sessions[n]? = some d := hd
        rw [hc, Option.some.injEq] at hd'
        rw [← hd', hworking] at hidle
        cases hidle
      · exfalso
        by_cases hrest : rest = [] <;> simp [Session.gaveUp, hrest] at hgave
  | failsBefore =>
    refine hthrow false ?_ fun hstored => by cases hstored
    by_cases hget : c.stage = .get
    · exact Or.inl (by simp [givesUp, hget])
    · exact Or.inr hget
  | failsAfter =>
    refine hthrow true ?_ fun _ => ?_
    · by_cases hget : c.stage = .get
      · exact Or.inl (by simp [givesUp, hget])
      · exact Or.inr hget
    · by_cases hget : c.stage = .get
      · exact Or.inr (Or.inl hget)
      · by_cases hcreate : c.stage = .create
        · exact Or.inr (Or.inr hcreate)
        · by_cases hregister : c.stage = .register
          · exact Or.inl (by simp [stores, hregister])
          · have hagain := Session.registerAgain_of_working hworking hget hregister hcreate
            exact Or.inl (by simp [stores, hagain])

theorem Inv.finish {succeeded : Bool} (h : s.Inv)
    (hfailed : ∀ n, d.cause = .failed n → s.TimerOver n ∧ s.NothingRegistered n ∧
      ∀ c ∈ s.sessions[n]?, c.working = false) : (s.finish d succeeded).Inv := by
  rw [TestWebhooks.finish]
  split
  · rename_i n hcause
    obtain ⟨htimer, hnone, hidle⟩ := hfailed n hcause
    refine (h.setTimeouts _).modifySession (fun _ => rfl) (fun _ _ _ => rfl) fun c hc _ => ?_
    exact ⟨htimer c hc, fun key r hr => hnone (key, r) (Dict.mem_entries_iff.mpr hr)⟩
  · exact h

theorem mem_webhooksOf {workflowId : String} :
    w ∈ s.webhooksOf workflowId ↔
      ∃ key r, s.registrations.get? key = some r ∧ r.workflowId = workflowId ∧ r.webhook = w := by
  rw [webhooksOf, List.mem_map]
  constructor
  · rintro ⟨r, hr, hw⟩
    obtain ⟨hr, hworkflow⟩ := List.mem_filter.mp hr
    obtain ⟨key, hkey⟩ := Dict.mem_values_iff.mp hr
    exact ⟨key, r, hkey, of_decide_eq_true hworkflow, hw⟩
  · rintro ⟨key, r, hkey, hworkflow, hw⟩
    exact ⟨r, List.mem_filter.mpr ⟨Dict.mem_values_of_get? hkey, decide_eq_true hworkflow⟩, hw⟩

theorem Inv.goOn {stage : DeactivationStage} (h : s.Inv) (hstage : stage ≠ .getAll)
    (hsound : s.Sound { d with stage })
    (hover : ∀ n, d.cause = .failed n → stage.remaining = [] → s.TimerOver n) :
    (s.goOn d stage).Inv := by
  rw [TestWebhooks.goOn]
  split
  · rename_i hnone
    refine h.finish fun n hcause => ?_
    obtain ⟨⟨c, hc, -, hidle⟩, hall⟩ := hsound.failed n hcause
    refine ⟨hover n hcause hnone, fun e he hsession => ?_, fun c' hc' => ?_⟩
    · -- what the call registered would still be in the list
      rcases hall e.1 e.2 (Dict.mem_entries_iff.mp he) hsession with hget | ⟨w, hw, -⟩
      · exact hstage hget
      · rw [show stage.remaining = [] from hnone] at hw
        cases hw
    · rw [hc, Option.mem_some_iff] at hc'
      exact hc' ▸ hidle
  · exact h.addDeactivation hsound

theorem Inv.deactivate {fails : Bool} (h : s.Inv) (hsound : s.Sound d)
    (hwell : s.DeactivatesWell fails d) : (s.deactivate d fails).Inv := by
  have hover : ∀ n, d.cause = .failed n → s.endsNow d fails = true →
      s.TimerOver n ∧ (fails = true → s.NothingRegistered n) := by
    intro n hcause
    rw [DeactivatesWell, hcause] at hwell
    exact hwell
  cases fails with
  | true =>
    rw [TestWebhooks.deactivate]
    refine h.finish fun n hcause => ?_
    obtain ⟨htimer, hnone⟩ := hover n hcause rfl
    obtain ⟨⟨c, hc, -, hidle⟩, -⟩ := hsound.failed n hcause
    refine ⟨htimer, hnone rfl, fun c' hc' => ?_⟩
    rw [hc, Option.mem_some_iff] at hc'
    exact hc' ▸ hidle
  | false =>
    have hends : ∀ n, d.cause = .failed n → s.endsNow d false = true → s.TimerOver n :=
      fun n hcause hend => (hover n hcause hend).1
    obtain ⟨honly, hremaining, hfailed⟩ := hsound
    rw [TestWebhooks.deactivate]
    split
    · rename_i hstage
      refine h.goOn (fun heq => by cases heq) ⟨honly, ?_, fun n hcause => ?_⟩ fun n hcause hnone =>
        hends n hcause ?_
      · intro w hw r hr
        obtain ⟨key, r', hr', hworkflow, rfl⟩ := mem_webhooksOf.mp hw
        rw [h.keyed key r' hr', hr', Option.some.injEq] at hr
        rw [← hr, hworkflow]
      · obtain ⟨⟨c, hc, hworkflow, hidle⟩, -⟩ := hfailed n hcause
        refine ⟨⟨c, hc, hworkflow, hidle⟩, fun key r hr hsession => Or.inr ?_⟩
        -- a registration of the call is of its workflow
        obtain ⟨c', hc', howner⟩ := h.owned key r hr
        rw [hsession, hc, Option.some.injEq] at hc'
        refine ⟨r.webhook, mem_webhooksOf.mpr ⟨key, r, hr, ?_, rfl⟩, h.keyed key r hr⟩
        rw [← howner, ← hc', hworkflow]
      · simp only [endsNow, hstage, Bool.false_or]
        exact decide_eq_true hnone
    · rename_i webhooks hstage
      rw [hstage] at hremaining hfailed
      refine h.goOn (fun heq => by cases heq) ⟨honly, hremaining, fun n hcause => ?_⟩
        fun n hcause hnone => hends n hcause ?_
      · obtain ⟨hc, hall⟩ := hfailed n hcause
        exact ⟨hc, fun key r hr hsession => (hall key r hr hsession).imp (fun heq => by cases heq) id⟩
      · simp only [endsNow, hstage, Bool.false_or]
        exact decide_eq_true hnone
    · rename_i hstage
      rw [hstage] at hfailed
      refine h.finish fun n hcause => ?_
      obtain ⟨⟨c, hc, -, hidle⟩, hall⟩ := hfailed n hcause
      refine ⟨hends n hcause (by simp [endsNow, hstage]), fun e he hsession => ?_, fun c' hc' => ?_⟩
      · rcases hall e.1 e.2 (Dict.mem_entries_iff.mp he) hsession with hget | ⟨w, hw, -⟩
        · cases hget
        · cases hw
      · rw [hc, Option.mem_some_iff] at hc'
        exact hc' ▸ hidle
    · rename_i w rest hstage
      rw [hstage] at hremaining hfailed
      have hget : ∀ k r, (s.registrations.erase w.toKey).get? k = some r →
          k ≠ w.toKey ∧ s.registrations.get? k = some r := by
        intro k r hr
        rw [Dict.get?_erase] at hr
        split at hr
        · cases hr
        · rename_i hk
          exact ⟨hk, hr⟩
      refine (h.erase w.toKey).goOn (fun heq => by cases heq)
        ⟨fun n hcause k r hr => honly n hcause k r (hget k r hr).2, fun v hv r hr =>
          hremaining v (List.mem_cons_of_mem w hv) r (hget _ r hr).2, fun n hcause => ?_⟩
        fun n hcause hnone => hends n hcause ?_
      · obtain ⟨hc, hall⟩ := hfailed n hcause
        refine ⟨hc, fun k r hr hsession => Or.inr ?_⟩
        obtain ⟨hk, hold⟩ := hget k r hr
        rcases hall k r hold hsession with heq | ⟨v, hv, hvk⟩
        · cases heq
        · rcases List.mem_cons.mp hv with rfl | hv
          · exact absurd hvk.symm hk
          · exact ⟨v, hv, hvk⟩
      · have hrest : rest = [] := hnone
        simp [endsNow, hstage, hrest]

theorem Inv.cancelTurn {e : Cancel} (h : s.Inv) (honly : s.TimerOnly e.workflowId e.cause) :
    (s.cancelTurn e).Inv := by
  rw [TestWebhooks.cancelTurn]
  split
  · exact h.addCancel honly
  · exact h
  · rename_i key keys hkeys
    split
    · exact h.addCancel honly
    · rename_i r hr
      split
      · exact h.addCancel honly
      · have hclear := h.clearTimeout key
        have honly' : (s.clearTimeout key).TimerOnly e.workflowId e.cause := by
          rw [TimerOnly, registrations_clearTimeout]
          exact honly
        simp only
        split
        · exact hclear.addCancel honly'
        · refine (hclear.addDeactivation ⟨honly', List.forall_mem_nil _, ?_⟩).addCancel honly'
          intro n hcause
          simp only [Cancel.cause] at hcause
          split at hcause <;> cases hcause

/-- Step lemma: every undisturbed turn keeps the invariant. -/
theorem Inv.step {input : TestWebhooksInput} (h : s.Inv) (hwell : s.Undisturbed input)
    (hstep : s.step input = .ok t) : t.Inv := by
  cases input with
  | needsWebhook options =>
    cases hstep
    refine h.transfer rfl (fun m c hc => ⟨c, ?_, rfl, id⟩) (fun m c hc hgave => ?_)
      (fun _ => Or.inl) fun _ => Or.inl
    · exact (List.getElem?_append_left (List.getElem?_eq_some_iff.mp hc).1).trans hc
    · rw [List.getElem?_append] at hc
      split at hc
      · exact h.leaves m c hc hgave
      · rename_i hm
        -- a call that gave up at once has made nothing
        have hnew : c = Session.begin options := by
          obtain ⟨hlt, heq⟩ := List.getElem?_eq_some_iff.mp hc
          rw [List.length_singleton] at hlt
          simp only [show m - s.sessions.length = 0 by omega, List.getElem_cons_zero] at heq
          exact heq.symm
        refine ⟨?_, fun key r hr => ?_⟩
        · rw [hnew] at hgave ⊢
          exact Session.timer_begin fun hstage => by simp [Session.gaveUp, hstage] at hgave
        · rintro rfl
          obtain ⟨d, hd, -⟩ := h.owned key r hr
          exact hm (List.getElem?_eq_some_iff.mp hd).1
  | proceed n outcome =>
    rw [TestWebhooks.step] at hstep
    rcases hc : s.sessions[n]? with _ | c
    · rw [hc] at hstep
      cases hstep
    · rw [hc] at hstep
      simp only at hstep
      rcases hw : c.webhooks with _ | ⟨w, rest⟩
      · rw [hw] at hstep
        cases hstep
      · rw [hw] at hstep
        simp only at hstep
        split at hstep
        · rename_i hworking
          cases hstep
          exact h.proceed hc hworking (hwell c hc w (by rw [hw]; rfl))
        · cases hstep
  | received key =>
    rw [TestWebhooks.step] at hstep
    split at hstep
    · cases hstep
    · cases hstep
      exact h.transfer rfl (SessionsKept.refl s) h.leaves (fun _ => Or.inl) fun _ => Or.inl
  | executed i started =>
    rw [TestWebhooks.step] at hstep
    split at hstep
    · cases hstep
    · rename_i e he
      cases hstep
      have hover : ({ s with executions := s.executions.eraseIdx i } : TestWebhooks).Inv :=
        h.transfer rfl (SessionsKept.refl s) h.leaves (fun _ => Or.inl) fun _ => Or.inl
      cases started with
      | true =>
        exact (hover.clearTimeout e.key).addDeactivation
          ⟨fun _ hcause => (by cases hcause), List.forall_mem_nil _, fun _ hcause => (by cases hcause)⟩
      | false => exact hover
  | cancelWebhook workflowId =>
    cases hstep
    exact h.addCancel fun _ hcause => by cases hcause
  | fire n =>
    rw [TestWebhooks.step] at hstep
    rcases hc : s.sessions[n]? with _ | c
    · rw [hc] at hstep
      cases hstep
    · rw [hc] at hstep
      simp only at hstep
      split at hstep
      · cases hstep
        refine h.stopTimer.addCancel fun m hcause key r hr hworkflow => ?_
        cases hcause
        exact hwell c hc (key, r) (Dict.mem_entries_iff.mpr hr) hworkflow
      · cases hstep
  | cancel i =>
    rw [TestWebhooks.step] at hstep
    split at hstep
    · cases hstep
    · rename_i c hc
      cases hstep
      have hothers : ({ s with cancels := s.cancels.eraseIdx i } : TestWebhooks).Inv :=
        h.transfer rfl (SessionsKept.refl s) h.leaves
          (fun _ he => Or.inl (List.mem_of_mem_eraseIdx he)) fun _ => Or.inl
      exact hothers.cancelTurn (h.cancels c (List.mem_of_getElem? hc))
  | deactivate i fails =>
    rw [TestWebhooks.step] at hstep
    rcases hd : s.deactivations[i]? with _ | d
    · rw [hd] at hstep
      cases hstep
    · rw [hd] at hstep
      cases hstep
      have hothers : ({ s with deactivations := s.deactivations.eraseIdx i } : TestWebhooks).Inv :=
        h.transfer rfl (SessionsKept.refl s) h.leaves (fun _ => Or.inl)
          fun _ he => Or.inl (List.mem_of_mem_eraseIdx he)
      refine hothers.deactivate ?_ (hwell d hd)
      exact (h.deactivations d (List.mem_of_getElem? hd)).transfer rfl (SessionsKept.refl s)

end Invariant

/-! ### Registrations go for reasons of their own -/

section Removals

variable {s t : TestWebhooks}

theorem registrations_finish (d : Deactivation) (succeeded : Bool) :
    (s.finish d succeeded).registrations = s.registrations := by
  rw [finish]
  split <;> rfl

theorem registrations_goOn (d : Deactivation) (stage : DeactivationStage) :
    (s.goOn d stage).registrations = s.registrations := by
  rw [goOn]
  split
  · exact registrations_finish d true
  · rfl

theorem registrations_cancelTurn (e : Cancel) :
    (s.cancelTurn e).registrations = s.registrations := by
  rw [cancelTurn]
  split
  · rfl
  · rfl
  · split
    · rfl
    · split
      · rfl
      · simp only
        split <;> exact registrations_clearTimeout _

variable {r : TestWebhookRegistration}

theorem get?_deactivate (s : TestWebhooks) (d : Deactivation) (fails : Bool) {key : String} (hr : s.registrations.get? key = some r) :
    (s.deactivate d fails).registrations.get? key = some r ∨
      fails = false ∧ ∃ w ∈ d.stage.remaining, w.toKey = key := by
  cases fails with
  | true =>
    rw [deactivate, registrations_finish]
    exact Or.inl hr
  | false =>
    rw [deactivate]
    split
    · rw [registrations_goOn]
      exact Or.inl hr
    · rw [registrations_goOn]
      exact Or.inl hr
    · rw [registrations_finish]
      exact Or.inl hr
    · rename_i w rest hstage
      rw [registrations_goOn, Dict.get?_erase]
      split
      · rename_i hkey
        refine Or.inr ⟨rfl, w, ?_, hkey.symm⟩
        rw [hstage]
        exact List.mem_cons_self
      · exact Or.inl hr

theorem get?_proceed {n : ℕ} {c : Session} {w : TestWebhook} {rest : List TestWebhook}
    {outcome : TurnOutcome} {key : String}
    (hworking : c.working = true) (hwell : s.ProceedsWell n outcome c w)
    (hr : s.registrations.get? key = some r) :
    ∃ r', (s.proceed n c w rest outcome).registrations.get? key = some r' ∧
      r'.workflowId = r.workflowId := by
  have hkept : s.registrations.get? key = some r ∧ r.workflowId = r.workflowId := ⟨hr, rfl⟩
  have hstored : stores c outcome = true →
      ∃ r', (s.register n c.options w).registrations.get? key = some r' ∧
        r'.workflowId = r.workflowId := by
    intro hstores
    rw [register, Dict.get?_set]
    split
    · rename_i hkey
      refine ⟨_, rfl, ?_⟩
      exact ((hwell.2 hstores).registered r (hkey ▸ hr)).symm
    · exact ⟨r, hkept⟩
  cases outcome with
  | succeeds =>
    rw [proceed, succeed]
    split
    · split
      · exact ⟨r, hkept⟩
      · split
        · exact ⟨r, hkept⟩
        · exact ⟨r, hkept⟩
    · rename_i hstage
      exact hstored (by simp [stores, hstage])
    · exact ⟨r, hkept⟩
    · rename_i hget hregister hcreate
      have hagain := Session.registerAgain_of_working hworking hget hregister hcreate
      exact hstored (by simp [stores, hagain])
  | failsBefore =>
    rw [proceed, throwFrom]
    split
    · exact ⟨r, hkept⟩
    · exact ⟨r, hkept⟩
    · exact ⟨r, hkept⟩
  | failsAfter =>
    rw [proceed, throwFrom]
    split
    · exact ⟨r, hkept⟩
    · exact ⟨r, hkept⟩
    · rename_i hget hcreate
      refine hstored ?_
      by_cases hregister : c.stage = .register
      · simp [stores, hregister]
      · have hagain := Session.registerAgain_of_working hworking hget hregister hcreate
        simp [stores, hagain]

theorem Inv.removed {input : TestWebhooksInput} (h : s.Inv) (hwell : s.Undisturbed input)
    (hstep : s.step input = .ok t) : s.RemovedForOwnReason input t := by
  intro key r hr _
  have hsame : t.registrations = s.registrations →
      ∃ r', t.registrations.get? key = some r' ∧ r'.workflowId = r.workflowId := by
    intro heq
    exact ⟨r, by rw [heq]; exact hr, rfl⟩
  cases input with
  | needsWebhook options =>
    cases hstep
    exact Or.inl (hsame rfl)
  | proceed n outcome =>
    rw [TestWebhooks.step] at hstep
    rcases hc : s.sessions[n]? with _ | c
    · rw [hc] at hstep
      cases hstep
    · rw [hc] at hstep
      simp only at hstep
      rcases hw : c.webhooks with _ | ⟨w, rest⟩
      · rw [hw] at hstep
        cases hstep
      · rw [hw] at hstep
        simp only at hstep
        split at hstep
        · rename_i hworking
          cases hstep
          exact Or.inl (get?_proceed hworking (hwell c hc w (by rw [hw]; rfl)) hr)
        · cases hstep
  | received key' =>
    rw [TestWebhooks.step] at hstep
    split at hstep <;> cases hstep
    exact Or.inl (hsame rfl)
  | executed i started =>
    rw [TestWebhooks.step] at hstep
    split at hstep <;> cases hstep
    cases started with
    | true => exact Or.inl (hsame (registrations_clearTimeout _))
    | false => exact Or.inl (hsame rfl)
  | cancelWebhook workflowId =>
    cases hstep
    exact Or.inl (hsame rfl)
  | fire n =>
    rw [TestWebhooks.step] at hstep
    split at hstep
    · cases hstep
    · split at hstep <;> cases hstep
      exact Or.inl (hsame rfl)
  | cancel i =>
    rw [TestWebhooks.step] at hstep
    split at hstep <;> cases hstep
    exact Or.inl (hsame (registrations_cancelTurn _))
  | deactivate i fails =>
    rw [TestWebhooks.step] at hstep
    rcases hd : s.deactivations[i]? with _ | d
    · rw [hd] at hstep
      cases hstep
    · rw [hd] at hstep
      cases hstep
      rcases get?_deactivate
          { s with deactivations := s.deactivations.eraseIdx i } d fails hr with hkept | ⟨rfl, w, hw, rfl⟩
      · exact Or.inl ⟨r, hkept, rfl⟩
      · have hsound := h.deactivations d (List.mem_of_getElem? hd)
        have hworkflow := hsound.remaining w hw r hr
        exact Or.inr ⟨i, d, rfl, hd, hworkflow.symm, fun n hcause =>
          hsound.timerOnly n hcause _ r hr hworkflow⟩

end Removals

/-- **A test webhook session ends only for its own reasons**, and a call that did not return
true leaves nothing, along every undisturbed run. -/
theorem endsForOwnReasons (inputs : List TestWebhooksInput)
    (h : Along step (fun s input _ => s.Undisturbed input) {} inputs) :
    Along step (fun s input s' => s.RemovedForOwnReason input s' ∧ s'.LeavesNothing) {} inputs := by
  refine Along.of_step (I := Inv) ?_ Inv.initial h
  intro s input s' hs hstep hwell
  have hs' := hs.step hwell hstep
  exact ⟨⟨hs.removed hwell hstep, hs'.leaves⟩, hs'⟩

def listenToOrders : NeedsWebhookOptions :=
  let webhook : TestWebhook :=
    { node := "Webhook", nodeType := "n8n-nodes-base.webhook", httpMethod := .POST, path := "orders" }
  { userId := "u1", workflowId := "w1", webhooks := [webhook] }

/-- The webhook is called once it is registered, and deactivated. -/
theorem endsForOwnReasons_received :
    Along step (fun s input s' => s.RemovedForOwnReason input s' ∧ s'.LeavesNothing) {}
      [.needsWebhook listenToOrders, .proceed 0 .succeeds, .proceed 0 .succeeds,
        .proceed 0 .succeeds, .proceed 0 .succeeds, .received "POST|orders", .executed 0 true,
        .deactivate 0 false, .deactivate 0 false, .deactivate 0 false] :=
  endsForOwnReasons _ (by decide)

/-- The workflow is tested again while it listens: the timer of the first call ends the
session of the second. -/
theorem not_endsForOwnReasons_staleTimer : ¬ ∀ inputs : List TestWebhooksInput,
    Along step (fun s input s' => s.RemovedForOwnReason input s' ∧ s'.LeavesNothing) {} inputs := by
  intro h
  have hrun : Along step (fun s _ s' => ∀ e ∈ s.registrations.entries,
      s.sessions[e.2.session]?.any (·.mayReturnTrue) = true →
      (∃ r' ∈ s'.registrations.get? e.1, r'.workflowId = e.2.workflowId) ∨
        ∃ d ∈ s.deactivations, d.OwnReason e.2) {}
      [.needsWebhook listenToOrders, .proceed 0 .succeeds, .proceed 0 .succeeds,
        .proceed 0 .succeeds, .proceed 0 .succeeds, .needsWebhook listenToOrders,
        .proceed 1 .succeeds, .proceed 1 .succeeds, .proceed 1 .succeeds, .proceed 1 .succeeds,
        .fire 0, .cancel 0, .cancel 0, .deactivate 0 false, .deactivate 0 false,
        .deactivate 0 false] := by
    refine (h _).mono fun s input s' hs e he hmay => ?_
    refine (hs.1 e.1 e.2 (Dict.mem_entries_iff.mp he) hmay).imp id ?_
    rintro ⟨i, d, -, hd, hown⟩
    exact ⟨d, List.mem_of_getElem? hd, hown⟩
  exact absurd hrun (by decide)

end TestWebhooks

end N8n
