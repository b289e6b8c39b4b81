/-
The election of a leader among main instances.

The leader is the instance whose id is in a key that expires.  Each instance checks
the key again and again and claims it when it is vacant; it changes its role and
emits events, in response to which its services start and stop.  A check reads the
key and acts on what it has read later, and checks of one instance may overlap.

* **`servicesAgree_of_announced`** — where each step announces what it does, role and events
  agree whenever an instance has no check in progress.
-/
import N8n.Runs
import Mathlib.Logic.Function.Basic

namespace N8n

inductive InstanceRole where
  | unset
  | leader
  | follower
  deriving DecidableEq, Repr

inductive LeaderEvent where
  | stepdown
  | takeover
  deriving DecidableEq, Repr

/-- A call of `checkLeader`, or of `tryBecomeLeader` in one or in `init`, by what it waits
for: the store to answer, or its turn to go on with the answer. -/
inductive LeaderCall (α : Type) where
  | getting
  | got (leaderId : Option α)
  | renewing
  | renewed
  | claiming (fromInit : Bool)
  | claimed (fromInit keySetSuccessfully : Bool)
  deriving DecidableEq, Repr

/-- A main instance with the events it emitted and its calls in progress; `clearing`
deletions of the key are on their way to the store. -/
structure MainInstance (α : Type) where
  instanceRole : InstanceRole := .unset
  events : List LeaderEvent := []
  calls : List (LeaderCall α) := []
  initialized : Bool := false
  /-- `leaderCheckInterval` is set. -/
  interval : Bool := false
  clearing : ℕ := 0
  deriving DecidableEq

namespace MainInstance

variable {α : Type} (m : MainInstance α)

def isLeader : Bool := m.instanceRole = .leader

def markAsLeader : MainInstance α := { m with instanceRole := .leader }

def markAsFollower : MainInstance α := { m with instanceRole := .follower }

def emit (event : LeaderEvent) : MainInstance α :=
  { m with events := m.events ++ [event] }

def setCall (i : ℕ) (call : LeaderCall α) : MainInstance α :=
  { m with calls := m.calls.set i call }

def endCall (i : ℕ) : MainInstance α := { m with calls := m.calls.eraseIdx i }

def checked [DecidableEq α] (m : MainInstance α) (hostId : α) (i : ℕ) :
    Option α → MainInstance α
  | some leaderId =>
    if leaderId = hostId then m.markAsLeader.setCall i .renewing
    else if m.isLeader then (m.markAsFollower.emit .stepdown).endCall i
    else m.endCall i
  | none => (m.markAsFollower.emit .stepdown).setCall i (.claiming false)

/-- `tryBecomeLeader`, after the attempt to set the key.  `init` then sets the interval. -/
def claimed (i : ℕ) (fromInit keySetSuccessfully : Bool) : MainInstance α :=
  let m := if keySetSuccessfully then m.markAsLeader.emit .takeover else m.markAsFollower
  { m with interval := m.interval || fromInit }.endCall i

def shutdown : MainInstance α :=
  { m with
    interval := false
    clearing := if m.isLeader then m.clearing + 1 else m.clearing }

end MainInstance

structure MultiMain (α : Type) where
  key : Option α := none
  host : α → MainInstance α := fun _ => {}

inductive MultiMainInput (α : Type) where
  | init (hostId : α)
  /-- The interval of an instance fires. -/
  | check (hostId : α)
  /-- The store answers a call. -/
  | answer (hostId : α) (call : ℕ)
  /-- A call goes on after its `await`. -/
  | resume (hostId : α) (call : ℕ)
  | expire
  | shutdown (hostId : α)
  /-- A shutdown deletes the key. -/
  | clear (hostId : α)
  deriving DecidableEq

namespace MultiMain

variable {α : Type} [DecidableEq α] (s : MultiMain α)

def setHost (hostId : α) (m : MainInstance α) : MultiMain α :=
  { s with host := Function.update s.host hostId m }

/-- The store answers: `get`, `expire`, or a `set` that succeeds only if there is no key. -/
def answer (hostId : α) (i : ℕ) : LeaderCall α → Except Unit (MultiMain α)
  | .getting => .ok (s.setHost hostId ((s.host hostId).setCall i (.got s.key)))
  | .renewing => .ok (s.setHost hostId ((s.host hostId).setCall i .renewed))
  | .claiming fromInit =>
    .ok ({ s with key := some (s.key.getD hostId) }.setHost hostId
      ((s.host hostId).setCall i (.claimed fromInit s.key.isNone)))
  | _ => .error ()

def resume (hostId : α) (i : ℕ) : LeaderCall α → Except Unit (MultiMain α)
  | .got leaderId => .ok (s.setHost hostId ((s.host hostId).checked hostId i leaderId))
  | .renewed => .ok (s.setHost hostId ((s.host hostId).endCall i))
  | .claimed fromInit keySetSuccessfully =>
    .ok (s.setHost hostId ((s.host hostId).claimed i fromInit keySetSuccessfully))
  | _ => .error ()

def step : MultiMainInput α → Except Unit (MultiMain α)
  | .init hostId =>
    let m := s.host hostId
    onlyIf (m.initialized = false)
      (s.setHost hostId { m with initialized := true, calls := m.calls ++ [.claiming true] })
  | .check hostId =>
    let m := s.host hostId
    onlyIf (m.interval = true) (s.setHost hostId { m with calls := m.calls ++ [.getting] })
  | .answer hostId i => match (s.host hostId).calls[i]? with
    | some call => s.answer hostId i call
    | none => .error ()
  | .resume hostId i => match (s.host hostId).calls[i]? with
    | some call => s.resume hostId i call
    | none => .error ()
  | .expire => .ok { s with key := none }
  | .shutdown hostId => .ok (s.setHost hostId (s.host hostId).shutdown)
  | .clear hostId =>
    let m := s.host hostId
    onlyIf (0 < m.clearing)
      ({ s with key := none }.setHost hostId { m with clearing := m.clearing - 1 })

/-- The instance is the leader iff the last event it emitted is a takeover. -/
def Agree (m : MainInstance α) : Prop :=
  m.isLeader = true ↔ m.events.getLast? = some .takeover

instance (m : MainInstance α) : Decidable (Agree m) := inferInstanceAs (Decidable (_ ↔ _))

/-- Role and events agree for each instance that has no check in progress. -/
def ServicesAgree : Prop :=
  ∀ hostId, (s.host hostId).calls = [] → Agree (s.host hostId)

/-- A call does not turn the role of its instance without an event: one that has read
the instance's own id finds it the leader, and one that has not got the key does not. -/
def Announced : MultiMainInput α → Prop
  | .resume hostId i => match (s.host hostId).calls[i]? with
    | some (.got (some leaderId)) => leaderId = hostId → (s.host hostId).isLeader = true
    | some (.claimed _ false) => (s.host hostId).isLeader = false
    | _ => True
  | _ => True

instance (s : MultiMain α) (input : MultiMainInput α) : Decidable (s.Announced input) := by
  unfold Announced
  split
  · split <;> infer_instance
  · infer_instance

variable {s s' : MultiMain α} {m : MainInstance α} {i : ℕ}

omit [DecidableEq α] in
theorem agree_congr {m' : MainInstance α} (hrole : m'.instanceRole = m.instanceRole)
    (hevents : m'.events = m.events) : Agree m' ↔ Agree m := by
  rw [Agree, Agree, MainInstance.isLeader, MainInstance.isLeader, hrole, hevents]

omit [DecidableEq α] in
theorem agree_setCall {call : LeaderCall α} : Agree (m.setCall i call) ↔ Agree m :=
  agree_congr rfl rfl

omit [DecidableEq α] in
theorem agree_endCall : Agree (m.endCall i) ↔ Agree m := agree_congr rfl rfl

omit [DecidableEq α] in
theorem agree_stepdown : Agree (m.markAsFollower.emit .stepdown) := by
  simp [Agree, MainInstance.isLeader, MainInstance.markAsFollower, MainInstance.emit]

omit [DecidableEq α] in
theorem agree_takeover : Agree (m.markAsLeader.emit .takeover) := by
  simp [Agree, MainInstance.isLeader, MainInstance.markAsLeader, MainInstance.emit]

omit [DecidableEq α] in
theorem agree_markAsLeader (h : Agree m) : Agree m.markAsLeader ↔ m.isLeader = true := by
  have hagree : m.isLeader = true ↔ m.events.getLast? = some .takeover := h
  rw [hagree, Agree]
  exact ⟨fun h => h.mp rfl, fun h => iff_of_true rfl h⟩

omit [DecidableEq α] in
theorem agree_markAsFollower (h : Agree m) : Agree m.markAsFollower ↔ m.isLeader = false := by
  have hagree : m.isLeader = true ↔ m.events.getLast? = some .takeover := h
  rw [← Bool.not_eq_true, hagree, Agree]
  exact ⟨fun h htakeover => Bool.false_ne_true (h.mpr htakeover),
    fun h => iff_of_false Bool.false_ne_true h⟩

theorem agree_checked (h : Agree m) (hostId : α) (leaderId : Option α) :
    Agree (m.checked hostId i leaderId) ↔ (leaderId = some hostId → m.isLeader = true) := by
  cases leaderId with
  | none => exact iff_of_true (agree_setCall.mpr agree_stepdown) fun h => by cases h
  | some leaderId =>
    rw [MainInstance.checked, Option.some.injEq]
    split
    · -- it becomes the leader without an event
      rename_i hown
      rw [agree_setCall, agree_markAsLeader h, imp_iff_right hown]
    · rename_i hother
      refine iff_of_true ?_ fun hown => absurd hown hother
      split
      · exact agree_endCall.mpr agree_stepdown
      · exact agree_endCall.mpr h

omit [DecidableEq α] in
theorem agree_claimed (h : Agree m) (fromInit keySetSuccessfully : Bool) :
    Agree (m.claimed i fromInit keySetSuccessfully) ↔
      (keySetSuccessfully = false → m.isLeader = false) := by
  rw [MainInstance.claimed, agree_endCall]
  cases keySetSuccessfully with
  | true => exact iff_of_true ((agree_congr rfl rfl).mpr agree_takeover) fun h => by cases h
  | false =>
    -- it becomes a follower without an event
    rw [imp_iff_right rfl, ← agree_markAsFollower h]
    exact agree_congr rfl rfl

def AllAgree (s : MultiMain α) : Prop := ∀ hostId, Agree (s.host hostId)

theorem host_setHost (hostId other : α) :
    (s.setHost hostId m).host other = if other = hostId then m else s.host other :=
  Function.update_apply ..

theorem allAgree_setHost (h : AllAgree s) (key : Option α) (hostId : α) :
    AllAgree ({ s with key }.setHost hostId m) ↔ Agree m := by
  constructor
  · intro hall
    have hself := hall hostId
    rwa [host_setHost, if_pos rfl] at hself
  · intro hm other
    rw [host_setHost]
    split
    · exact hm
    · exact h other

/-- Step lemma: a step keeps role and events together iff it announces what it does. -/
theorem agree_step_iff (h : AllAgree s) {input : MultiMainInput α}
    (hstep : s.step input = .ok s') : AllAgree s' ↔ s.Announced input := by
  cases input with
  | init hostId =>
    obtain ⟨-, rfl⟩ := onlyIf_eq_ok.mp hstep
    rw [allAgree_setHost h s.key]
    exact iff_of_true ((agree_congr rfl rfl).mpr (h hostId)) trivial
  | check hostId =>
    obtain ⟨-, rfl⟩ := onlyIf_eq_ok.mp hstep
    rw [allAgree_setHost h s.key]
    exact iff_of_true ((agree_congr rfl rfl).mpr (h hostId)) trivial
  | answer hostId i =>
    rw [step] at hstep
    cases hcall : (s.host hostId).calls[i]? with
    | none =>
      rw [hcall] at hstep
      cases hstep
    | some call =>
      rw [hcall] at hstep
      refine iff_of_true ?_ trivial
      cases call <;> cases hstep
      all_goals exact (allAgree_setHost h _ hostId).mpr (agree_setCall.mpr (h hostId))
  | resume hostId i =>
    rw [step] at hstep
    rw [Announced]
    cases hcall : (s.host hostId).calls[i]? with
    | none =>
      rw [hcall] at hstep
      cases hstep
    | some call =>
      rw [hcall] at hstep
      cases call with
      | got leaderId =>
        cases hstep
        rw [allAgree_setHost h s.key, agree_checked (h hostId)]
        cases leaderId <;> simp
      | renewed =>
        cases hstep
        rw [allAgree_setHost h s.key, agree_endCall]
        exact iff_of_true (h hostId) trivial
      | claimed fromInit keySetSuccessfully =>
        cases hstep
        rw [allAgree_setHost h s.key, agree_claimed (h hostId)]
        cases keySetSuccessfully <;> simp
      | _ => cases hstep
  | expire =>
    cases hstep
    exact iff_of_true h trivial
  | shutdown hostId =>
    cases hstep
    rw [allAgree_setHost h s.key]
    exact iff_of_true ((agree_congr rfl rfl).mpr (h hostId)) trivial
  | clear hostId =>
    obtain ⟨-, rfl⟩ := onlyIf_eq_ok.mp hstep
    rw [allAgree_setHost h none]
    exact iff_of_true ((agree_congr rfl rfl).mpr (h hostId)) trivial

theorem agree_iff (key : Option α) {inputs : List (MultiMainInput α)} :
    Along step (fun _ _ s' => AllAgree s') { key } inputs ↔
      Along step (fun s input _ => s.Announced input) { key } inputs := by
  have hstart : AllAgree ({ key } : MultiMain α) :=
    fun _ => iff_of_false Bool.false_ne_true fun h => by cases h
  refine Along.iff_of_step (I := AllAgree) (V := fun _ _ _ => True) ?_
    (fun _ _ _ _ _ _ hs' => hs') hstart (Along.always (fun _ _ _ => trivial) inputs _)
  exact fun _ _ _ hs hstep _ => agree_step_iff hs hstep

/-- **When leadership and leader services agree.**  Along every run whose steps announce
what they do, each instance without a check in progress is the leader iff the last
event it emitted is a takeover. -/
theorem servicesAgree_of_announced (key : Option α) {inputs : List (MultiMainInput α)}
    (h : Along step (fun s input _ => s.Announced input) { key } inputs) :
    Along step (fun _ _ s' => s'.ServicesAgree) { key } inputs :=
  ((agree_iff key).mpr h).mono fun _ _ _ hs hostId _ => hs hostId

/-- An instance becomes the leader. -/
def electedRun : List (MultiMainInput ℕ) := [.init 1, .answer 1 0, .resume 1 0]

/-- It renews the key, loses it, and becomes the leader again. -/
theorem servicesAgree_renewed :
    Along step (fun _ _ s' => s'.ServicesAgree) {} (electedRun ++
      [.check 1, .answer 1 0, .resume 1 0, .answer 1 0, .resume 1 0, .expire,
        .check 1, .answer 1 0, .resume 1 0, .answer 1 0, .resume 1 0]) :=
  servicesAgree_of_announced none (by decide)

/-- Two overlapping checks both find the key vacant; the one that fails to set it turns
the role of the leader that the other has made. -/
theorem not_servicesAgree_overlappingChecks :
    ¬ Along step (fun _ _ s' => s'.ServicesAgree) {} (electedRun ++
      [.expire, .check 1, .answer 1 0, .check 1, .answer 1 1, .resume 1 0, .resume 1 1,
        .answer 1 0, .answer 1 1, .resume 1 0, .resume 1 0]) := by
  intro h
  have hone : Along step (fun _ _ s' => (s'.host 1).calls = [] → Agree (s'.host 1)) {}
      (electedRun ++ [.expire, .check 1, .answer 1 0, .check 1, .answer 1 1, .resume 1 0,
        .resume 1 1, .answer 1 0, .answer 1 1, .resume 1 0, .resume 1 0]) :=
    h.mono fun _ _ _ hs => hs 1
  exact absurd hone (by decide)

end MultiMain

end N8n
