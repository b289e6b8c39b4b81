/-
The queue that processes one event at a time: `createEventQueue`.

`processNext` takes the first event of the queue and waits for `processEvent`; when that has settled
it clears the flag and goes on with the next event.  In between, events may be enqueued, by
`processEvent` or by others, at any moment; each of them calls `processNext` too.

* **`processed_in_order`** — every event is started once, in order and after the ones before it.
-/
import N8n.Runs

namespace N8n.EventQueue

variable {α : Type}

/-- A call of `processNext` after it has started an event. -/
inductive Phase where
  /-- `processEvent` runs and has not returned. -/
  | calling
  /-- The promise that it returned is waited for. -/
  | awaiting
  /-- The promise has resolved or rejected, and the call has not gone on. -/
  | settled
  deriving DecidableEq, Repr

structure Activation (α : Type) where
  event : α
  phase : Phase

/-- An event that is `undefined` is `none`.  The last two fields are no part of the program: the
events that `processEvent` was called with, and those for which it has settled. -/
structure State (α : Type) where
  queue : List (Option α) := []
  processing : Bool := false
  activations : List (Activation α) := []
  started : List α := []
  settled : List α := []

/-- `processNext` when nothing is processed: an event that is `undefined` is skipped. -/
def takeNext (s : State α) : List (Option α) → State α
  | [] => { s with queue := [], processing := false }
  | none :: rest => takeNext s rest
  | some event :: rest =>
    { s with
      queue := rest
      processing := true
      activations := s.activations ++ [{ event, phase := .calling }]
      started := s.started ++ [event] }

def processNext (s : State α) : State α :=
  if s.processing ∨ s.queue = [] then s else takeNext s s.queue

def enqueue (s : State α) (event : Option α) : State α :=
  processNext { s with queue := s.queue ++ [event] }

/-- A call goes on after `processEvent`. -/
def goOn (s : State α) (call : ℕ) : State α :=
  processNext { s with processing := false, activations := s.activations.eraseIdx call }

/-- What may come at any moment; a call is given by its place among those that have not ended. -/
inductive Input (α : Type) where
  | enqueue (event : Option α)
  /-- `processEvent` returns a promise. -/
  | returned (call : ℕ)
  /-- `processEvent` throws, without a promise. -/
  | threw (call : ℕ)
  /-- The promise resolves or rejects; an error is only logged. -/
  | settled (call : ℕ)
  /-- The call goes on, some time after the promise has settled. -/
  | resumed (call : ℕ)

def callIn (s : State α) (call : ℕ) (phase : Phase) : Except Unit (Activation α) :=
  match s.activations[call]? with
  | some activation => if activation.phase = phase then .ok activation else .error ()
  | none => .error ()

def step (s : State α) : Input α → Except Unit (State α)
  | .enqueue event => .ok (enqueue s event)
  | .returned call => do
    let activation ← callIn s call .calling
    .ok { s with activations := s.activations.set call { activation with phase := .awaiting } }
  | .threw call => do
    let activation ← callIn s call .calling
    .ok (goOn { s with settled := s.settled ++ [activation.event] } call)
  | .settled call => do
    let activation ← callIn s call .awaiting
    .ok { s with
      activations := s.activations.set call { activation with phase := .settled }
      settled := s.settled ++ [activation.event] }
  | .resumed call => do
    let _ ← callIn s call .settled
    .ok (goOn s call)

def enqueued (inputs : List (Input α)) : List (Option α) :=
  inputs.filterMap fun input => match input with
    | .enqueue event => some event
    | _ => none

def ended (inputs : List (Input α)) : ℕ :=
  inputs.countP fun input => match input with
    | .threw _ => true
    | .resumed _ => true
    | _ => false

/-- Nothing is processed, or one event: the last one that was started. -/
inductive Inv (s : State α) : Prop where
  | idle (hprocessing : s.processing = false) (hqueue : s.queue = [])
      (hactivations : s.activations = []) (hsettled : s.settled = s.started)
  | busy (before : List α) (activation : Activation α) (hprocessing : s.processing = true)
      (hactivations : s.activations = [activation])
      (hstarted : s.started = before ++ [activation.event])
      (hsettled : s.settled = if activation.phase = .settled then s.started else before)

variable {s : State α}

theorem inv_takeNext (hactivations : s.activations = [])
    (hsettled : s.settled = s.started) : ∀ queue, Inv (takeNext s queue) := by
  intro queue
  induction queue with
  | nil => exact .idle rfl rfl hactivations hsettled
  | cons first rest ih =>
    cases first with
    | none => exact ih
    | some event =>
      refine .busy s.started ⟨event, .calling⟩ rfl ?_ rfl hsettled
      show s.activations ++ [_] = _
      rw [hactivations, List.nil_append]

theorem inv_processNext (hprocessing : s.processing = false)
    (hactivations : s.activations = []) (hsettled : s.settled = s.started) :
    Inv (processNext s) := by
  rw [processNext]
  split
  · next h =>
    refine .idle hprocessing (h.resolve_left ?_) hactivations hsettled
    rw [hprocessing]
    exact Bool.false_ne_true
  · exact inv_takeNext hactivations hsettled _

theorem inv_enqueue (h : Inv s) (event : Option α) : Inv (enqueue s event) := by
  cases h with
  | idle hprocessing hqueue hactivations hsettled =>
    exact inv_processNext hprocessing hactivations hsettled
  | busy before activation hprocessing hactivations hstarted hsettled =>
    rw [enqueue, processNext, if_pos (.inl hprocessing)]
    exact .busy before activation hprocessing hactivations hstarted hsettled

variable {activation : Activation α}

theorem eq_of_callIn (h : Inv s) {call : ℕ} {phase : Phase} (hcall : callIn s call phase = .ok activation) :
    call = 0 ∧ s.processing = true ∧ s.activations = [activation] ∧
      ∃ before, s.started = before ++ [activation.event] ∧
        s.settled = if phase = .settled then s.started else before := by
  rw [callIn] at hcall
  split at hcall
  · next other hother =>
    split at hcall
    · next hphase =>
      cases hcall
      cases h with
      | idle hprocessing hqueue hactivations hsettled =>
        rw [hactivations] at hother
        cases hother
      | busy before only hprocessing hactivations hstarted hsettled =>
        rw [hactivations] at hother
        obtain ⟨hlt, rfl⟩ := List.getElem?_eq_some_iff.mp hother
        have hzero : call = 0 := Nat.lt_one_iff.mp hlt
        subst hzero
        exact ⟨rfl, hprocessing, hactivations, before, hstarted, hphase ▸ hsettled⟩
    · cases hcall
  · cases hcall

variable {input : Input α}

theorem inv_step {s t : State α} (h : Inv s) (hstep : step s input = .ok t) :
    Inv t := by
  cases input with
  | enqueue event =>
    cases hstep
    exact inv_enqueue h event
  | returned call =>
    obtain ⟨activation, hcall, heq⟩ := exists_of_bind_eq_ok hstep
    obtain ⟨rfl, hprocessing, hactivations, before, hstarted, hsettled⟩ := eq_of_callIn h hcall
    cases heq
    refine .busy before { activation with phase := .awaiting } hprocessing ?_ hstarted hsettled
    exact congrArg (List.set · 0 _) hactivations
  | threw call =>
    obtain ⟨activation, hcall, heq⟩ := exists_of_bind_eq_ok hstep
    obtain ⟨rfl, -, hactivations, before, hstarted, hsettled⟩ := eq_of_callIn h hcall
    cases heq
    refine inv_processNext rfl (congrArg (List.eraseIdx · 0) hactivations) ?_
    exact (congrArg (· ++ [activation.event]) hsettled).trans hstarted.symm
  | settled call =>
    obtain ⟨activation, hcall, heq⟩ := exists_of_bind_eq_ok hstep
    obtain ⟨rfl, hprocessing, hactivations, before, hstarted, hsettled⟩ := eq_of_callIn h hcall
    cases heq
    refine .busy before { activation with phase := .settled } hprocessing ?_ hstarted ?_
    · exact congrArg (List.set · 0 _) hactivations
    · exact (congrArg (· ++ [activation.event]) hsettled).trans hstarted.symm
  | resumed call =>
    obtain ⟨activation, hcall, heq⟩ := exists_of_bind_eq_ok hstep
    obtain ⟨rfl, -, hactivations, before, hstarted, hsettled⟩ := eq_of_callIn h hcall
    cases heq
    exact inv_processNext rfl (congrArg (List.eraseIdx · 0) hactivations) hsettled

def Defined (queue : List (Option α)) : Prop := none ∉ queue

theorem started_takeNext : ∀ {queue : List (Option α)}, Defined queue →
    (takeNext s queue).started.map some ++ (takeNext s queue).queue =
      s.started.map some ++ queue := by
  intro queue hdefined
  rcases queue with _ | ⟨_ | event, rest⟩
  · rfl
  · exact absurd List.mem_cons_self hdefined
  · show (s.started ++ [event]).map some ++ rest = _
    rw [List.map_append, List.append_assoc]
    rfl

def events (s : State α) : List (Option α) := s.started.map some ++ s.queue

theorem events_processNext (hdefined : Defined (events s)) : events (processNext s) = events s := by
  rw [processNext]
  split
  · rfl
  · exact started_takeNext fun hnone => hdefined (List.mem_append_right _ hnone)

theorem events_goOn (hdefined : Defined (events s)) (call : ℕ) :
    events (goOn s call) = events s := by
  rw [goOn, events_processNext]
  · rfl
  · exact hdefined

theorem events_step {s t : State α}
    (hdefined : Defined (events s ++ enqueued [input])) (hstep : step s input = .ok t) :
    events t = events s ++ enqueued [input] := by
  cases input with
  | enqueue event =>
    cases hstep
    have happend : events { s with queue := s.queue ++ [event] } = events s ++ [event] :=
      (List.append_assoc ..).symm
    rw [enqueue, events_processNext]
    · exact happend
    · rw [happend]
      exact hdefined
  | returned call =>
    obtain ⟨activation, -, heq⟩ := exists_of_bind_eq_ok hstep
    cases heq
    exact (List.append_nil _).symm
  | threw call =>
    obtain ⟨activation, -, heq⟩ := exists_of_bind_eq_ok hstep
    cases heq
    refine Eq.trans (events_goOn ?_ call) (List.append_nil _).symm
    exact fun hmem => hdefined (List.mem_append_left _ hmem)
  | settled call =>
    obtain ⟨activation, -, heq⟩ := exists_of_bind_eq_ok hstep
    cases heq
    exact (List.append_nil _).symm
  | resumed call =>
    obtain ⟨activation, -, heq⟩ := exists_of_bind_eq_ok hstep
    cases heq
    refine Eq.trans (events_goOn ?_ call) (List.append_nil _).symm
    exact fun hmem => hdefined (List.mem_append_left _ hmem)

theorem length_takeNext : ∀ queue : List (Option α),
    (takeNext s queue).started.length + s.activations.length =
      s.started.length + (takeNext s queue).activations.length := by
  intro queue
  induction queue with
  | nil => rfl
  | cons first rest ih =>
    cases first with
    | none => exact ih
    | some event =>
      show (s.started ++ [event]).length + _ = _ + (s.activations ++ [_]).length
      rw [List.length_append, List.length_append, List.length_singleton, List.length_singleton]
      omega

theorem length_processNext (s : State α) :
    (processNext s).started.length + s.activations.length =
      s.started.length + (processNext s).activations.length := by
  rw [processNext]
  split
  · rfl
  · exact length_takeNext _

/-- For every event that was started there is a call, which has ended or not. -/
def Counted (s : State α) (endedCalls : ℕ) : Prop :=
  s.started.length = endedCalls + s.activations.length

variable {endedCalls : ℕ}

theorem counted_goOn
    (hactivations : s.activations = [activation]) (hcounted : Counted s endedCalls) :
    Counted (goOn s 0) (endedCalls + 1) := by
  have hlength := length_processNext { s with
    processing := false, activations := s.activations.eraseIdx 0 }
  rw [Counted, hactivations] at hcounted
  rw [hactivations] at hlength
  rw [goOn, Counted, hactivations]
  simp only [List.eraseIdx_cons_zero, List.length_nil, List.length_singleton] at hlength hcounted ⊢
  omega

theorem counted_step {s t : State α} (h : Inv s) (hstep : step s input = .ok t) (hcounted : Counted s endedCalls) :
    Counted t (endedCalls + ended [input]) := by
  cases input with
  | enqueue event =>
    cases hstep
    have hlength := length_processNext { s with queue := s.queue ++ [event] }
    simp only at hlength
    rw [Counted] at hcounted
    show (enqueue s event).started.length = endedCalls + 0 + (enqueue s event).activations.length
    rw [enqueue]
    omega
  | returned call =>
    obtain ⟨activation, -, heq⟩ := exists_of_bind_eq_ok hstep
    cases heq
    show s.started.length = endedCalls + 0 + (s.activations.set _ _).length
    rw [List.length_set]
    exact hcounted
  | threw call =>
    obtain ⟨activation, hcall, heq⟩ := exists_of_bind_eq_ok hstep
    obtain ⟨rfl, -, hactivations, -⟩ := eq_of_callIn h hcall
    cases heq
    exact counted_goOn (s := { s with settled := s.settled ++ [activation.event] })
      hactivations hcounted
  | settled call =>
    obtain ⟨activation, -, heq⟩ := exists_of_bind_eq_ok hstep
    cases heq
    show s.started.length = endedCalls + 0 + (s.activations.set _ _).length
    rw [List.length_set]
    exact hcounted
  | resumed call =>
    obtain ⟨activation, hcall, heq⟩ := exists_of_bind_eq_ok hstep
    obtain ⟨rfl, -, hactivations, -⟩ := eq_of_callIn h hcall
    cases heq
    exact counted_goOn hactivations hcounted

/-- What holds after some inputs. -/
structure Holds (s : State α) (inputs : List (Input α)) : Prop where
  inv : Inv s
  events : events s = enqueued inputs
  counted : Counted s (ended inputs)

theorem enqueued_append (inputs more : List (Input α)) :
    enqueued (inputs ++ more) = enqueued inputs ++ enqueued more := List.filterMap_append

theorem holds_step {s t : State α} {inputs : List (Input α)}
    (h : Holds s inputs) (hdefined : Defined (enqueued (inputs ++ [input])))
    (hstep : step s input = .ok t) : Holds t (inputs ++ [input]) := by
  rw [enqueued_append, ← h.events] at hdefined
  refine ⟨inv_step h.inv hstep, ?_, ?_⟩
  · rw [enqueued_append, ← h.events]
    exact events_step hdefined hstep
  · rw [ended, List.countP_append]
    exact counted_step h.inv hstep h.counted

theorem holds_run : ∀ {inputs done : List (Input α)} {s t : State α}, Holds s done →
    Defined (enqueued (done ++ inputs)) → runInputs step s inputs = .ok t →
    Holds t (done ++ inputs) := by
  intro inputs
  induction inputs with
  | nil =>
    intro done s t h _ hrun
    cases hrun
    rw [List.append_nil]
    exact h
  | cons input inputs ih =>
    intro done s t h hdefined hrun
    rw [List.append_cons] at hdefined ⊢
    rw [runInputs] at hrun
    split at hrun
    · next m hstep =>
      refine ih (holds_step h (fun hnone => hdefined ?_) hstep) hdefined hrun
      rw [enqueued_append]
      exact List.mem_append_left _ hnone
    · cases hrun

theorem holds_start : Holds ({} : State α) [] := ⟨.idle rfl rfl rfl rfl, rfl, rfl⟩

/-- **Every event is started once, in order,** and not before the one before it has settled; the
queue is empty if no event is being processed, and each call that ends starts the next event. -/
theorem processed_in_order {inputs : List (Input α)} {s : State α}
    (hdefined : Defined (enqueued inputs)) (hrun : runInputs step {} inputs = .ok s) :
    s.started.map some ++ s.queue = enqueued inputs ∧
      (s.settled <+: s.started ∧ s.started.length ≤ s.settled.length + 1) ∧
      (s.queue ≠ [] → ∃ activation, s.activations = [activation] ∧
        s.started.getLast? = some activation.event) ∧
      min (ended inputs + 1) (enqueued inputs).length ≤ s.started.length := by
  have hholds := holds_run holds_start hdefined hrun
  rw [List.nil_append] at hholds
  obtain ⟨hinv, hevents, hcounted⟩ := hholds
  refine ⟨hevents, ?_, ?_, ?_⟩
  · cases hinv with
    | idle _ _ _ hsettled => exact ⟨hsettled ▸ List.prefix_rfl, hsettled ▸ Nat.le_succ _⟩
    | busy before activation _ _ hstarted hsettled =>
      split at hsettled
      · exact ⟨hsettled ▸ List.prefix_rfl, hsettled ▸ Nat.le_succ _⟩
      · rw [hsettled, hstarted, List.length_append]
        exact ⟨List.prefix_append _ _, Nat.le_refl _⟩
  · intro hqueue
    cases hinv with
    | idle _ hnil _ _ => exact absurd hnil hqueue
    | busy before activation _ hactivations hstarted _ =>
      exact ⟨activation, hactivations, by rw [hstarted, List.getLast?_concat]⟩
  · cases hinv with
    | idle _ hnil _ _ =>
      rw [← hevents, EventQueue.events, hnil, List.append_nil, List.length_map]
      exact Nat.min_le_right _ _
    | busy before activation _ hactivations _ _ =>
      rw [Counted, hactivations] at hcounted
      exact Nat.le_trans (Nat.min_le_left _ _) (Nat.le_of_eq hcounted.symm)

/-- The first event is being processed when the second one is enqueued, and rejects. -/
def twoEvents : List (Input ℕ) :=
  [.enqueue (some 1), .returned 0, .enqueue (some 2), .settled 0, .resumed 0]

theorem processed_twoEvents : ∃ s : State ℕ, runInputs step {} twoEvents = .ok s ∧
    s.started.map some ++ s.queue = [some 1, some 2] ∧
      min (ended twoEvents + 1) (enqueued twoEvents).length ≤ s.started.length := by
  have hdefined : Defined (enqueued twoEvents) := by unfold Defined; decide
  refine ⟨_, rfl, ?_⟩
  obtain ⟨hevents, -, -, hstarted⟩ := processed_in_order hdefined rfl
  exact ⟨hevents, hstarted⟩

end N8n.EventQueue
