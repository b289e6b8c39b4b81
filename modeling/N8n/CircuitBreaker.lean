/-
The circuit breaker, with calls that finish at any later time.

A function is started in one state of the breaker and its result is handled in
the state that holds when it comes.  A success of a function started half open
is counted, and may close the breaker, whatever happened in between.

* `lawful_iff` — **the breaker keeps its promise along a run iff no success
  that closes it is late, or was counted together with a late one**.
-/
import N8n.Runs
import Mathlib.Data.Int.Notation
import Mathlib.Data.Nat.Basic
import Mathlib.Data.List.Count

namespace N8n

structure SlidingWindowOptions where
  maxEvents : ℕ
  durationMs : ℤ
  deriving DecidableEq, Repr

abbrev SlidingWindow := List ℤ

namespace SlidingWindow

/-- `timestamps.slice(-size)`; `slice(-0)` is the whole array. -/
def sliceLast (timestamps : SlidingWindow) (size : ℕ) : SlidingWindow :=
  if size = 0 then timestamps else timestamps.drop (timestamps.length - size)

def addEvent (options : SlidingWindowOptions) (window : SlidingWindow) (timestamp : ℤ) :
    SlidingWindow :=
  let timestamps := window ++ [timestamp]
  if timestamps.length > options.maxEvents * 2 then
    sliceLast timestamps (options.maxEvents * 2)
  else timestamps

/-- `getCount`: the window without its expired events, and how many are left. -/
def getCount (options : SlidingWindowOptions) (window : SlidingWindow) (now : ℤ) :
    SlidingWindow × ℕ :=
  let timestamps := window.filter (now - options.durationMs ≤ ·)
  (timestamps, timestamps.length)

end SlidingWindow

structure CircuitBreakerOptions where
  timeout : ℤ
  maxFailures : ℕ
  halfOpenRequests : ℕ
  failureWindow : ℤ
  maxConcurrentHalfOpenRequests : ℕ := 1
  deriving DecidableEq, Repr

/-- The states `CLOSED`, `OPEN` and `HALF_OPEN`. -/
inductive CircuitBreakerState where
  | closed
  | opened
  | halfOpen
  deriving DecidableEq, Repr

structure CircuitBreaker where
  options : CircuitBreakerOptions
  state : CircuitBreakerState := .closed
  halfOpenCount : ℕ := 0
  lastFailureTime : ℤ := 0
  pendingHalfOpenRequests : ℤ := 0
  slidingWindow : SlidingWindow := []
  deriving DecidableEq, Repr

namespace CircuitBreaker
variable (b : CircuitBreaker)

def windowOptions : SlidingWindowOptions where
  maxEvents := b.options.maxFailures
  durationMs := b.options.failureWindow

def clearFailures : CircuitBreaker := { b with slidingWindow := [] }

def recordFailure (now : ℤ) : CircuitBreaker :=
  { b with
    lastFailureTime := now
    slidingWindow := b.slidingWindow.addEvent b.windowOptions now }

def changeToState (newState : CircuitBreakerState) : CircuitBreaker :=
  if newState = b.state then b else { b with state := newState }

/-- `handleHalfOpenState`, up to `await fn()`. -/
def startHalfOpen : CircuitBreaker × Bool :=
  if b.pendingHalfOpenRequests ≥ b.options.maxConcurrentHalfOpenRequests then (b, false)
  else ({ b with pendingHalfOpenRequests := b.pendingHalfOpenRequests + 1 }, true)

/-- `handleOpenState`, up to `await fn()`. -/
def startOpen (now : ℤ) : CircuitBreaker × Bool :=
  if now - b.lastFailureTime ≥ b.options.timeout then
    ({ b with halfOpenCount := 0 }.changeToState .halfOpen).startHalfOpen
  else (b, false)

/-- `handleHalfOpenState`, from the `await` on. -/
def finishHalfOpen (now : ℤ) (succeeded : Bool) : CircuitBreaker :=
  let b := if succeeded then
      let b := { b with halfOpenCount := b.halfOpenCount + 1 }
      if b.halfOpenCount ≥ b.options.halfOpenRequests then
        (b.changeToState .closed).clearFailures
      else b
    else (b.recordFailure now).changeToState .opened
  { b with pendingHalfOpenRequests := b.pendingHalfOpenRequests - 1 }

/-- `handleClosedState`, from the `await` on. -/
def finishClosed (now : ℤ) (succeeded : Bool) : CircuitBreaker :=
  if succeeded then b
  else
    let b := b.recordFailure now
    let (slidingWindow, failureCount) := b.slidingWindow.getCount b.windowOptions now
    let b := { b with slidingWindow }
    if failureCount ≥ b.options.maxFailures then b.changeToState .opened else b

section Handlers

variable (b : CircuitBreaker) (now : ℤ) (succeeded : Bool)

theorem changeToState_eq (newState : CircuitBreakerState) :
    b.changeToState newState = { b with state := newState } := by
  rw [changeToState]
  split
  · rename_i h
    rw [h]
  · rfl

theorem startHalfOpen_eq : b.startHalfOpen =
    if b.pendingHalfOpenRequests < b.options.maxConcurrentHalfOpenRequests then
      ({ b with pendingHalfOpenRequests := b.pendingHalfOpenRequests + 1 }, true)
    else (b, false) := by
  rw [startHalfOpen]
  split_ifs
  · omega
  · rfl
  · rfl
  · omega

theorem finishHalfOpen_failed : b.finishHalfOpen now false = { b with
    state := .opened
    lastFailureTime := now
    pendingHalfOpenRequests := b.pendingHalfOpenRequests - 1
    slidingWindow := b.slidingWindow.addEvent b.windowOptions now } := by
  simp [finishHalfOpen, changeToState_eq, recordFailure]

theorem finishHalfOpen_succeeded : b.finishHalfOpen now true =
    if b.options.halfOpenRequests ≤ b.halfOpenCount + 1 then { b with
      state := .closed
      halfOpenCount := b.halfOpenCount + 1
      pendingHalfOpenRequests := b.pendingHalfOpenRequests - 1
      slidingWindow := [] }
    else { b with
      halfOpenCount := b.halfOpenCount + 1
      pendingHalfOpenRequests := b.pendingHalfOpenRequests - 1 } := by
  simp only [finishHalfOpen, changeToState_eq, clearFailures, ge_iff_le, if_true]
  split <;> rfl

theorem finishClosed_cases : ∃ lastFailureTime slidingWindow,
    b.finishClosed now succeeded = { b with lastFailureTime, slidingWindow } ∨
    b.finishClosed now succeeded = { b with state := .opened, lastFailureTime, slidingWindow } := by
  rw [finishClosed]
  split
  · exact ⟨_, _, Or.inl rfl⟩
  · dsimp only
    split
    · rw [changeToState_eq]
      exact ⟨_, _, Or.inr rfl⟩
    · exact ⟨_, _, Or.inl rfl⟩

end Handlers

end CircuitBreaker

/-- A call of `execute` whose function was started: by which handler, in which
half-open period, and how the function ended, if it did. -/
structure BreakerCall where
  halfOpen : Bool
  period : ℕ
  result : Option Bool := none
  deriving DecidableEq, Repr

/-- The breaker with the clock, the calls whose handler waits, the number of
half-open periods so far, and the successes handled in the current one: of
functions started in it, and of earlier ones. -/
structure BreakerRun where
  breaker : CircuitBreaker
  now : ℤ := 0
  calls : List BreakerCall := []
  period : ℕ := 0
  own : ℕ := 0
  late : ℕ := 0
  deriving DecidableEq, Repr

inductive BreakerEvent where
  | execute
  /-- The function of a call ends. -/
  | settle (call : BreakerCall) (succeeded : Bool)
  /-- The handler of a call goes on with the result. -/
  | resume (call : BreakerCall)
  /-- The clock shows another time. -/
  | clock (now : ℤ)
  deriving DecidableEq, Repr

namespace BreakerRun
variable (s : BreakerRun)

def started (halfOpen : Bool) (start : CircuitBreaker × Bool) : BreakerRun :=
  { s with
    breaker := start.1
    calls := s.calls ++ if start.2 then [{ halfOpen, period := s.period }] else [] }

/-- Whether a call of `execute` begins a half-open period. -/
def beginsPeriod : Prop :=
  s.breaker.state = .opened ∧ s.now - s.breaker.lastFailureTime ≥ s.breaker.options.timeout

instance (s : BreakerRun) : Decidable s.beginsPeriod := inferInstanceAs (Decidable (_ ∧ _))

/-- `execute`, up to the `await` of its handler. -/
def execute : BreakerRun :=
  let s := if s.beginsPeriod then { s with period := s.period + 1, own := 0, late := 0 } else s
  match s.breaker.state with
  | .opened => s.started true (s.breaker.startOpen s.now)
  | .halfOpen => s.started true s.breaker.startHalfOpen
  | .closed => s.started false (s.breaker, true)

def settle (call : BreakerCall) (succeeded : Bool) : BreakerRun :=
  { s with calls := s.calls.erase call ++ [{ call with result := some succeeded }] }

/-- A success of a half-open call is one of the current period, or a late one. -/
def countSuccess (call : BreakerCall) : BreakerRun :=
  if s.breaker.state = .halfOpen then
    if call.period = s.period then { s with own := s.own + 1 } else { s with late := s.late + 1 }
  else s

def resume (call : BreakerCall) (succeeded : Bool) : BreakerRun :=
  let s := if call.halfOpen ∧ succeeded then s.countSuccess call else s
  { s with
    calls := s.calls.erase call
    breaker := if call.halfOpen then s.breaker.finishHalfOpen s.now succeeded
      else s.breaker.finishClosed s.now succeeded }

def step : BreakerEvent → Except Unit BreakerRun
  | .execute => .ok s.execute
  | .settle call succeeded =>
    onlyIf (call ∈ s.calls ∧ call.result = none) (s.settle call succeeded)
  | .resume call => match call.result with
    | some succeeded => onlyIf (call ∈ s.calls) (s.resume call succeeded)
    | none => .error ()
  | .clock now => .ok { s with now }

def start (options : CircuitBreakerOptions) : BreakerRun := { breaker := { options } }

def runningHalfOpen : ℕ :=
  s.calls.countP fun call => call.halfOpen && call.result.isNone

/-- What one step may do: the open state is left for the half-open one, after
the timeout; the closed state is entered from the half-open one, after enough
successes of functions started in that period; and not too many functions
started half open run. -/
structure Lawful (s s' : BreakerRun) : Prop where
  leavesOpen : s.breaker.state = .opened → s'.breaker.state ≠ .opened →
    s'.breaker.state = .halfOpen ∧
      s.breaker.options.timeout ≤ s.now - s.breaker.lastFailureTime
  closes : s.breaker.state ≠ .closed → s'.breaker.state = .closed →
    s.breaker.state = .halfOpen ∧ s.breaker.options.halfOpenRequests ≤ s'.own
  running : s'.runningHalfOpen ≤ s.breaker.options.maxConcurrentHalfOpenRequests

/-- A success that reaches `halfOpenRequests` is not handled while the breaker
is open; and if it is half open, neither that success nor one counted before is
one of a function started in an earlier period. -/
def NotLate : BreakerEvent → Prop
  | .resume call => call.halfOpen → call.result = some true →
    s.breaker.options.halfOpenRequests ≤ s.breaker.halfOpenCount + 1 →
    s.breaker.state ≠ .opened ∧
      (s.breaker.state = .halfOpen → 0 < s.breaker.options.halfOpenRequests →
        s.late = 0 ∧ call.period = s.period)
  | _ => True

/-- The pending requests are the half-open calls that wait, the count is that of
the successes handled in the period, and it did not reach the limit yet. -/
structure Balanced : Prop where
  pending : s.breaker.pendingHalfOpenRequests = s.calls.countP (·.halfOpen)
  most : s.calls.countP (·.halfOpen) ≤ s.breaker.options.maxConcurrentHalfOpenRequests
  counted : s.breaker.state = .halfOpen → s.breaker.halfOpenCount = s.own + s.late
  below : s.breaker.state = .halfOpen → 0 < s.breaker.options.halfOpenRequests →
    s.breaker.halfOpenCount < s.breaker.options.halfOpenRequests

theorem balanced_start (options : CircuitBreakerOptions) : Balanced (start options) where
  pending := rfl
  most := Nat.zero_le _
  counted := by intro h; cases h
  below := by intro h; cases h

section Steps

variable {s s' : BreakerRun} {call : BreakerCall} {succeeded : Bool}

theorem Balanced.running (h : Balanced s) :
    s.runningHalfOpen ≤ s.breaker.options.maxConcurrentHalfOpenRequests := by
  refine le_trans (List.countP_mono_left fun call _ hcall => ?_) h.most
  exact (Bool.and_eq_true_iff.mp hcall).1

theorem Lawful.of_state_eq (hstate : s'.breaker.state = s.breaker.state)
    (hoptions : s'.breaker.options = s.breaker.options) (h' : Balanced s') : Lawful s s' where
  leavesOpen := fun hs hs' => (hs' (hstate.trans hs)).elim
  closes := fun hs hs' => (hs (hstate.symm.trans hs')).elim
  running := hoptions ▸ h'.running

theorem started_halfOpen (h : Balanced s) (hstate : s.breaker.state = .halfOpen) :
    Balanced (s.started true s.breaker.startHalfOpen) ∧
      (s.started true s.breaker.startHalfOpen).breaker.state = .halfOpen ∧
      (s.started true s.breaker.startHalfOpen).breaker.options = s.breaker.options := by
  rw [CircuitBreaker.startHalfOpen_eq]
  split_ifs with hfree
  · refine ⟨⟨?_, ?_, h.counted, h.below⟩, hstate, rfl⟩
    · simp [started, h.pending]
    · have := h.pending
      simp only [started, if_true, List.countP_append, List.countP_singleton]
      omega
  · refine ⟨⟨?_, ?_, h.counted, h.below⟩, hstate, rfl⟩
    · simp [started, h.pending]
    · simpa [started] using h.most

theorem lawful_execute (h : Balanced s) : Lawful s s.execute ∧ Balanced s.execute := by
  rw [execute]
  rcases hstate : s.breaker.state with _ | _ | _
  · -- closed: every function is started
    have hbegins : ¬ s.beginsPeriod := fun hb => by
      rw [beginsPeriod, hstate] at hb
      cases hb.1
    simp only [if_neg hbegins, hstate]
    have hbalanced : Balanced (s.started false (s.breaker, true)) := by
      refine ⟨?_, ?_, h.counted, h.below⟩
      · simpa [started] using h.pending
      · simpa [started] using h.most
    exact ⟨.of_state_eq rfl rfl hbalanced, hbalanced⟩
  · by_cases hbegins : s.beginsPeriod
    · -- open, and the timeout has passed: a half-open period begins
      simp only [if_pos hbegins, hstate]
      let t : BreakerRun := { s with
        period := s.period + 1
        own := 0
        late := 0
        breaker := { s.breaker with halfOpenCount := 0, state := .halfOpen } }
      have ht : Balanced t := ⟨h.pending, h.most, fun _ => rfl, fun _ hpos => hpos⟩
      have heq : ({ s with period := s.period + 1, own := 0, late := 0 } : BreakerRun).started true
          (s.breaker.startOpen s.now) = t.started true t.breaker.startHalfOpen := by
        rw [CircuitBreaker.startOpen, if_pos hbegins.2, CircuitBreaker.changeToState_eq]
        rfl
      rw [heq]
      obtain ⟨hbalanced, hhalf, hoptions⟩ := started_halfOpen ht rfl
      refine ⟨⟨fun _ _ => ⟨hhalf, hbegins.2⟩, fun _ hclosed => ?_, ?_⟩, hbalanced⟩
      · rw [hhalf] at hclosed
        cases hclosed
      · have hrunning := hbalanced.running
        rw [hoptions] at hrunning
        exact hrunning
    · have hwait : ¬ s.now - s.breaker.lastFailureTime ≥ s.breaker.options.timeout :=
        fun hpassed => hbegins ⟨hstate, hpassed⟩
      simp only [if_neg hbegins, hstate]
      have heq : s.started true (s.breaker.startOpen s.now) = s := by
        rw [CircuitBreaker.startOpen, if_neg hwait]
        simp [started]
      rw [heq]
      exact ⟨.of_state_eq rfl rfl h, h⟩
  · have hbegins : ¬ s.beginsPeriod := fun hb => by
      rw [beginsPeriod, hstate] at hb
      cases hb.1
    simp only [if_neg hbegins, hstate]
    obtain ⟨hbalanced, hhalf, hoptions⟩ := started_halfOpen h hstate
    exact ⟨.of_state_eq (hhalf.trans hstate.symm) hoptions hbalanced, hbalanced⟩

theorem lawful_settle (h : Balanced s) (hcall : call ∈ s.calls) :
    Lawful s (s.settle call succeeded) ∧ Balanced (s.settle call succeeded) := by
  have hcount : (s.settle call succeeded).calls.countP (·.halfOpen)
      = s.calls.countP (·.halfOpen) := by
    have hperm := (List.perm_cons_erase hcall).countP_eq (·.halfOpen)
    rw [List.countP_cons] at hperm
    rw [settle, List.countP_append, List.countP_singleton, hperm]
  have hbalanced : Balanced (s.settle call succeeded) :=
    ⟨hcount ▸ h.pending, hcount ▸ h.most, h.counted, h.below⟩
  exact ⟨.of_state_eq rfl rfl hbalanced, hbalanced⟩

variable (succeeded) in
theorem lawful_resume_closed (h : Balanced s) (hcall : call ∈ s.calls)
    (hclosed : call.halfOpen = false) :
    Lawful s (s.resume call succeeded) ∧ Balanced (s.resume call succeeded) := by
  have hcount : (s.calls.erase call).countP (·.halfOpen) = s.calls.countP (·.halfOpen) := by
    have hperm := (List.perm_cons_erase hcall).countP_eq (·.halfOpen)
    rw [List.countP_cons, if_neg (by simp [hclosed])] at hperm
    exact hperm.symm
  rw [resume]
  simp only [hclosed, Bool.false_eq_true, false_and, if_false]
  obtain ⟨lastFailureTime, slidingWindow, heq | heq⟩ :=
    s.breaker.finishClosed_cases s.now succeeded
  · -- the result is counted, or the breaker opens
    rw [heq]
    have hbalanced : Balanced { s with
        calls := s.calls.erase call
        breaker := { s.breaker with lastFailureTime, slidingWindow } } :=
      ⟨hcount ▸ h.pending, hcount ▸ h.most, h.counted, h.below⟩
    exact ⟨.of_state_eq rfl rfl hbalanced, hbalanced⟩
  · rw [heq]
    have hbalanced : Balanced { s with
        calls := s.calls.erase call
        breaker := { s.breaker with state := .opened, lastFailureTime, slidingWindow } } :=
      ⟨hcount ▸ h.pending, hcount ▸ h.most, CircuitBreakerState.noConfusion,
        CircuitBreakerState.noConfusion⟩
    exact ⟨⟨fun _ hne => (hne rfl).elim, fun _ => CircuitBreakerState.noConfusion,
      hbalanced.running⟩, hbalanced⟩

theorem lawful_resume_failed (h : Balanced s) (hcall : call ∈ s.calls)
    (hhalf : call.halfOpen = true) :
    Lawful s (s.resume call false) ∧ Balanced (s.resume call false) := by
  have hperm := (List.perm_cons_erase hcall).countP_eq (·.halfOpen)
  rw [List.countP_cons, if_pos hhalf] at hperm
  have hpending := h.pending
  have hmost := h.most
  rw [resume]
  simp only [hhalf, Bool.false_eq_true, and_false, if_false, if_true,
    CircuitBreaker.finishHalfOpen_failed]
  -- a failure opens the breaker in every state
  have hbalanced : Balanced { s with
      calls := s.calls.erase call
      breaker := { s.breaker with
        state := .opened
        lastFailureTime := s.now
        pendingHalfOpenRequests := s.breaker.pendingHalfOpenRequests - 1
        slidingWindow := s.breaker.slidingWindow.addEvent s.breaker.windowOptions s.now } } :=
    ⟨by dsimp only; omega, by dsimp only; omega, CircuitBreakerState.noConfusion,
      CircuitBreakerState.noConfusion⟩
  exact ⟨⟨fun _ hne => (hne rfl).elim, fun _ => CircuitBreakerState.noConfusion,
    hbalanced.running⟩, hbalanced⟩

theorem countSuccess_cases (s : BreakerRun) (call : BreakerCall) :
    (s.breaker.state = .halfOpen ∧ call.period = s.period ∧
      s.countSuccess call = { s with own := s.own + 1 }) ∨
    (s.breaker.state = .halfOpen ∧ call.period ≠ s.period ∧
      s.countSuccess call = { s with late := s.late + 1 }) ∨
    (s.breaker.state ≠ .halfOpen ∧ s.countSuccess call = s) := by
  rw [countSuccess]
  split_ifs with hstate hperiod
  · exact Or.inl ⟨hstate, hperiod, rfl⟩
  · exact Or.inr (Or.inl ⟨hstate, hperiod, rfl⟩)
  · exact Or.inr (Or.inr ⟨hstate, rfl⟩)

theorem balanced_resume_succeeded (h : Balanced s) (hcall : call ∈ s.calls)
    (hhalf : call.halfOpen = true) : Balanced (s.resume call true) := by
  have hperm := (List.perm_cons_erase hcall).countP_eq (·.halfOpen)
  rw [List.countP_cons, if_pos hhalf] at hperm
  have hpending := h.pending
  have hmost := h.most
  rw [resume]
  simp only [hhalf, and_self, if_true, CircuitBreaker.finishHalfOpen_succeeded]
  rcases s.countSuccess_cases call with ⟨hstate, -, heq⟩ | ⟨hstate, -, heq⟩ | ⟨hstate, heq⟩
  -- the function is no longer running, in whichever period it counts
  all_goals
    rw [heq]
    split_ifs with hreached
    · exact ⟨by dsimp only; omega, by dsimp only; omega, CircuitBreakerState.noConfusion,
        CircuitBreakerState.noConfusion⟩
    · refine ⟨by dsimp only; omega, by dsimp only; omega, fun hs' => ?_, fun hs' hpos => ?_⟩
      · have hcounted := h.counted hs'
        first
        | dsimp only
          omega
        | exact (hstate hs').elim
      · dsimp only at hreached ⊢
        omega

/-- **A success counts towards closing lawfully iff it is not late.** -/
theorem lawful_resume_succeeded_iff (h : Balanced s) (hcall : call ∈ s.calls)
    (hhalf : call.halfOpen = true) : Lawful s (s.resume call true) ↔
      (s.breaker.options.halfOpenRequests ≤ s.breaker.halfOpenCount + 1 →
        s.breaker.state ≠ .opened ∧
          (s.breaker.state = .halfOpen → 0 < s.breaker.options.halfOpenRequests →
            s.late = 0 ∧ call.period = s.period)) := by
  have hbalanced := balanced_resume_succeeded h hcall hhalf
  have hbreaker : (s.resume call true).breaker = s.breaker.finishHalfOpen s.now true := by
    rw [resume]
    simp only [hhalf, and_self, if_true]
    rcases s.countSuccess_cases call with ⟨-, -, heq⟩ | ⟨-, -, heq⟩ | ⟨-, heq⟩ <;> rw [heq]
  have hown : (s.resume call true).own = (s.countSuccess call).own := by
    rw [resume]
    simp only [hhalf, and_self, if_true]
  rw [CircuitBreaker.finishHalfOpen_succeeded] at hbreaker
  -- only a success that reaches the number changes the state
  by_cases hreached : s.breaker.options.halfOpenRequests ≤ s.breaker.halfOpenCount + 1
  · rw [if_pos hreached] at hbreaker
    have hclosed : (s.resume call true).breaker.state = .closed := by rw [hbreaker]
    rcases hstate : s.breaker.state with _ | _ | _
    · refine iff_of_true (.of_state_eq (hclosed.trans hstate.symm) (by rw [hbreaker]) hbalanced)
        fun _ => ⟨CircuitBreakerState.noConfusion, CircuitBreakerState.noConfusion⟩
    · -- open: the success of an earlier period would close the breaker
      refine iff_of_false (fun hlawful => ?_) fun hnot => (hnot hreached).1 rfl
      have := (hlawful.leavesOpen hstate (by rw [hclosed]; exact CircuitBreakerState.noConfusion)).1
      rw [hclosed] at this
      cases this
    · have hcounted := h.counted hstate
      have hbelow := h.below hstate
      -- half-open: the number is reached by successes of this period alone
      have hiff : s.breaker.options.halfOpenRequests ≤ (s.resume call true).own ↔
          (0 < s.breaker.options.halfOpenRequests → s.late = 0 ∧ call.period = s.period) := by
        rw [hown]
        rcases s.countSuccess_cases call with ⟨-, hperiod, heq⟩ | ⟨-, hperiod, heq⟩ | ⟨hne, -⟩
        · rw [heq]
          dsimp only
          omega
        · rw [heq]
          dsimp only
          omega
        · exact (hne hstate).elim
      constructor
      · intro hlawful _
        refine ⟨CircuitBreakerState.noConfusion, fun _ => hiff.mp ?_⟩
        exact (hlawful.closes (by rw [hstate]; exact CircuitBreakerState.noConfusion) hclosed).2
      · intro hnot
        refine ⟨fun hopen => ?_, fun _ _ => ⟨hstate, hiff.mpr ((hnot hreached).2 rfl)⟩, ?_⟩
        · rw [hstate] at hopen
          cases hopen
        · have hrunning := hbalanced.running
          rw [hbreaker] at hrunning
          exact hrunning
  · rw [if_neg hreached] at hbreaker
    exact iff_of_true (.of_state_eq (by rw [hbreaker]) (by rw [hbreaker]) hbalanced)
      fun h => (hreached h).elim

theorem lawful_step_iff {e : BreakerEvent} (h : Balanced s) (hstep : s.step e = .ok s') :
    (Lawful s s' ↔ NotLate s e) ∧ Balanced s' := by
  cases e with
  | execute =>
    cases hstep
    exact ⟨iff_of_true (lawful_execute h).1 trivial, (lawful_execute h).2⟩
  | settle call succeeded =>
    obtain ⟨⟨hcall, -⟩, rfl⟩ := onlyIf_eq_ok.mp hstep
    exact ⟨iff_of_true (lawful_settle h hcall).1 trivial, (lawful_settle h hcall).2⟩
  | resume call =>
    rw [step] at hstep
    rcases hresult : call.result with _ | succeeded
    · simp [hresult] at hstep
    rw [hresult] at hstep
    obtain ⟨hcall, rfl⟩ := onlyIf_eq_ok.mp hstep
    rw [NotLate, hresult]
    rcases hhalf : call.halfOpen with _ | _
    · obtain ⟨hlawful, hbalanced⟩ := lawful_resume_closed succeeded h hcall hhalf
      exact ⟨iff_of_true hlawful (by simp), hbalanced⟩
    · cases succeeded with
      | false =>
        obtain ⟨hlawful, hbalanced⟩ := lawful_resume_failed h hcall hhalf
        exact ⟨iff_of_true hlawful (by simp), hbalanced⟩
      | true =>
        refine ⟨?_, balanced_resume_succeeded h hcall hhalf⟩
        rw [lawful_resume_succeeded_iff h hcall hhalf]
        simp
  | clock now =>
    cases hstep
    have hbalanced : Balanced { s with now } := ⟨h.pending, h.most, h.counted, h.below⟩
    exact ⟨iff_of_true (.of_state_eq rfl rfl hbalanced) trivial, hbalanced⟩

end Steps

/-- **Every step of a run is lawful iff no success that closes the breaker is
late or was counted with a late one.** -/
theorem lawful_iff (options : CircuitBreakerOptions) (events : List BreakerEvent) :
    Along step (fun s _ s' => Lawful s s') (start options) events ↔
      Along step (fun s e _ => NotLate s e) (start options) events :=
  Along.iff_of_step (I := Balanced) (V := fun _ _ _ => True)
    (fun _ _ _ hs hstep _ => (lawful_step_iff hs hstep).1)
    (fun _ _ _ hs hstep _ _ => (lawful_step_iff hs hstep).2) (balanced_start options)
    (Along.always (fun _ _ _ => trivial) _ _)

/-- Two functions are started while the breaker is closed.  The first one fails
and opens it; after the timeout a third one is started half open; the second one
fails late and opens the breaker again; and the success of the third closes it,
no time after that failure. -/
def lateResults : List BreakerEvent :=
  let early : BreakerCall := { halfOpen := false, period := 0 }
  let probe : BreakerCall := { halfOpen := true, period := 1 }
  [.execute, .execute, .settle early false, .resume { early with result := some false },
    .clock 1000, .execute, .settle early false, .resume { early with result := some false },
    .settle probe true, .resume { probe with result := some true }]

theorem not_lawful_lateResults : ¬ Along step (fun s _ s' => Lawful s s')
    (start { timeout := 1000, maxFailures := 1, halfOpenRequests := 1, failureWindow := 10000 })
    lateResults := by
  intro h
  have hopen : Along step (fun s _ s' =>
      s.breaker.state = .opened → s'.breaker.state = .opened ∨ s'.breaker.state = .halfOpen)
      (start { timeout := 1000, maxFailures := 1, halfOpenRequests := 1, failureWindow := 10000 })
      lateResults :=
    h.mono fun s _ s' hr hs =>
      or_iff_not_imp_left.mpr fun hne => (hr.leavesOpen hs hne).1
  exact absurd hopen (by decide)

end BreakerRun

end N8n
