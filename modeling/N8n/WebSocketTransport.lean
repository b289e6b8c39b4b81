/-
The transport over a web socket: `connect`, `disconnect` and the automatic reconnection.

The events of the sockets, the connection timeouts and the reconnect timers come in any order.  An
attempt is a call of `doConnect`, with its promise, its timeout and its socket; the handlers of each
socket act on the fields of the transport.

* `step` — one call or one event;
* `Correct` — what the transport promises of a step.
-/
import N8n.Runs

namespace N8n

/-- `CONNECTING`, `OPEN`, `CLOSING` and `CLOSED`. -/
inductive ReadyState where
  | connecting
  | opened
  | closing
  | closed
  deriving DecidableEq, Repr

inductive ConnectionPromise where
  | pending
  | resolved
  | rejected (message : String)
  deriving DecidableEq, Repr

/-- A call of `doConnect`.  The socket of one that could not make it counts as closed. -/
structure ConnectAttempt where
  byTimer : Bool
  promise : ConnectionPromise
  /-- `timeoutId` is not cleared and did not fire. -/
  timeout : Bool
  readyState : ReadyState
  /-- The handlers of the socket were not taken away. -/
  handlers : Bool
  deriving DecidableEq, Repr

namespace ConnectAttempt
variable (a : ConnectAttempt)

/-- `resolve()` and `reject(error)`: only the first counts. -/
def settle (promise : ConnectionPromise) : ConnectAttempt :=
  if a.promise = .pending then { a with promise } else a

def clearTimeout : ConnectAttempt := { a with timeout := false }

/-- `ws.close()`. -/
def close : ConnectAttempt :=
  match a.readyState with
  | .connecting => { a with readyState := .closing }
  | .opened => { a with readyState := .closing }
  | _ => a

/-- The socket is connecting or open, with handlers. -/
def Usable : Prop :=
  a.handlers = true ∧ (a.readyState = .connecting ∨ a.readyState = .opened)

/-- The socket can still call its handlers. -/
def Live : Prop := a.handlers = true ∧ a.readyState ≠ .closed

instance (a : ConnectAttempt) : Decidable a.Live := inferInstanceAs (Decidable (_ ∧ _))

end ConnectAttempt

/-- What the handlers of the user are called with. -/
inductive TransportNotice where
  | connection (connected : Bool)
  | error (message : String)
  | received
  deriving DecidableEq, Repr

/-- A call of `connect`: it returned at once, or awaits the promise of an attempt. -/
inductive ConnectCall where
  | done
  | awaits (attempt : ℕ)
  deriving DecidableEq, Repr

structure WebSocketTransportConfig where
  reconnect : Bool := true
  /-- None is `Infinity`. -/
  maxReconnectAttempts : Option ℕ := none

/-- The fields of the transport, with all attempts and the reconnect timers that are running. -/
structure WebSocketTransport where
  attempts : List ConnectAttempt := []
  timers : List ℕ := []
  ws : Option ℕ := none
  connected : Bool := false
  reconnectAttempts : ℕ := 0
  reconnectTimeout : Option ℕ := none
  shouldReconnect : Bool := false
  isConnecting : Bool := false
  connectionPromise : Option ℕ := none
  /-- All calls of `connect` and of the handlers so far. -/
  calls : List ConnectCall := []
  notices : List TransportNotice := []
  /-- `disconnect` was called after the last `connect`. -/
  disconnected : Bool := false
  deriving DecidableEq

inductive TransportInput where
  /-- `new WebSocket` throws an error with the message, if any. -/
  | connect (failure : Option String)
  | disconnect
  | opens (attempt : ℕ)
  | closes (attempt : ℕ)
  | fails (attempt : ℕ)
  | receives (attempt : ℕ)
  | timesOut (attempt : ℕ)
  | reconnects (timer : ℕ) (failure : Option String)
  deriving DecidableEq

namespace WebSocketTransport
variable (s : WebSocketTransport)

variable (attempt : ℕ)

def modify (f : ConnectAttempt → ConnectAttempt) : WebSocketTransport :=
  { s with attempts := s.attempts.modify attempt f }

def notify (notice : TransportNotice) : WebSocketTransport :=
  { s with notices := s.notices ++ [notice] }

def clearReconnectTimeout : WebSocketTransport :=
  match s.reconnectTimeout with
  | some timer =>
    { s with timers := s.timers.filter (· ≠ timer), reconnectTimeout := none }
  | none => s

/-- The promise of an attempt is rejected; the error of a reconnection is given to the handlers. -/
def reject (message : String) : WebSocketTransport :=
  match s.attempts[attempt]? with
  | some a =>
    let t := s.modify attempt (·.settle (.rejected message))
    if a.promise = .pending ∧ a.byTimer = true then t.notify (.error message) else t
  | none => s

/-- `doConnect`, up to its `await`. -/
def doConnect (byTimer : Bool) (failure : Option String) : WebSocketTransport :=
  match failure with
  | none => { s with
      attempts := s.attempts ++ [⟨byTimer, .pending, true, .connecting, true⟩]
      ws := some s.attempts.length
      isConnecting := true }
  | some message =>
    let t := { s with
      attempts := s.attempts ++ [⟨byTimer, .rejected message, false, .closed, false⟩]
      isConnecting := false }
    if byTimer then t.notify (.error message) else t

variable (config : WebSocketTransportConfig)

def connect (s : WebSocketTransport) (failure : Option String) : WebSocketTransport :=
  let s := { s.clearReconnectTimeout with disconnected := false }
  if s.connected then { s with calls := s.calls ++ [.done] }
  else match s.isConnecting, s.connectionPromise with
    | true, some attempt => { s with calls := s.calls ++ [.awaits attempt] }
    | _, _ =>
      let attempt := s.attempts.length
      { { s with shouldReconnect := config.reconnect }.doConnect false failure with
        connectionPromise := some attempt
        calls := s.calls ++ [.awaits attempt] }

def disconnect : WebSocketTransport :=
  let s := { s.clearReconnectTimeout with shouldReconnect := false, disconnected := true }
  let s := match s.ws with
    | some attempt =>
      { s.modify attempt (fun a => { a.close with handlers := false }) with ws := none }
    | none => s
  let s := if s.connected then { s with connected := false }.notify (.connection false) else s
  { s with isConnecting := false, connectionPromise := none }

/-- `scheduleReconnect`.  A timer can fire at any time, so its delay is left out. -/
def scheduleReconnect (s : WebSocketTransport) (timer : ℕ) : WebSocketTransport :=
  if config.maxReconnectAttempts.any (· ≤ s.reconnectAttempts) then
    s.notify (.error "Max reconnection attempts reached")
  else { s with
    reconnectAttempts := s.reconnectAttempts + 1
    timers := s.timers ++ [timer]
    reconnectTimeout := some timer }

def onopen : WebSocketTransport :=
  ({ s.modify attempt (·.clearTimeout) with
    connected := true
    isConnecting := false
    reconnectAttempts := 0 }.notify (.connection true)).modify attempt (·.settle .resolved)

def onclose (s : WebSocketTransport) (attempt : ℕ) : WebSocketTransport :=
  let t := { s.modify attempt (·.clearTimeout) with connected := false, isConnecting := false }
  let t := if s.connected then t.notify (.connection false) else t
  -- The timer is new: it is named after the attempt whose socket closed.
  if t.shouldReconnect then t.scheduleReconnect config attempt else t

def onerror : WebSocketTransport :=
  let t := (s.modify attempt (·.clearTimeout)).notify (.error "WebSocket error")
  if t.isConnecting then { t with isConnecting := false }.reject attempt "WebSocket error" else t

/-- `if (this.ws) this.ws.close()`. -/
def closeSocket : WebSocketTransport :=
  match s.ws with
  | some attempt => s.modify attempt (·.close)
  | none => s

def onTimeout : WebSocketTransport :=
  (s.modify attempt (·.clearTimeout)).closeSocket.reject attempt "Connection timeout"

/-- The state of the socket of an attempt changes, and its handler is called if it still has it. -/
def event (a : ConnectAttempt) (readyState : ReadyState)
    (handler : WebSocketTransport → WebSocketTransport) : WebSocketTransport :=
  let t := s.modify attempt fun a => { a with readyState }
  if a.handlers then handler t else t

/-- An event of an attempt, which comes only in some states of it. -/
def onAttempt (possible : ConnectAttempt → Prop)
    [DecidablePred possible] (next : ConnectAttempt → WebSocketTransport) :
    Except Unit WebSocketTransport :=
  match s.attempts[attempt]? with
  | some a => onlyIf (possible a) (next a)
  | none => .error ()

/-- The state after a call or an event, if the event can come: a socket opens only while it
connects, closes once, and does not open after an error. -/
def step (s : WebSocketTransport) : TransportInput → Except Unit WebSocketTransport
  | .connect failure => .ok (s.connect config failure)
  | .disconnect => .ok s.disconnect
  | .opens attempt => s.onAttempt attempt (·.readyState = .connecting) fun a =>
    s.event attempt a .opened (·.onopen attempt)
  | .closes attempt => s.onAttempt attempt (·.readyState ≠ .closed) fun a =>
    s.event attempt a .closed (·.onclose config attempt)
  | .fails attempt => s.onAttempt attempt (·.readyState ≠ .closed) fun a =>
    s.event attempt a .closing (·.onerror attempt)
  | .receives attempt => s.onAttempt attempt (·.readyState = .opened) fun a =>
    s.event attempt a .opened (·.notify .received)
  | .timesOut attempt => s.onAttempt attempt (·.timeout = true) fun _ => s.onTimeout attempt
  | .reconnects timer failure => onlyIf (timer ∈ s.timers)
      ({ s with timers := s.timers.filter (· ≠ timer), reconnectTimeout := none }.doConnect
        true failure)

/-- A call of `connect` whose promise is resolved. -/
def Resolved : ConnectCall → Prop
  | .done => True
  | .awaits attempt => ∃ a, s.attempts[attempt]? = some a ∧ a.promise = .resolved

/-- The state after a step, and what the step did. -/
structure Correct (i : TransportInput) (s' : WebSocketTransport) : Prop where
  /-- One socket at most is neither closing nor closed and has its handlers. -/
  oneSocket : ∀ (j k : ℕ) (a b : ConnectAttempt), s'.attempts[j]? = some a →
    s'.attempts[k]? = some b → a.Usable → b.Usable → j = k
  /-- Promises of `connect` are only resolved when the transport is connected. -/
  connected : ∀ (n : ℕ) (call : ConnectCall), s'.calls[n]? = some call → s'.Resolved call →
    (s.calls[n]? = some call → ¬ s.Resolved call) → s'.connected = true
  /-- For each that is pending, the timeout is running or the socket can still open. -/
  registered : ∀ k : ℕ, .awaits k ∈ s'.calls → ∃ a, s'.attempts[k]? = some a ∧
    (a.promise = .pending → a.timeout = true ∨
      (a.handlers = true ∧ a.readyState = .connecting))
  /-- Between `disconnect` and `connect` no socket is opened and no handler is called. -/
  quiet : s.disconnected = true → (∀ failure, i ≠ .connect failure) →
    s'.attempts.length = s.attempts.length ∧ s'.notices = s.notices

/-- The step meets none of the four bad moments.

A call of `connect` that finds the transport connecting does not find a resolved promise from
before, and one that makes a socket finds no other with handlers that has not closed.  No socket
that `connect` made closes while its promise is pending.  No timeout of a reconnection comes
between `disconnect` and `connect`. -/
def Allowed : TransportInput → Prop
  | .connect _ => s.connected = false →
    (s.isConnecting = true → ∀ attempt ∈ s.connectionPromise, ∀ a ∈ s.attempts[attempt]?,
      a.promise ≠ .resolved) ∧
    ((s.isConnecting = true → s.connectionPromise = none) →
      ∀ attempt ∈ s.ws, ∀ a ∈ s.attempts[attempt]?, ¬ a.Live)
  | .closes attempt => ∀ a ∈ s.attempts[attempt]?,
    a.handlers = true → a.byTimer = false → a.promise ≠ .pending
  | .timesOut attempt => s.disconnected = true →
    ∀ a ∈ s.attempts[attempt]?, a.byTimer = true → a.promise ≠ .pending
  | _ => True

instance (s : WebSocketTransport) : ∀ i, Decidable (Allowed s i)
  | .connect _ => inferInstanceAs (Decidable (_ → _ ∧ _))
  | .closes _ => inferInstanceAs (Decidable (∀ _ ∈ _, _))
  | .timesOut _ => inferInstanceAs (Decidable (_ → _))
  | .disconnect => isTrue trivial
  | .opens _ => isTrue trivial
  | .fails _ => isTrue trivial
  | .receives _ => isTrue trivial
  | .reconnects _ _ => isTrue trivial

end WebSocketTransport

end N8n
