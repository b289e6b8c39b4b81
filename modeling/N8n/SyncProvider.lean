/-
Two sync providers over WebSocket transports.

A provider sends the whole document once, when it starts, and after that each
update of the document while its transport is connected.  The transport connects
again by itself after a loss, and tells the provider nothing.  Documents are sets
of updates that only grow; an update that brings something new is passed on to
the handlers of the document, also where it came from the peer.

* `Transport` — one WebSocket connection with its reconnects;
* `Replica` — a document with its provider and its transport.
-/
import N8n.Runs
import Mathlib.Algebra.Ring.Nat
import Mathlib.Data.Finset.SDiff
import Mathlib.Logic.Function.Basic

namespace N8n

/-- `maxReconnectAttempts` is `none` for `Infinity`; delays are in milliseconds. -/
structure TransportConfig where
  reconnect : Bool := true
  maxReconnectAttempts : Option ℕ := none
  reconnectDelay : ℕ := 1000
  maxReconnectDelay : ℕ := 30000
  reconnectBackoff : ℕ := 2
  deriving DecidableEq, Repr

/-- The socket of a transport; `closing` is one whose connection timed out and was
closed, until its `onclose`. -/
inductive SocketState where
  | none
  | connecting
  | opened
  | closing
  deriving DecidableEq, Repr

inductive PromiseState where
  | pending
  | resolved
  | rejected
  deriving DecidableEq, Repr

structure Transport where
  config : TransportConfig := {}
  ws : SocketState := .none
  connected : Bool := false
  reconnectAttempts : ℕ := 0
  reconnectTimeout : Option ℕ := none
  shouldReconnect : Bool := false
  isConnecting : Bool := false
  connectionPromise : Option PromiseState := none
  deriving DecidableEq, Repr

namespace Transport
variable (t : Transport)

def doConnect : Transport := { t with isConnecting := true, ws := .connecting }

/-- `connect`, with the promise it returns. -/
def connect : Transport × PromiseState :=
  let t := { t with reconnectTimeout := none }
  if t.connected then (t, .resolved)
  else match t.isConnecting, t.connectionPromise with
    | true, some promise => (t, promise)
    | _, _ => ({ t with
      shouldReconnect := t.config.reconnect
      connectionPromise := some .pending }.doConnect, .pending)

def scheduleReconnect : Transport :=
  if ¬ t.shouldReconnect then t
  else if t.config.maxReconnectAttempts.any (· ≤ t.reconnectAttempts) then t
  else
    let delay := min (t.config.reconnectDelay * t.config.reconnectBackoff ^ t.reconnectAttempts)
      t.config.maxReconnectDelay
    { t with reconnectAttempts := t.reconnectAttempts + 1, reconnectTimeout := some delay }

/-- Settle the promise of `connect`, if it is not settled. -/
def settle (promise : PromiseState) : Transport :=
  if t.connectionPromise = some .pending then { t with connectionPromise := some promise } else t

def onopen : Transport :=
  { t with ws := .opened, connected := true, isConnecting := false, reconnectAttempts := 0 }.settle
    .resolved

def onclose : Transport :=
  { t with ws := .none, connected := false, isConnecting := false }.scheduleReconnect

/-- `onerror` of a socket that connects, which closes it as well. -/
def onerror : Transport := (t.settle .rejected).onclose

/-- The connection timeout. -/
def timedOut : Transport := { t with ws := .closing }.settle .rejected

/-- The timer of `scheduleReconnect`. -/
def reconnect : Transport := { t with reconnectTimeout := none }.doConnect

end Transport

/-- A document with its provider and transport.  `subscribed` says that the handlers
of the provider are registered, `starting` is the promise of `connect` for which
`start` waits. -/
structure Replica (α : Type) where
  doc : Finset α := ∅
  subscribed : Bool := false
  syncing : Bool := false
  starting : Option PromiseState := none
  transport : Transport := {}
  deriving DecidableEq

inductive Side where
  | first
  | second
  deriving DecidableEq, Repr

namespace Side

def other : Side → Side
  | first => second
  | second => first

instance {p : Side → Prop} [DecidablePred p] : Decidable (∀ side, p side) :=
  decidable_of_iff (p first ∧ p second)
    ⟨fun h side => by cases side; exacts [h.1, h.2], fun h => ⟨h first, h second⟩⟩

@[simp] theorem other_ne (side : Side) : side.other ≠ side := by
  cases side <;> simp [other]

@[simp] theorem ne_other (side : Side) : side ≠ side.other := side.other_ne.symm

@[simp] theorem other_other (side : Side) : side.other.other = side := by
  cases side <;> rfl

theorem eq_or_eq_other (side side' : Side) : side' = side ∨ side' = side.other := by
  cases side <;> cases side' <;> simp [other]

end Side

/-- The two replicas, the messages on their way to each, and all the edits made. -/
structure SyncRun (α : Type) where
  replica : Side → Replica α
  inFlight : Side → List (Finset α) := fun _ => []
  edits : Finset α := ∅

/-- What can happen: an edit on a side, a call of `start` and what follows its
`await`, what happens to the socket of a side, and what happens to the messages on
their way to a side. -/
inductive SyncInput (α : Type) where
  | edit (side : Side) (update : Finset α)
  | start (side : Side)
  | started (side : Side)
  | opened (side : Side)
  | failed (side : Side)
  | timedOut (side : Side)
  | closed (side : Side)
  | reconnect (side : Side)
  | deliver (side : Side)
  | lose (side : Side) (index : ℕ)
  deriving DecidableEq

namespace SyncRun

variable {α : Type} [DecidableEq α] (s : SyncRun α) (side : Side)

def setReplica (r : Replica α) : SyncRun α :=
  { s with replica := Function.update s.replica side r }

/-- `transport.send`. -/
def send (message : Finset α) : SyncRun α :=
  { s with inFlight := Function.update s.inFlight side.other (s.inFlight side.other ++ [message]) }

/-- `applyUpdate`, and in the same way an edit: what is new in the update is handed
to the provider, which sends it if its transport is connected. -/
def applyUpdate (update : Finset α) : SyncRun α :=
  let r := s.replica side
  let s := s.setReplica side { r with doc := r.doc ∪ update }
  if ¬ update ⊆ r.doc ∧ r.subscribed ∧ r.transport.connected then s.send side (update \ r.doc)
  else s

/-- The promise of `connect` was settled, or not, and `start` throws with it. -/
def awaitConnect (r : Replica α) (transport : Transport) (promise : PromiseState) : Replica α :=
  { r with
    transport
    starting := if promise = .rejected then none else some promise }

/-- `start` up to its `await`. -/
def start : SyncRun α :=
  let r := s.replica side
  if r.syncing then s
  else s.setReplica side (awaitConnect r r.transport.connect.1 r.transport.connect.2)

/-- `start` after its `await`: where the connection is gone already, `send` throws. -/
def started : SyncRun α :=
  let r := { s.replica side with subscribed := true, starting := none }
  if r.transport.connected then (s.setReplica side { r with syncing := true }).send side r.doc
  else s.setReplica side r

/-- Something happens to the socket; a `start` that waits sees the promise settled. -/
def socket (transport : Transport) : SyncRun α :=
  let r := s.replica side
  s.setReplica side (match r.starting, transport.connectionPromise with
    | some .pending, some promise => awaitConnect r transport promise
    | _, _ => { r with transport })

/-- The first message to a side is delivered, to the handlers that are registered. -/
def deliver (message : Finset α) (rest : List (Finset α)) : SyncRun α :=
  let s := { s with inFlight := Function.update s.inFlight side rest }
  if (s.replica side).subscribed then s.applyUpdate side message else s

/-- Whether both transports are connected. -/
def BothConnected : Prop := ∀ side, (s.replica side).transport.connected = true

omit [DecidableEq α] in
instance (s : SyncRun α) : Decidable s.BothConnected := inferInstanceAs (Decidable (∀ _, _))

/-- The run after the input, if it can come in this state.  A message is delivered
to a connected transport, in order; while a connection is lost, any message on its
way may be lost. -/
def step : SyncInput α → Except Unit (SyncRun α)
  | .edit side update => .ok { s.applyUpdate side update with edits := s.edits ∪ update }
  | .start side => onlyIf ((s.replica side).starting = none) (s.start side)
  | .started side => onlyIf ((s.replica side).starting = some .resolved) (s.started side)
  | .opened side => onlyIf ((s.replica side).transport.ws = .connecting)
    (s.socket side (s.replica side).transport.onopen)
  | .failed side => onlyIf ((s.replica side).transport.ws = .connecting)
    (s.socket side (s.replica side).transport.onerror)
  | .timedOut side => onlyIf ((s.replica side).transport.ws = .connecting)
    (s.socket side (s.replica side).transport.timedOut)
  | .closed side => onlyIf ((s.replica side).transport.ws = .opened ∨
      (s.replica side).transport.ws = .closing)
    (s.socket side (s.replica side).transport.onclose)
  | .reconnect side => onlyIf ((s.replica side).transport.reconnectTimeout.isSome)
    (s.socket side (s.replica side).transport.reconnect)
  | .deliver side => match s.inFlight side with
    | message :: rest =>
      onlyIf ((s.replica side).transport.connected = true) (s.deliver side message rest)
    | [] => .error ()
  | .lose side index => onlyIf (¬ s.BothConnected ∧ index < (s.inFlight side).length)
    { s with inFlight := Function.update s.inFlight side ((s.inFlight side).eraseIdx index) }

/-- Two replicas with nothing in common that were not started yet. -/
def init (config : Side → TransportConfig) : SyncRun α :=
  { replica := fun side => { transport := { config := config side } } }

end SyncRun

end N8n
