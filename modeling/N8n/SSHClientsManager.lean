/-
The SSH clients that are shared by their credentials.

A client is registered under the hash of its connection settings.  Its events and the
abort of its controller clean up what is registered under that key, which ends the
client there and aborts its controller; an abort calls the listeners of all clients that
were given the controller.

* **`keepsClients_iff`** — along every run a registration is removed only for reasons of
  its own iff no client has an event while another is registered under its key.
-/
import N8n.Dict
import N8n.Runs

namespace N8n

inductive SSHAuthentication where
  | password (sshPassword : String)
  | privateKey (privateKey : String) (passphrase : Option String)
  deriving DecidableEq

structure SSHCredentials where
  sshHost : String
  sshPort : ℕ
  sshUser : String
  sshAuthenticateWith : SSHAuthentication
  deriving DecidableEq

structure ConnectConfig where
  host : String
  port : ℕ
  username : String
  password : Option String := none
  privateKey : Option String := none
  passphrase : Option String := none
  deriving DecidableEq

def SSHCredentials.sshConfig (credentials : SSHCredentials) : ConnectConfig :=
  match credentials.sshAuthenticateWith with
  | .password sshPassword =>
    { host := credentials.sshHost, port := credentials.sshPort, username := credentials.sshUser,
      password := some sshPassword }
  | .privateKey privateKey passphrase =>
    { host := credentials.sshHost, port := credentials.sshPort, username := credentials.sshUser,
      privateKey := some privateKey, passphrase }

/-- A controller that a caller passed, or the one that was made for a client. -/
inductive AbortController where
  | given (controller : ℕ)
  | made (client : ℕ)
  deriving DecidableEq, Repr

inductive ReturnPromise where
  | pending
  | resolved
  | rejected
  deriving DecidableEq, Repr

/-- A client with what its listeners captured; `ended` counts the calls of `end`. -/
structure SSHClient where
  credentials : SSHCredentials
  abortController : AbortController
  returnPromise : ReturnPromise := .pending
  ended : ℕ := 0
  deriving DecidableEq

structure Registration where
  client : ℕ
  lastUsed : ℕ
  abortController : AbortController
  deriving DecidableEq

inductive SSHClientEvent where
  | ready
  | error
  | socketEnd
  | socketClose
  deriving DecidableEq, Repr

/-- The registrations by their keys, the clients in the order of their creation, and the
controllers that were aborted. -/
structure SSHClientsManager where
  clients : Dict String Registration := .empty
  created : List SSHClient := []
  aborted : List AbortController := []
  deriving DecidableEq

inductive SSHClientsInput where
  | getClient (credentials : SSHCredentials) (abortController : Option ℕ) (now : ℕ)
  | updateLastUsed (client now : ℕ)
  | event (client : ℕ) (event : SSHClientEvent)
  | abort (controller : AbortController)
  | cleanupStaleConnections (now : ℕ)
  | onShutdown
  deriving DecidableEq

/-- A promise settles once. -/
def ReturnPromise.settle (result : ReturnPromise) : ReturnPromise → ReturnPromise
  | pending => result
  | settled => settled

namespace SSHClientsManager

variable (hash : ConnectConfig → String) (idleTimeout : ℕ)

def clientHash (credentials : SSHCredentials) : String := hash credentials.sshConfig

variable (s : SSHClientsManager)

def modifyClient (client : ℕ) (f : SSHClient → SSHClient) : SSHClientsManager :=
  { s with created := s.created.modify client f }

def remove (key : String) (client : ℕ) : SSHClientsManager :=
  { s with clients := s.clients.erase key }.modifyClient client fun c =>
    { c with ended := c.ended + 1 }

def markAborted (controller : AbortController) : SSHClientsManager :=
  { s with aborted := controller :: s.aborted }

/-- The keys that the listeners on the signal of a controller have captured. -/
def abortListeners (controller : AbortController) : List String :=
  (s.created.filter fun c => decide (c.abortController = controller)).map fun c =>
    clientHash hash c.credentials

/-- `cleanupClient`: aborting a controller calls its listeners before it returns.  Each
call in the depth has deleted a registration, so there are at most as many. -/
def cleanupClient : ℕ → SSHClientsManager → String → SSHClientsManager
  | 0, s, _ => s
  | depth + 1, s, key => match s.clients.get? key with
    | none => s
    | some registration =>
      let s := s.remove key registration.client
      if registration.abortController ∈ s.aborted then s
      else
        let s := s.markAborted registration.abortController
        (s.abortListeners hash registration.abortController).foldl (cleanupClient depth) s

def cleanup (key : String) : SSHClientsManager :=
  cleanupClient hash s.clients.keys.length s key

def abort (controller : AbortController) : SSHClientsManager :=
  if controller ∈ s.aborted then s
  else
    let s := s.markAborted controller
    (s.abortListeners hash controller).foldl (cleanup hash) s

def setRegistration (key : String) (registration : Registration) : SSHClientsManager :=
  { s with clients := s.clients.set key registration }

def create (credentials : SSHCredentials)
    (abortController : AbortController) (now : ℕ) : SSHClientsManager :=
  let client : SSHClient := { credentials, abortController }
  { s with created := s.created ++ [client] }.setRegistration (clientHash hash credentials)
    { client := s.created.length, lastUsed := now, abortController }

def getClient (credentials : SSHCredentials)
    (abortController : Option ℕ) (now : ℕ) : SSHClientsManager × ℕ :=
  let key := clientHash hash credentials
  match s.clients.get? key with
  | some existing => (s.setRegistration key { existing with lastUsed := now }, existing.client)
  | none =>
    let client := s.created.length
    let abortController := match abortController with
      | some controller => .given controller
      | none => .made client
    (s.create hash credentials abortController now, client)

/-- `clientsReversed` knows the key of each client that was created. -/
def updateLastUsed (client now : ℕ) : SSHClientsManager :=
  match s.created[client]? with
  | none => s
  | some c =>
    let key := clientHash hash c.credentials
    match s.clients.get? key with
    | none => s
    | some registration => s.setRegistration key { registration with lastUsed := now }

def handle (client : ℕ) (c : SSHClient) : SSHClientEvent → SSHClientsManager
  | .ready => s.modifyClient client fun c =>
    { c with returnPromise := ReturnPromise.resolved.settle c.returnPromise }
  | .error => (s.cleanup hash (clientHash hash c.credentials)).modifyClient client fun c =>
    { c with returnPromise := ReturnPromise.rejected.settle c.returnPromise }
  | .socketEnd => s.cleanup hash (clientHash hash c.credentials)
  | .socketClose => s.cleanup hash (clientHash hash c.credentials)

def Stale (now : ℕ) (registration : Registration) : Prop :=
  idleTimeout * 1000 < now - registration.lastUsed

instance (now : ℕ) (registration : Registration) : Decidable (Stale idleTimeout now registration) :=
  inferInstanceAs (Decidable (_ < _))

def cleanupStaleConnections (now : ℕ) : SSHClientsManager :=
  ((s.clients.entries.filter fun e => decide (Stale idleTimeout now e.2)).map Prod.fst).foldl
    (cleanup hash) s

def onShutdown : SSHClientsManager :=
  s.clients.keys.foldl (cleanup hash) s

/-- The state after the input; only a client that was created has events. -/
def step : SSHClientsInput → Except Unit SSHClientsManager
  | .getClient credentials abortController now =>
    .ok (s.getClient hash credentials abortController now).1
  | .updateLastUsed client now => .ok (s.updateLastUsed hash client now)
  | .event client event => match s.created[client]? with
    | none => .error ()
    | some c => .ok (s.handle hash client c event)
  | .abort controller => .ok (s.abort hash controller)
  | .cleanupStaleConnections now => .ok (s.cleanupStaleConnections hash idleTimeout now)
  | .onShutdown => .ok (s.onShutdown hash)

/-! ### Reasons to remove a registration -/

/-- The client is the registered one for its credentials. -/
def Registered (client : ℕ) : Prop :=
  client ∈ s.clients.values.map (·.client)

instance (s : SSHClientsManager) (client : ℕ) : Decidable (s.Registered client) :=
  inferInstanceAs (Decidable (_ ∈ _))

/-- The input is an event of the registered client, an abort of its controller, its idle
timeout, or a shutdown. -/
def OwnReason (registration : Registration) : SSHClientsInput → Prop
  | .event client event => client = registration.client ∧ event ≠ .ready
  | .abort controller => controller = registration.abortController
  | .cleanupStaleConnections now => Stale idleTimeout now registration
  | .onShutdown => True
  | _ => False

instance (registration : Registration) (input : SSHClientsInput) :
    Decidable (OwnReason idleTimeout registration input) := by
  cases input <;> unfold OwnReason <;> infer_instance

/-- A registration is removed for a reason of its own, or because a cleanup that had one
aborted the controller they share. -/
def RemovedForOwnReason (input : SSHClientsInput) (s' : SSHClientsManager) : Prop :=
  ∀ r ∈ s.clients.values, s'.Registered r.client ∨
    ∃ r' ∈ s.clients.values, OwnReason idleTimeout r' input ∧
      r'.abortController = r.abortController

instance (s : SSHClientsManager) (input : SSHClientsInput) (s' : SSHClientsManager) :
    Decidable (RemovedForOwnReason idleTimeout s input s') :=
  inferInstanceAs (Decidable (∀ _ ∈ _, _ ∨ ∃ _ ∈ _, _))

/-- What every step does to the clients. -/
structure KeepsClients (input : SSHClientsInput) (s' : SSHClientsManager) : Prop where
  removed : RemovedForOwnReason idleTimeout s input s'
  /-- A controller is aborted by its abort, or with a registration it belongs to. -/
  aborted : ∀ controller ∈ s'.aborted, controller ∈ s.aborted ∨ input = .abort controller ∨
    ∃ r ∈ s.clients.values, r.abortController = controller ∧ ¬ s'.Registered r.client
  /-- At most one client is registered for the same credentials. -/
  one : ∀ (i j : ℕ) (c d : SSHClient), s'.created[i]? = some c → s'.created[j]? = some d →
    s'.Registered i → s'.Registered j → c.credentials = d.credentials → i = j
  /-- A client is ended once, when it is not registered any more. -/
  ended : ∀ (i : ℕ) (c : SSHClient), s'.created[i]? = some c →
    c.ended = if s'.Registered i then 0 else 1

/-- An event comes while no other client is registered under the key of its client. -/
def NoSuccessor : SSHClientsInput → Prop
  | .event client event => event ≠ .ready → ∀ c ∈ s.created[client]?,
    ∀ r ∈ s.clients.get? (clientHash hash c.credentials), r.client = client
  | _ => True

/-! ### What a cleanup does -/

section Cleanup

variable {hash idleTimeout} {s t u : SSHClientsManager} {key : String} {client : ℕ}

theorem registered_iff :
    s.Registered client ↔ ∃ k r, s.clients.get? k = some r ∧ r.client = client := by
  rw [Registered, List.mem_map]
  constructor
  · rintro ⟨r, hr, hclient⟩
    obtain ⟨k, hk⟩ := Dict.mem_values_iff.mp hr
    exact ⟨k, r, hk, hclient⟩
  · rintro ⟨k, r, hk, hclient⟩
    exact ⟨r, Dict.mem_values_iff.mpr ⟨k, hk⟩, hclient⟩

variable (hash) in
/-- Registrations and clients belong together. -/
structure Core (s : SSHClientsManager) : Prop where
  registered : ∀ (k : String) (r : Registration), s.clients.get? k = some r →
    ∃ c, s.created[r.client]? = some c ∧ clientHash hash c.credentials = k ∧
      c.abortController = r.abortController
  ended : ∀ (i : ℕ) (c : SSHClient), s.created[i]? = some c →
    c.ended = if s.Registered i then 0 else 1

theorem Core.key_eq (hs : Core hash s) {k k' : String} {r r' : Registration}
    (h : s.clients.get? k = some r) (h' : s.clients.get? k' = some r')
    (hclient : r'.client = r.client) : k' = k := by
  obtain ⟨c, hc, hkey, -⟩ := hs.registered k r h
  obtain ⟨c', hc', hkey', -⟩ := hs.registered k' r' h'
  rw [hclient, hc, Option.some.injEq] at hc'
  rw [← hkey, ← hkey', hc']

/-- A cleanup only removes, and what it removes has its controller aborted. -/
structure Shrinks (s t : SSHClientsManager) : Prop where
  clients : ∀ (k : String) (r : Registration), t.clients.get? k = some r →
    s.clients.get? k = some r
  created : ∀ (i : ℕ) (c : SSHClient), t.created[i]? = some c → ∃ d, s.created[i]? = some d ∧
    d.credentials = c.credentials ∧ d.abortController = c.abortController
  aborted : ∀ controller ∈ s.aborted, controller ∈ t.aborted
  removed : ∀ (k : String) (r : Registration), s.clients.get? k = some r →
    t.clients.get? k = none → r.abortController ∈ t.aborted
  marked : ∀ controller ∈ t.aborted, controller ∈ s.aborted ∨ ∃ k r,
    s.clients.get? k = some r ∧ r.abortController = controller ∧ t.clients.get? k = none

theorem Shrinks.refl (s : SSHClientsManager) : Shrinks s s where
  clients := fun _ _ h => h
  created := fun _ c h => ⟨c, h, rfl, rfl⟩
  aborted := fun _ h => h
  removed := fun k r h hnone => by
    rw [h] at hnone
    cases hnone
  marked := fun _ h => .inl h

theorem get?_none_of_shrinks (h : Shrinks s t) {k : String} (hnone : s.clients.get? k = none) :
    t.clients.get? k = none := by
  cases hk : t.clients.get? k with
  | none => rfl
  | some r =>
    rw [h.clients k r hk] at hnone
    cases hnone

theorem Shrinks.get? (h : Shrinks s t) {k : String} {r : Registration}
    (hk : s.clients.get? k = some r) : t.clients.get? k = some r ∨ t.clients.get? k = none := by
  cases ht : t.clients.get? k with
  | none => exact .inr rfl
  | some r' => exact .inl ((h.clients k r' ht).symm.trans hk)

theorem Shrinks.trans (h : Shrinks s t) (h' : Shrinks t u) : Shrinks s u where
  clients := fun k r hk => h.clients k r (h'.clients k r hk)
  created := fun i c hc => by
    obtain ⟨d, hd, hcredentials, hcontroller⟩ := h'.created i c hc
    obtain ⟨e, he, hcredentials', hcontroller'⟩ := h.created i d hd
    exact ⟨e, he, hcredentials'.trans hcredentials, hcontroller'.trans hcontroller⟩
  aborted := fun controller hc => h'.aborted controller (h.aborted controller hc)
  removed := fun k r hk hnone => by
    rcases h.get? hk with ht | ht
    · exact h'.removed k r ht hnone
    · exact h'.aborted _ (h.removed k r hk ht)
  marked := fun controller hc => by
    rcases h'.marked controller hc with hc | ⟨k, r, hk, hcontroller, hnone⟩
    · rcases h.marked controller hc with hc | ⟨k, r, hk, hcontroller, hnone⟩
      · exact .inl hc
      · exact .inr ⟨k, r, hk, hcontroller, get?_none_of_shrinks h' hnone⟩
    · exact .inr ⟨k, r, h.clients k r hk, hcontroller, hnone⟩

theorem created_remove {i : ℕ} {c : SSHClient}
    (h : (s.remove key client).created[i]? = some c) :
    ∃ d, s.created[i]? = some d ∧ d.credentials = c.credentials ∧
      d.abortController = c.abortController ∧
      c.ended = if client = i then d.ended + 1 else d.ended := by
  rw [remove, modifyClient, List.getElem?_modify] at h
  cases hd : s.created[i]? with
  | none =>
    rw [hd] at h
    cases h
  | some d =>
    rw [hd] at h
    obtain rfl := Option.some.inj h
    refine ⟨d, rfl, ?_⟩
    split <;> exact ⟨rfl, rfl, rfl⟩

theorem get?_remove {k : String} :
    (s.remove key client).clients.get? k = if k = key then none else s.clients.get? k :=
  Dict.get?_erase ..

theorem get?_of_get?_remove {k : String} {r : Registration}
    (h : (s.remove key client).clients.get? k = some r) :
    k ≠ key ∧ s.clients.get? k = some r := by
  rw [get?_remove] at h
  split at h
  · cases h
  · rename_i hne
    exact ⟨hne, h⟩

theorem Core.registered_remove (hs : Core hash s) {r : Registration}
    (hr : s.clients.get? key = some r) {i : ℕ} :
    (s.remove key r.client).Registered i ↔ s.Registered i ∧ i ≠ r.client := by
  rw [registered_iff, registered_iff]
  constructor
  · rintro ⟨k, r', hk, rfl⟩
    obtain ⟨hne, hk⟩ := get?_of_get?_remove hk
    exact ⟨⟨k, r', hk, rfl⟩, fun hclient => hne (hs.key_eq hr hk hclient)⟩
  · rintro ⟨⟨k, r', hk, rfl⟩, hne⟩
    refine ⟨k, r', ?_, rfl⟩
    rw [get?_remove, if_neg]
    · exact hk
    · rintro rfl
      rw [hr, Option.some.injEq] at hk
      exact hne (congrArg Registration.client hk.symm)

theorem Core.remove (hs : Core hash s) {r : Registration} (hr : s.clients.get? key = some r) :
    Core hash (s.remove key r.client) where
  registered := fun k r' hk => by
    obtain ⟨hne, hk⟩ := get?_of_get?_remove hk
    obtain ⟨c, hc, hkey, hcontroller⟩ := hs.registered k r' hk
    have hother : r.client ≠ r'.client := fun h => hne (hs.key_eq hr hk h.symm)
    refine ⟨c, ?_, hkey, hcontroller⟩
    rw [SSHClientsManager.remove, modifyClient, List.getElem?_modify_ne _ _ hother]
    exact hc
  ended := fun i c hc => by
    obtain ⟨d, hd, -, -, hcount⟩ := created_remove hc
    have hended := hs.ended i d hd
    rw [hcount]
    by_cases hi : r.client = i
    · subst hi
      rw [if_pos (registered_iff.mpr ⟨key, r, hr, rfl⟩)] at hended
      rw [if_pos rfl, if_neg fun h => ((hs.registered_remove hr).mp h).2 rfl, hended]
    · rw [if_neg hi, hended]
      have hiff : (s.remove key r.client).Registered i ↔ s.Registered i :=
        (hs.registered_remove hr).trans (and_iff_left (Ne.symm hi))
      rw [if_congr hiff rfl rfl]

theorem shrinks_remove {r : Registration} (hr : s.clients.get? key = some r)
    {aborted : List AbortController} (hsub : ∀ controller ∈ s.aborted, controller ∈ aborted)
    (hmem : r.abortController ∈ aborted)
    (hmarked : ∀ controller ∈ aborted, controller ∈ s.aborted ∨ r.abortController = controller) :
    Shrinks s { s.remove key r.client with aborted } where
  clients := fun k r' h => by
    have h : (s.remove key r.client).clients.get? k = some r' := h
    exact (get?_of_get?_remove h).2
  created := fun i c h => by
    obtain ⟨d, hd, hcredentials, hcontroller, -⟩ := created_remove h
    exact ⟨d, hd, hcredentials, hcontroller⟩
  aborted := hsub
  removed := fun k r' hk hnone => by
    have hnone : (s.remove key r.client).clients.get? k = none := hnone
    rw [get?_remove] at hnone
    split at hnone
    · rename_i heq
      rw [heq, hr, Option.some.injEq] at hk
      exact hk ▸ hmem
    · rw [hk] at hnone
      cases hnone
  marked := fun controller hc => (hmarked controller hc).imp_right fun hcontroller =>
    ⟨key, r, hr, hcontroller, Dict.get?_erase_self ..⟩

theorem Core.setAborted (hs : Core hash s) (aborted : List AbortController) :
    Core hash { s with aborted } :=
  ⟨hs.registered, hs.ended⟩

theorem Core.markAborted (hs : Core hash s) (controller : AbortController) :
    Core hash (s.markAborted controller) :=
  hs.setAborted _

theorem cleanupClient_keeps (depth : ℕ) : ∀ {s : SSHClientsManager} (key : String), Core hash s →
    Core hash (cleanupClient hash depth s key) ∧ Shrinks s (cleanupClient hash depth s key) := by
  induction depth with
  | zero => exact fun _ hs => ⟨hs, Shrinks.refl _⟩
  | succ depth ih =>
    intro s key hs
    rw [cleanupClient]
    cases hr : s.clients.get? key with
    | none => exact ⟨hs, Shrinks.refl _⟩
    | some r =>
      by_cases haborted : r.abortController ∈ s.aborted
      · simp only [if_pos (show r.abortController ∈ (s.remove key r.client).aborted from haborted)]
        exact ⟨hs.remove hr, shrinks_remove hr (fun _ h => h) haborted fun _ h => .inl h⟩
      · simp only [if_neg (show r.abortController ∉ (s.remove key r.client).aborted from haborted)]
        refine List.foldlRecOn (motive := fun t => Core hash t ∧ Shrinks s t) _ _
          ⟨(hs.remove hr).setAborted _, ?_⟩ fun t ht k _ => ?_
        · refine shrinks_remove hr (fun _ h => List.mem_cons_of_mem _ h) List.mem_cons_self ?_
          exact fun _ h => (List.mem_cons.mp h).symm.imp_right Eq.symm
        · obtain ⟨hcore, hshrinks⟩ := ih k ht.1
          exact ⟨hcore, ht.2.trans hshrinks⟩

/-! ### Why a cleanup removes a registration -/

variable (hash) in
/-- While its controller is not aborted, a client is registered. -/
structure Inv (s : SSHClientsManager) : Prop extends Core hash s where
  listening : ∀ (i : ℕ) (c : SSHClient), s.created[i]? = some c →
    c.abortController ∉ s.aborted → s.Registered i

theorem Inv.of_shrinks (hs : Inv hash s) (hcore : Core hash t) (h : Shrinks s t) :
    Inv hash t where
  toCore := hcore
  listening := fun i c hc hcontroller => by
    obtain ⟨d, hd, -, hsame⟩ := h.created i c hc
    rw [← hsame] at hcontroller
    have hregistered := hs.listening i d hd fun hmem => hcontroller (h.aborted _ hmem)
    obtain ⟨k, r, hk, rfl⟩ := registered_iff.mp hregistered
    rcases h.get? hk with hk' | hk'
    · exact registered_iff.mpr ⟨k, r, hk', rfl⟩
    · obtain ⟨d', hd', -, hr⟩ := hs.registered k r hk
      rw [hd, Option.some.injEq] at hd'
      rw [hd', hr] at hcontroller
      exact absurd (h.removed k r hk hk') hcontroller

variable {controller : AbortController}

theorem mem_abortListeners :
    key ∈ s.abortListeners hash controller ↔ ∃ (i : ℕ) (c : SSHClient), s.created[i]? = some c ∧
      c.abortController = controller ∧ clientHash hash c.credentials = key := by
  rw [abortListeners, List.mem_map]
  constructor
  · rintro ⟨c, hc, rfl⟩
    obtain ⟨hmem, hcontroller⟩ := List.mem_filter.mp hc
    obtain ⟨i, hi⟩ := List.mem_iff_getElem?.mp hmem
    exact ⟨i, c, hi, of_decide_eq_true hcontroller, rfl⟩
  · rintro ⟨i, c, hi, rfl, rfl⟩
    exact ⟨c, List.mem_filter.mpr ⟨List.mem_of_getElem? hi, decide_eq_true rfl⟩, rfl⟩

theorem Inv.controller_eq (hs : Inv hash s)
    (hc : controller ∉ s.aborted) (hkey : key ∈ s.abortListeners hash controller)
    {r : Registration} (hr : s.clients.get? key = some r) : r.abortController = controller := by
  obtain ⟨i, c, hi, rfl, rfl⟩ := mem_abortListeners.mp hkey
  obtain ⟨k, r', hk, rfl⟩ := registered_iff.mp (hs.listening i c hi hc)
  obtain ⟨d, hd, hdkey, hdcontroller⟩ := hs.registered k r' hk
  rw [hi, Option.some.injEq] at hd
  subst hd
  rw [← hdkey, hr, Option.some.injEq] at hk
  rw [hk, hdcontroller]

variable {depth : ℕ}

theorem cleanupClient_of_aborted
    (h : ∀ r, s.clients.get? key = some r → r.abortController ∈ s.aborted) :
    cleanupClient hash depth s key = s ∨
      ∃ r, s.clients.get? key = some r ∧
        cleanupClient hash depth s key = s.remove key r.client := by
  cases depth with
  | zero => exact .inl rfl
  | succ depth =>
    rw [cleanupClient]
    cases hr : s.clients.get? key with
    | none => exact .inl rfl
    | some r => exact .inr ⟨r, rfl, if_pos (h r hr)⟩

theorem dispatch_removed {f : SSHClientsManager → String → SSHClientsManager}
    (hf : ∀ t key, ∃ depth, f t key = cleanupClient hash depth t key) (hs : Inv hash s) (hc : controller ∉ s.aborted)
    (hst : ∀ k r, t.clients.get? k = some r → s.clients.get? k = some r)
    (hct : controller ∈ t.aborted) {keys : List String}
    (hkeys : ∀ k ∈ keys, k ∈ s.abortListeners hash controller) {k : String} {r : Registration}
    (hk : t.clients.get? k = some r) (hnone : (keys.foldl f t).clients.get? k = none) :
    r.abortController = controller := by
  have hinv : (∀ k r, (keys.foldl f t).clients.get? k = some r → t.clients.get? k = some r) ∧
      controller ∈ (keys.foldl f t).aborted ∧
      ∀ k r, t.clients.get? k = some r → (keys.foldl f t).clients.get? k = none →
        r.abortController = controller := by
    refine List.foldlRecOn (motive := fun (u : SSHClientsManager) =>
      (∀ k r, u.clients.get? k = some r → t.clients.get? k = some r) ∧
        controller ∈ u.aborted ∧
        ∀ k r, t.clients.get? k = some r → u.clients.get? k = none →
          r.abortController = controller) _ _ ⟨fun _ _ h => h, hct, fun k r hk hnone => ?_⟩ ?_
    · rw [hk] at hnone
      cases hnone
    · intro u hu key hkey
      obtain ⟨hut, hcu, hremoved⟩ := hu
      have howner : ∀ r, u.clients.get? key = some r → r.abortController = controller :=
        fun r hr => hs.controller_eq hc (hkeys key hkey) (hst _ _ (hut _ _ hr))
      obtain ⟨depth, hdepth⟩ := hf u key
      rw [hdepth]
      rcases cleanupClient_of_aborted fun r hr => howner r hr ▸ hcu with heq | ⟨r', hr', heq⟩
      · rw [heq]
        exact ⟨hut, hcu, hremoved⟩
      · rw [heq]
        refine ⟨fun k r h => hut k r (get?_of_get?_remove h).2, hcu, fun k r hk hnone => ?_⟩
        rw [get?_remove] at hnone
        split at hnone
        · rename_i hkeq
          rw [hkeq, hut key r' hr', Option.some.injEq] at hk
          exact hk ▸ howner r' hr'
        · exact hremoved k r hk hnone
  exact hinv.2.2 k r hk hnone

theorem cleanupClient_removed (hs : Inv hash s) {k : String} {r : Registration}
    (hk : s.clients.get? k = some r)
    (hnone : (cleanupClient hash depth s key).clients.get? k = none) :
    ∃ r', s.clients.get? key = some r' ∧ r'.abortController = r.abortController := by
  cases depth with
  | zero =>
    rw [cleanupClient, hk] at hnone
    cases hnone
  | succ depth =>
    rw [cleanupClient] at hnone
    cases hr : s.clients.get? key with
    | none =>
      rw [hr] at hnone
      exact absurd (hk.symm.trans hnone) (by simp)
    | some r' =>
      refine ⟨r', rfl, ?_⟩
      simp only [hr] at hnone
      by_cases hkey : k = key
      · rw [hkey, hr, Option.some.injEq] at hk
        rw [hk]
      · have hkept : (s.remove key r'.client).clients.get? k = some r := by
          rw [get?_remove, if_neg hkey]
          exact hk
        split at hnone
        · rw [hkept] at hnone
          cases hnone
        · rename_i haborted
          refine (dispatch_removed (t := (s.remove key r'.client).markAborted r'.abortController)
            (fun _ _ => ⟨depth, rfl⟩) hs haborted (fun k r h => ?_) List.mem_cons_self
            (fun k hmem => ?_) hkept hnone).symm
          · have h : (s.remove key r'.client).clients.get? k = some r := h
            exact (get?_of_get?_remove h).2
          · obtain ⟨i, c, hc, hcontroller, hckey⟩ := mem_abortListeners.mp hmem
            obtain ⟨d, hd, hcredentials, hsame, -⟩ := created_remove hc
            exact mem_abortListeners.mpr ⟨i, d, hd, hsame.trans hcontroller, hcredentials ▸ hckey⟩

theorem Core.not_registered (hs : Core hash s) (h : Shrinks s t) {k : String} {r : Registration}
    (hk : s.clients.get? k = some r) (hnone : t.clients.get? k = none) :
    ¬ t.Registered r.client := by
  intro hregistered
  obtain ⟨k', r', hk', hclient⟩ := registered_iff.mp hregistered
  rw [← hs.key_eq hk (h.clients k' r' hk') hclient, hk'] at hnone
  cases hnone

variable (hash) in
/-- The state after cleanups, the first of each because of a registration with `P`. -/
structure Cleans (P : Registration → Prop) (s t : SSHClientsManager) : Prop where
  inv : Inv hash t
  shrinks : Shrinks s t
  reason : ∀ (k : String) (r : Registration), s.clients.get? k = some r →
    t.clients.get? k = none → ∃ k' r', s.clients.get? k' = some r' ∧ P r' ∧
      r'.abortController = r.abortController

theorem Cleans.refl (P : Registration → Prop) (hs : Inv hash s) : Cleans hash P s s where
  inv := hs
  shrinks := Shrinks.refl s
  reason := fun _ _ hk hnone => by
    rw [hk] at hnone
    cases hnone

theorem cleans_cleanup (hs : Inv hash s) (key : String) :
    Cleans hash (fun r => s.clients.get? key = some r) s (s.cleanup hash key) := by
  obtain ⟨hcore, hshrinks⟩ := cleanupClient_keeps s.clients.keys.length key hs.toCore
  refine ⟨hs.of_shrinks hcore hshrinks, hshrinks, fun k r hk hnone => ?_⟩
  obtain ⟨r', hr', hcontroller⟩ := cleanupClient_removed hs hk hnone
  exact ⟨key, r', hr', hr', hcontroller⟩

theorem cleans_foldl (hs : Inv hash s) (keys : List String) :
    Cleans hash (fun r => ∃ key ∈ keys, s.clients.get? key = some r) s
      (keys.foldl (cleanup hash) s) := by
  refine List.foldlRecOn (motive := fun (t : SSHClientsManager) =>
    Cleans hash (fun r => ∃ key ∈ keys, s.clients.get? key = some r) s t) _ _
    (Cleans.refl _ hs) fun t ht key hkey => ?_
  have hnext := cleans_cleanup ht.inv key
  refine ⟨hnext.inv, ht.shrinks.trans hnext.shrinks, fun k r hk hnone => ?_⟩
  rcases ht.shrinks.get? hk with htk | htk
  · obtain ⟨k', r', hk', hr', hcontroller⟩ := hnext.reason k r htk hnone
    exact ⟨k', r', ht.shrinks.clients k' r' hk', ⟨key, hkey, ht.shrinks.clients key r' hr'⟩,
      hcontroller⟩
  · exact ht.reason k r hk htk

theorem get?_foldl_cleanupClient (hs : Core hash s)
    (hnone : s.clients.get? key = none) (keys : List String) :
    (keys.foldl (cleanupClient hash depth) s).clients.get? key = none := by
  refine (List.foldlRecOn (motive := fun (t : SSHClientsManager) => Core hash t ∧
    t.clients.get? key = none) keys (cleanupClient hash depth) ⟨hs, hnone⟩ ?_).2
  intro t ht k _
  obtain ⟨hcore, hshrinks⟩ := cleanupClient_keeps depth k ht.1
  exact ⟨hcore, get?_none_of_shrinks hshrinks ht.2⟩

theorem get?_cleanup (hs : Inv hash s) (key : String) :
    (s.cleanup hash key).clients.get? key = none := by
  cases hr : s.clients.get? key with
  | none => exact get?_none_of_shrinks (cleans_cleanup hs key).shrinks hr
  | some r =>
    obtain ⟨n, hn⟩ : ∃ n, s.clients.keys.length = n + 1 :=
      Nat.exists_eq_succ_of_ne_zero (List.length_pos_of_mem (Dict.mem_keys_iff.mpr ⟨r, hr⟩)).ne'
    have hremoved : (s.remove key r.client).clients.get? key = none := by
      rw [get?_remove, if_pos rfl]
    rw [cleanup, hn, cleanupClient]
    simp only [hr]
    split
    · exact hremoved
    · exact get?_foldl_cleanupClient ((hs.remove hr).markAborted r.abortController) hremoved _

end Cleanup

/-! ### One step -/

section Steps

variable {hash idleTimeout} {s t : SSHClientsManager} {key : String} {c : SSHClient}

theorem Core.one (hs : Core hash s) {i j : ℕ} {d : SSHClient} (hc : s.created[i]? = some c)
    (hd : s.created[j]? = some d) (hi : s.Registered i) (hj : s.Registered j)
    (hsame : c.credentials = d.credentials) : i = j := by
  obtain ⟨k, r, hk, rfl⟩ := registered_iff.mp hi
  obtain ⟨k', r', hk', rfl⟩ := registered_iff.mp hj
  obtain ⟨c', hc', rfl, -⟩ := hs.registered k r hk
  obtain ⟨d', hd', rfl, -⟩ := hs.registered k' r' hk'
  rw [hc, Option.some.injEq] at hc'
  rw [hd, Option.some.injEq] at hd'
  rw [← hc', hsame, hd', hk', Option.some.injEq] at hk
  rw [hk]

variable {input : SSHClientsInput}

theorem keepsClients_of_registered (ht : Inv hash t)
    (h : ∀ i, s.Registered i → t.Registered i) (haborted : t.aborted = s.aborted) :
    KeepsClients idleTimeout s input t where
  removed := fun _ hr => .inl (h _ (List.mem_map_of_mem hr))
  aborted := fun _ hc => .inl (haborted ▸ hc)
  one := fun _ _ _ _ => ht.one
  ended := ht.ended

variable {P : Registration → Prop}

theorem Cleans.keepsClients
    (h : Cleans hash P s t) (hs : Inv hash s)
    (hP : ∀ k r, s.clients.get? k = some r → P r → OwnReason idleTimeout r input) :
    KeepsClients idleTimeout s input t where
  removed := fun r hr => by
    obtain ⟨k, hk⟩ := Dict.mem_values_iff.mp hr
    rcases h.shrinks.get? hk with hkept | hnone
    · exact .inl (registered_iff.mpr ⟨k, r, hkept, rfl⟩)
    · obtain ⟨k', r', hk', hr', hcontroller⟩ := h.reason k r hk hnone
      exact .inr ⟨r', Dict.mem_values_iff.mpr ⟨k', hk'⟩, hP k' r' hk' hr', hcontroller⟩
  aborted := fun controller hc => by
    rcases h.shrinks.marked controller hc with hc | ⟨k, r, hk, hcontroller, hnone⟩
    · exact .inl hc
    · exact .inr (.inr ⟨r, Dict.mem_values_iff.mpr ⟨k, hk⟩, hcontroller,
        hs.not_registered h.shrinks hk hnone⟩)
  one := fun _ _ _ _ => h.inv.one
  ended := h.inv.ended

variable {client : ℕ} {f : SSHClient → SSHClient}

theorem Inv.modifyClient (hs : Inv hash s)
    (hcredentials : ∀ c, (f c).credentials = c.credentials)
    (hcontroller : ∀ c, (f c).abortController = c.abortController)
    (hended : ∀ c, (f c).ended = c.ended) : Inv hash (s.modifyClient client f) := by
  have hcreated : ∀ (i : ℕ) (c : SSHClient), (s.modifyClient client f).created[i]? = some c →
      ∃ d, s.created[i]? = some d ∧ c.abortController = d.abortController ∧
        c.ended = d.ended := by
    intro i c hc
    rw [SSHClientsManager.modifyClient, List.getElem?_modify] at hc
    cases hd : s.created[i]? with
    | none =>
      rw [hd] at hc
      cases hc
    | some d =>
      rw [hd] at hc
      obtain rfl := Option.some.inj hc
      refine ⟨d, rfl, ?_⟩
      split
      · exact ⟨hcontroller d, hended d⟩
      · exact ⟨rfl, rfl⟩
  refine ⟨⟨fun k r hk => ?_, fun i c hc => ?_⟩, fun i c hc hnot => ?_⟩
  · obtain ⟨c, hc, hkey, hsame⟩ := hs.registered k r hk
    rw [SSHClientsManager.modifyClient, List.getElem?_modify, hc]
    refine ⟨_, rfl, ?_⟩
    split
    · rw [hcredentials, hcontroller]
      exact ⟨hkey, hsame⟩
    · exact ⟨hkey, hsame⟩
  · obtain ⟨d, hd, -, hsame⟩ := hcreated i c hc
    exact hsame.trans (hs.ended i d hd)
  · obtain ⟨d, hd, hsame, -⟩ := hcreated i c hc
    exact hs.listening i d hd (hsame ▸ hnot)

variable {r : Registration}

theorem get?_setRegistration {k : String} :
    (s.setRegistration key r).clients.get? k = if k = key then some r else s.clients.get? k :=
  Dict.get?_set ..

theorem registered_setRegistration {i : ℕ} :
    (s.setRegistration key r).Registered i ↔
      i = r.client ∨ ∃ k r', k ≠ key ∧ s.clients.get? k = some r' ∧ r'.client = i := by
  rw [registered_iff]
  constructor
  · rintro ⟨k, r', hk, rfl⟩
    rw [get?_setRegistration] at hk
    split at hk
    · exact .inl (congrArg Registration.client (Option.some.inj hk)).symm
    · rename_i hne
      exact .inr ⟨k, r', hne, hk, rfl⟩
  · rintro (rfl | ⟨k, r', hne, hk, rfl⟩)
    · exact ⟨key, r, by rw [get?_setRegistration, if_pos rfl], rfl⟩
    · exact ⟨k, r', by rw [get?_setRegistration, if_neg hne, hk], rfl⟩

theorem Inv.touch (hs : Inv hash s) (hr : s.clients.get? key = some r)
    (r' : Registration) (hclient : r'.client = r.client)
    (hcontroller : r'.abortController = r.abortController) :
    Inv hash (s.setRegistration key r') ∧
      ∀ i, (s.setRegistration key r').Registered i ↔ s.Registered i := by
  have hiff : ∀ i, (s.setRegistration key r').Registered i ↔ s.Registered i := by
    intro i
    rw [registered_setRegistration, registered_iff, hclient]
    constructor
    · rintro (rfl | ⟨k, r', -, hk, rfl⟩)
      · exact ⟨key, r, hr, rfl⟩
      · exact ⟨k, r', hk, rfl⟩
    · rintro ⟨k, r', hk, rfl⟩
      by_cases hkey : k = key
      · rw [hkey, hr, Option.some.injEq] at hk
        exact .inl (congrArg Registration.client hk.symm)
      · exact .inr ⟨k, r', hkey, hk, rfl⟩
  refine ⟨⟨⟨fun k q hk => ?_, fun i c hc => ?_⟩, fun i c hc hnot => ?_⟩, hiff⟩
  · rw [get?_setRegistration] at hk
    split at hk
    · rename_i heq
      obtain rfl := Option.some.inj hk
      rw [hclient, hcontroller, heq]
      exact hs.registered key r hr
    · exact hs.registered k q hk
  · rw [if_congr (hiff i) rfl rfl]
    exact hs.ended i c hc
  · exact (hiff i).mpr (hs.listening i c hc hnot)

variable {credentials : SSHCredentials} {abortController : AbortController}

theorem created_create
    {now i : ℕ}
    (h : (s.create hash credentials abortController now).created[i]? = some c) :
    s.created[i]? = some c ∨
      i = s.created.length ∧ c = { credentials, abortController } := by
  have h : (s.created ++ [({ credentials, abortController } : SSHClient)])[i]? = some c := h
  rcases Nat.lt_or_ge i s.created.length with hi | hi
  · rw [List.getElem?_append_left hi] at h
    exact .inl h
  · rw [List.getElem?_append_right hi, List.getElem?_singleton] at h
    split at h
    · exact .inr ⟨by omega, (Option.some.inj h).symm⟩
    · cases h

theorem registered_create
    {now i : ℕ} (hnone : s.clients.get? (clientHash hash credentials) = none) :
    (s.create hash credentials abortController now).Registered i ↔
      i = s.created.length ∨ s.Registered i := by
  refine registered_setRegistration.trans (or_congr Iff.rfl ?_)
  rw [registered_iff]
  constructor
  · rintro ⟨k, r, -, hk, hclient⟩
    exact ⟨k, r, hk, hclient⟩
  · rintro ⟨k, r, hk, hclient⟩
    refine ⟨k, r, fun heq => ?_, hk, hclient⟩
    rw [heq, hnone] at hk
    cases hk

theorem Inv.create (hs : Inv hash s)
    (hnone : s.clients.get? (clientHash hash credentials) = none)
    (abortController : AbortController) (now : ℕ) :
    Inv hash (s.create hash credentials abortController now) := by
  refine ⟨⟨fun k r hk => ?_, fun i c hc => ?_⟩, fun i c hc hnot => ?_⟩
  · rw [SSHClientsManager.create, get?_setRegistration] at hk
    split at hk
    · rename_i heq
      obtain rfl := Option.some.inj hk
      exact ⟨{ credentials, abortController }, List.getElem?_concat_length, heq.symm, rfl⟩
    · obtain ⟨c, hc, hkey, hcontroller⟩ := hs.registered k r hk
      refine ⟨c, ?_, hkey, hcontroller⟩
      exact (List.getElem?_append_left (List.getElem?_eq_some_iff.mp hc).1).trans hc
  · rw [if_congr (registered_create hnone) rfl rfl]
    rcases created_create hc with hc | ⟨rfl, rfl⟩
    · have hi := (List.getElem?_eq_some_iff.mp hc).1
      rw [if_congr (or_iff_right hi.ne) rfl rfl]
      exact hs.ended i c hc
    · rw [if_pos (.inl rfl)]
  · rw [registered_create hnone]
    rcases created_create hc with hc | ⟨rfl, rfl⟩
    · exact .inr (hs.listening i c hc hnot)
    · exact .inl rfl

variable (idleTimeout) in
theorem Inv.abort (hs : Inv hash s) (controller : AbortController) :
    Inv hash (s.abort hash controller) ∧
      KeepsClients idleTimeout s (.abort controller) (s.abort hash controller) := by
  rw [SSHClientsManager.abort]
  split
  · exact ⟨hs, keepsClients_of_registered hs (fun _ h => h) rfl⟩
  · rename_i hc
    have hmarked : Inv hash (s.markAborted controller) := by
      refine ⟨hs.toCore.markAborted controller, fun i c hi hnot => ?_⟩
      exact hs.listening i c hi fun hmem => hnot (List.mem_cons_of_mem _ hmem)
    have hcleans := cleans_foldl hmarked ((s.markAborted controller).abortListeners hash controller)
    refine ⟨hcleans.inv, fun r hr => ?_, fun c hmem => ?_, fun _ _ _ _ => hcleans.inv.one,
      hcleans.inv.ended⟩
    · obtain ⟨k, hk⟩ := Dict.mem_values_iff.mp hr
      rcases hcleans.shrinks.get? hk with hkept | hnone
      · exact .inl (registered_iff.mpr ⟨k, r, hkept, rfl⟩)
      · have hcontroller := dispatch_removed (fun t key => ⟨t.clients.keys.length, rfl⟩) hs hc
          (t := s.markAborted controller) (fun _ _ h => h) List.mem_cons_self (fun _ h => h)
          hk hnone
        exact .inr ⟨r, hr, hcontroller.symm, rfl⟩
    · rcases hcleans.shrinks.marked c hmem with hmem | ⟨k, r, hk, hcontroller, hnone⟩
      · rcases List.mem_cons.mp hmem with rfl | hmem
        · exact .inr (.inl rfl)
        · exact .inl hmem
      · exact .inr (.inr ⟨r, Dict.mem_values_iff.mpr ⟨k, hk⟩, hcontroller,
          hmarked.not_registered hcleans.shrinks hk hnone⟩)

theorem Cleans.modifyClient (h : Cleans hash P s t) (hcredentials : ∀ c, (f c).credentials = c.credentials)
    (hcontroller : ∀ c, (f c).abortController = c.abortController)
    (hended : ∀ c, (f c).ended = c.ended) :
    Cleans hash P s (t.modifyClient client f) where
  inv := h.inv.modifyClient hcredentials hcontroller hended
  shrinks := by
    refine ⟨h.shrinks.clients, fun i c hc => ?_, h.shrinks.aborted, h.shrinks.removed,
      h.shrinks.marked⟩
    rw [SSHClientsManager.modifyClient, List.getElem?_modify] at hc
    obtain ⟨d, hd, rfl⟩ := Option.map_eq_some_iff.mp hc
    obtain ⟨e, he, hcred, hctrl⟩ := h.shrinks.created i d hd
    refine ⟨e, he, ?_⟩
    split
    · exact ⟨hcred.trans (hcredentials d).symm, hctrl.trans (hcontroller d).symm⟩
    · exact ⟨hcred, hctrl⟩
  reason := h.reason

variable {event : SSHClientEvent}

theorem Inv.handle (hs : Inv hash s) (client : ℕ) (c : SSHClient)
    (hevent : event ≠ .ready) :
    Cleans hash (fun r => s.clients.get? (clientHash hash c.credentials) = some r) s
        (s.handle hash client c event) ∧
      (s.handle hash client c event).clients.get? (clientHash hash c.credentials) = none := by
  have hcleans := cleans_cleanup hs (clientHash hash c.credentials)
  have hnone := get?_cleanup hs (clientHash hash c.credentials)
  cases event with
  | ready => exact absurd rfl hevent
  | error => exact ⟨hcleans.modifyClient (fun _ => rfl) (fun _ => rfl) (fun _ => rfl), hnone⟩
  | socketEnd => exact ⟨hcleans, hnone⟩
  | socketClose => exact ⟨hcleans, hnone⟩

/-- Step lemma: what an event removes is its client's own iff no other client is registered
under its key. -/
theorem handle_iff (hs : Inv hash s)
    (hc : s.created[client]? = some c) :
    KeepsClients idleTimeout s (.event client event) (s.handle hash client c event) ↔
      NoSuccessor hash s (.event client event) := by
  by_cases hevent : event = .ready
  · subst hevent
    have hinv : Inv hash (s.handle hash client c .ready) :=
      hs.modifyClient (fun _ => rfl) (fun _ => rfl) fun _ => rfl
    exact iff_of_true (keepsClients_of_registered hinv (fun _ h => h) rfl) fun h => absurd rfl h
  obtain ⟨hcleans, hnone⟩ := hs.handle client c hevent
  rw [NoSuccessor, imp_iff_right hevent, hc]
  constructor
  · -- the registration under the key is removed, and only its own client has the event
    intro h c' hc' r hr
    obtain rfl := Option.some.inj hc'
    have hgone := hs.not_registered hcleans.shrinks hr hnone
    rcases h.removed r (Dict.mem_values_iff.mpr ⟨_, hr⟩) with hkept | ⟨r', hr', hown, -⟩
    · exact absurd hkept hgone
    · obtain ⟨k, hk⟩ := Dict.mem_values_iff.mp hr'
      obtain ⟨d, hd, hkey, -⟩ := hs.registered k r' hk
      rw [← hown.1, hc, Option.some.injEq] at hd
      rw [← hkey, ← hd, hr, Option.some.injEq] at hk
      rw [hk, ← hown.1]
  · intro h
    refine hcleans.keepsClients hs fun k r _ hr => ⟨(h c rfl r hr).symm, hevent⟩

/-- Step lemma: a step keeps the invariant, and it keeps the clients iff its event is not
that of a predecessor. -/
theorem step_spec (hs : Inv hash s)
    (hstep : s.step hash idleTimeout input = .ok t) :
    Inv hash t ∧ (KeepsClients idleTimeout s input t ↔ NoSuccessor hash s input) := by
  cases input with
  | getClient credentials abortController now =>
    cases hstep
    rw [getClient]
    cases hr : s.clients.get? (clientHash hash credentials) with
    | none =>
      have hinv := hs.create hr (match abortController with
        | some controller => .given controller
        | none => .made s.created.length) now
      exact ⟨hinv, iff_of_true (keepsClients_of_registered hinv
        (fun i hi => (registered_create hr).mpr (.inr hi)) rfl) trivial⟩
    | some r =>
      obtain ⟨hinv, hiff⟩ := hs.touch hr { r with lastUsed := now } rfl rfl
      exact ⟨hinv, iff_of_true (keepsClients_of_registered hinv (fun i => (hiff i).mpr) rfl)
        trivial⟩
  | updateLastUsed client now =>
    cases hstep
    have hsame : Inv hash s ∧ (KeepsClients idleTimeout s (.updateLastUsed client now) s ↔ True) :=
      ⟨hs, iff_of_true (keepsClients_of_registered hs (fun _ h => h) rfl) trivial⟩
    rw [updateLastUsed]
    cases hc : s.created[client]? with
    | none => exact hsame
    | some c =>
      cases hr : s.clients.get? (clientHash hash c.credentials) with
      | none =>
        simp only [hr]
        exact hsame
      | some r =>
        simp only [hr]
        obtain ⟨hinv, hiff⟩ := hs.touch hr { r with lastUsed := now } rfl rfl
        exact ⟨hinv, iff_of_true (keepsClients_of_registered hinv (fun i => (hiff i).mpr) rfl)
          trivial⟩
  | event client event =>
    rw [step] at hstep
    cases hc : s.created[client]? with
    | none =>
      rw [hc] at hstep
      cases hstep
    | some c =>
      rw [hc] at hstep
      cases hstep
      refine ⟨?_, handle_iff hs hc⟩
      by_cases hevent : event = .ready
      · subst hevent
        exact hs.modifyClient (fun _ => rfl) (fun _ => rfl) fun _ => rfl
      · exact (hs.handle client c hevent).1.inv
  | abort controller =>
    cases hstep
    obtain ⟨hinv, hkeeps⟩ := hs.abort idleTimeout controller
    exact ⟨hinv, iff_of_true hkeeps trivial⟩
  | cleanupStaleConnections now =>
    cases hstep
    have hcleans := cleans_foldl hs
      ((s.clients.entries.filter fun e => decide (Stale idleTimeout now e.2)).map Prod.fst)
    refine ⟨hcleans.inv, iff_of_true (hcleans.keepsClients hs ?_) trivial⟩
    rintro k r - ⟨key, hkey, hr⟩
    obtain ⟨⟨key', r'⟩, hmem, rfl⟩ := List.mem_map.mp hkey
    obtain ⟨hentry, hstale⟩ := List.mem_filter.mp hmem
    rw [Dict.mem_entries_iff, hr, Option.some.injEq] at hentry
    exact hentry ▸ of_decide_eq_true hstale
  | onShutdown =>
    cases hstep
    have hcleans := cleans_foldl hs s.clients.keys
    exact ⟨hcleans.inv, iff_of_true (hcleans.keepsClients hs fun _ _ _ _ => trivial) trivial⟩

end Steps

/-! ### Every run -/

/-- **When clients are only removed for their own reasons.**  Along every run of calls,
events, aborts, idle cleanups and shutdowns they are iff no client has an event (an
error, or the end or close of its socket) while another is registered under its key. -/
theorem keepsClients_iff (hash : ConnectConfig → String) (idleTimeout : ℕ)
    (inputs : List SSHClientsInput) :
    Along (step hash idleTimeout) (KeepsClients idleTimeout) {} inputs ↔
      Along (step hash idleTimeout) (fun s input _ => NoSuccessor hash s input) {} inputs := by
  have hstart : Inv hash {} := by
    refine ⟨⟨fun k r hk => ?_, fun i c hc => ?_⟩, fun i c hc => ?_⟩
    · cases hk
    · cases hc
    · cases hc
  refine Along.iff_of_step (I := Inv hash) (V := fun _ _ _ => True) ?_ ?_ hstart
    (Along.always (fun _ _ _ => trivial) inputs _)
  · exact fun _ _ _ hs hstep _ => (step_spec hs hstep).2
  · exact fun _ _ _ hs hstep _ _ => (step_spec hs hstep).1

def credentialsOfHost (host : String) : SSHCredentials where
  sshHost := host
  sshPort := 22
  sshUser := "n8n"
  sshAuthenticateWith := .password "secret"

/-- After an error a client is created again; then the socket of the first one closes, which
ends the second. -/
theorem not_keepsClients_lateClose :
    ¬ Along (step ConnectConfig.host 300) (KeepsClients 300) {}
      [.getClient (credentialsOfHost "db") none 0, .event 0 .error,
        .getClient (credentialsOfHost "db") none 1, .event 0 .socketClose] := by
  intro h
  have hremoved : Along (step ConnectConfig.host 300)
      (fun s input s' => RemovedForOwnReason 300 s input s') {}
      [.getClient (credentialsOfHost "db") none 0, .event 0 .error,
        .getClient (credentialsOfHost "db") none 1, .event 0 .socketClose] :=
    h.mono fun _ _ _ hkeeps => hkeeps.removed
  exact absurd hremoved (by decide)

end SSHClientsManager

end N8n
