/-
The write lock of a workflow, with handlers that interleave.

A handler reads the holder of the lock from the cache, checks it, and only then
writes or deletes the lock and sends its message.  Each of these is an `await`,
at which the handlers of other users go on and the lock may expire.

* `exclusive_of_notOvertaken` — **only one user at a time is told to hold the
  lock, and nobody loses it to another, in every run in which no other user's
  lock is written between the check of a handler and what it does then**.
-/
import N8n.Runs

namespace N8n

/-- The messages whose handlers read the lock. -/
inductive LockMessage where
  | writeAccessRequested
  | writeAccessReleaseRequested
  | writeAccessHeartbeat
  | workflowClosed
  deriving DecidableEq, Repr

/-- What a handler waits for: the access check, the holder of the lock, the
write or the deletion of the lock, or the collaborators to send a message to. -/
inductive LockPoint where
  | access
  | read
  | write
  | send
  deriving DecidableEq, Repr

/-- A handler that was not left yet; it is overtaken once the lock is written for
another user after the handler read it. -/
structure LockHandler (User : Type) where
  message : LockMessage
  userId : User
  point : LockPoint
  overtaken : Bool := false
  deriving DecidableEq, Repr

namespace LockMessage

def start : LockMessage → LockPoint
  | writeAccessRequested => .access
  | writeAccessReleaseRequested => .read
  | writeAccessHeartbeat => .read
  | workflowClosed => .access

variable {User : Type} [DecidableEq User]

/-- Whether the handler goes on to change the lock, by the holder it has read. -/
def goesOn (message : LockMessage) (userId : User) (currentLockHolder : Option User) : Prop :=
  match message with
  | writeAccessRequested => currentLockHolder = none ∨ currentLockHolder = some userId
  | writeAccessReleaseRequested => currentLockHolder = some userId
  | writeAccessHeartbeat => currentLockHolder = some userId
  | workflowClosed => currentLockHolder = some userId

instance (message : LockMessage) (userId : User) (currentLockHolder : Option User) :
    Decidable (message.goesOn userId currentLockHolder) := by
  unfold goesOn
  cases message <;> infer_instance

omit [DecidableEq User] in
theorem eq_of_goesOn {message : LockMessage} {userId u : User}
    (h : message.goesOn userId (some u)) : u = userId := by
  cases message <;> simpa [goesOn] using h

end LockMessage

/-- The holder of the lock in the cache and the handlers of its workflow; the
users who acquired the lock, as long as they did not release it and it did not
expire, and those of them who were told. -/
structure WriteLock (User : Type) where
  lock : Option User := none
  handlers : List (LockHandler User) := []
  acquired : List User := []
  told : List User := []
  deriving DecidableEq, Repr

inductive LockEvent (User : Type) where
  | message (message : LockMessage) (userId : User)
  | access (handler : LockHandler User) (granted : Bool)
  | read (handler : LockHandler User)
  | write (handler : LockHandler User)
  | send (handler : LockHandler User) (collaborators : List User)
  | expire
  deriving DecidableEq, Repr

namespace WriteLock

variable {User : Type} [DecidableEq User] (s : WriteLock User)

/-- The handler goes on at another point, or is left. -/
def proceed (handler : LockHandler User) (next : Option (LockHandler User)) : WriteLock User :=
  { s with handlers := s.handlers.erase handler ++ next.toList }

/-- A handler of another user that has read the lock is overtaken. -/
def overtake (userId : User) (handler : LockHandler User) : LockHandler User :=
  if handler.userId ≠ userId ∧ (handler.point = .write ∨ handler.point = .send) then
    { handler with overtaken := true }
  else handler

/-- `cache.set(key, userId, ttl)`. -/
def cacheSet (userId : User) : WriteLock User :=
  { s with lock := some userId, handlers := s.handlers.map (overtake userId) }

def forget (userId : User) : WriteLock User :=
  { s with
    lock := none
    acquired := s.acquired.filter (· ≠ userId)
    told := s.told.filter (· ≠ userId) }

/-- The write of a handler: `setWriteLock`, `renewWriteLock` or `releaseWriteLock`. -/
def write (handler : LockHandler User) : WriteLock User :=
  match handler.message with
  | .writeAccessRequested =>
    let s := (s.proceed handler (some { handler with point := .send })).cacheSet handler.userId
    { s with acquired := s.acquired ++ [handler.userId] }
  | .writeAccessHeartbeat => (s.proceed handler none).cacheSet handler.userId
  | .writeAccessReleaseRequested =>
    (s.proceed handler (some { handler with point := .send })).forget handler.userId
  | .workflowClosed =>
    (s.proceed handler (some { handler with point := .send })).forget handler.userId

/-- `sendWriteAccessAcquiredMessage` and `sendWriteAccessReleasedMessage`: no
message is sent when there are no collaborators. -/
def send (handler : LockHandler User) (collaborators : List User) : WriteLock User :=
  let s := s.proceed handler none
  if handler.message = .writeAccessRequested ∧ collaborators ≠ [] ∧ handler.userId ∈ s.acquired
  then { s with told := s.told ++ [handler.userId] }
  else s

def step : LockEvent User → Except Unit (WriteLock User)
  | .message message userId =>
    .ok { s with handlers := s.handlers ++ [{ message, userId, point := message.start }] }
  | .access handler granted => onlyIf (handler ∈ s.handlers ∧ handler.point = .access)
      (s.proceed handler (if granted then some { handler with point := .read } else none))
  | .read handler => onlyIf (handler ∈ s.handlers ∧ handler.point = .read)
      (s.proceed handler (if handler.message.goesOn handler.userId s.lock then
        some { handler with point := .write, overtaken := false } else none))
  | .write handler => onlyIf (handler ∈ s.handlers ∧ handler.point = .write) (s.write handler)
  | .send handler collaborators => onlyIf (handler ∈ s.handlers ∧ handler.point = .send)
      (s.send handler collaborators)
  | .expire => match s.lock with
    | some userId => .ok (s.forget userId)
    | none => .error ()

/-- What a step does to the other users: when a user is told to have acquired the
lock, no other one was told whose lock is not over; and a release, a closing or
a heartbeat does not change another user's lock. -/
structure Exclusive (e : LockEvent User) : Prop where
  told : ∀ handler collaborators, e = .send handler collaborators →
    handler.message = .writeAccessRequested → collaborators ≠ [] →
    ∀ userId ∈ s.told, userId = handler.userId
  kept : ∀ handler, e = .write handler → handler.message ≠ .writeAccessRequested →
    ∀ userId, s.lock = some userId → userId = handler.userId

def NotOvertaken : LockEvent User → Prop
  | .write handler => handler.overtaken = false
  | .send handler _ => handler.message = .writeAccessRequested → handler.overtaken = false
  | _ => True

instance (e : LockEvent User) : Decidable (NotOvertaken e) :=
  match e with
  | .write handler => inferInstanceAs (Decidable (handler.overtaken = false))
  | .send handler _ => inferInstanceAs
    (Decidable (handler.message = .writeAccessRequested → handler.overtaken = false))
  | .message _ _ => isTrue trivial
  | .access _ _ => isTrue trivial
  | .read _ => isTrue trivial
  | .expire => isTrue trivial

/-- A handler past its check that was not overtaken finds the lock free or its
own; who acquired the lock holds it, and only they were told. -/
structure Guarded : Prop where
  current : ∀ handler ∈ s.handlers, handler.point = .write ∨ handler.point = .send →
    handler.overtaken = false → ∀ userId, s.lock = some userId → userId = handler.userId
  acquired : ∀ userId ∈ s.acquired, s.lock = some userId
  told : ∀ userId ∈ s.told, userId ∈ s.acquired

omit [DecidableEq User] in
theorem guarded_start : Guarded ({} : WriteLock User) where
  current := List.forall_mem_nil _
  acquired := List.forall_mem_nil _
  told := List.forall_mem_nil _

section Steps

variable {s s' : WriteLock User} {handler : LockHandler User}

theorem Guarded.proceed (h : Guarded s) {next : Option (LockHandler User)}
    (hnext : ∀ handler' ∈ next, handler'.point = .write ∨ handler'.point = .send →
      handler'.overtaken = false → ∀ userId, s.lock = some userId → userId = handler'.userId) :
    Guarded (s.proceed handler next) where
  current := by
    intro handler' hmem
    rcases List.mem_append.mp hmem with hmem | hmem
    · exact h.current handler' (List.mem_of_mem_erase hmem)
    · exact hnext handler' (Option.mem_toList.mp hmem)
  acquired := h.acquired
  told := h.told

theorem Guarded.forget (h : Guarded s) {userId : User}
    (howner : ∀ u, s.lock = some u → u = userId) : Guarded (s.forget userId) where
  current := fun _ _ _ _ _ hlock => by cases hlock
  acquired := by
    intro u hu
    obtain ⟨hu, hne⟩ := List.mem_filter.mp hu
    have := howner u (h.acquired u hu)
    simp [this] at hne
  told := by
    intro u hu
    obtain ⟨hu, hne⟩ := List.mem_filter.mp hu
    exact List.mem_filter.mpr ⟨h.told u hu, hne⟩

theorem Guarded.cacheSet (h : Guarded s) (userId : User)
    (howner : ∀ u, s.lock = some u → u = userId) : Guarded (s.cacheSet userId) where
  current := by
    intro handler' hmem hpoint hnot u hlock
    obtain ⟨before, -, rfl⟩ := List.mem_map.mp hmem
    have hu : u = userId := (Option.some.inj hlock).symm
    rw [overtake] at hpoint hnot ⊢
    split at hnot
    · cases hnot
    · rename_i hsame
      rw [if_neg hsame] at hpoint ⊢
      -- a handler of another user past its check is overtaken by the write
      by_contra hne
      exact hsame ⟨fun heq => hne (hu.trans heq.symm), hpoint⟩
  acquired := by
    intro u hu
    rw [howner u (h.acquired u hu)]
    rfl
  told := h.told

theorem guarded_write (h : Guarded s) (hmem : handler ∈ s.handlers)
    (hpoint : handler.point = .write) (hnot : handler.overtaken = false) :
    Guarded (s.write handler) := by
  have howner : ∀ u, s.lock = some u → u = handler.userId :=
    h.current handler hmem (Or.inl hpoint) hnot
  have hproceed : Guarded (s.proceed handler none) := h.proceed fun _ hnone => by cases hnone
  have hsending : Guarded (s.proceed handler (some { handler with point := .send })) := by
    refine h.proceed fun handler' hsome _ _ u hlock => ?_
    cases hsome
    exact howner u hlock
  rw [write]
  split
  · -- a request: the lock is the user's from now on
    obtain ⟨hcurrent, hacquired, htold⟩ := hsending.cacheSet handler.userId howner
    refine ⟨hcurrent, fun u hu => ?_, fun u hu => List.mem_append_left _ (htold u hu)⟩
    rcases List.mem_append.mp hu with hu | hu
    · exact hacquired u hu
    · rw [List.mem_singleton.mp hu]
      rfl
  · exact hproceed.cacheSet handler.userId howner
  · exact hsending.forget howner
  · exact hsending.forget howner

theorem guarded_send (h : Guarded s) (handler : LockHandler User) (collaborators : List User) :
    Guarded (s.send handler collaborators) := by
  have hproceed : Guarded (s.proceed handler none) := h.proceed fun _ hnone => by cases hnone
  rw [send]
  split
  · rename_i hsent
    refine ⟨hproceed.current, hproceed.acquired, fun u hu => ?_⟩
    rcases List.mem_append.mp hu with hu | hu
    · exact h.told u hu
    · rw [List.mem_singleton.mp hu]
      exact hsent.2.2
  · exact hproceed

/-- **A step of a handler that was not overtaken is exclusive.** -/
theorem exclusive_step {e : LockEvent User} (h : Guarded s) (hstep : s.step e = .ok s')
    (hnot : NotOvertaken e) : Exclusive s e ∧ Guarded s' := by
  cases e with
  | message message userId =>
    cases hstep
    refine ⟨⟨nofun, nofun⟩, ⟨fun handler hmem hpoint => ?_, h.acquired, h.told⟩⟩
    -- a new handler is not past its check
    rcases List.mem_append.mp hmem with hmem | hmem
    · exact h.current handler hmem hpoint
    · rw [List.mem_singleton.mp hmem] at hpoint
      cases message <;> simp [LockMessage.start] at hpoint
  | access handler granted =>
    obtain ⟨-, rfl⟩ := onlyIf_eq_ok.mp hstep
    refine ⟨⟨nofun, nofun⟩, h.proceed fun handler' hnext hpoint => ?_⟩
    split at hnext
    · cases hnext
      simp at hpoint
    · cases hnext
  | read handler =>
    obtain ⟨-, rfl⟩ := onlyIf_eq_ok.mp hstep
    refine ⟨⟨nofun, nofun⟩, h.proceed fun handler' hnext _ _ u hlock => ?_⟩
    split at hnext
    · -- the check that passed saw the lock free or held by the user
      rename_i hgoes
      cases hnext
      rw [hlock] at hgoes
      exact LockMessage.eq_of_goesOn hgoes
    · cases hnext
  | write handler =>
    obtain ⟨⟨hmem, hpoint⟩, rfl⟩ := onlyIf_eq_ok.mp hstep
    refine ⟨⟨nofun, ?_⟩, guarded_write h hmem hpoint hnot⟩
    rintro handler' heq - u hlock
    cases heq
    exact h.current handler hmem (Or.inl hpoint) hnot u hlock
  | send handler collaborators =>
    obtain ⟨⟨hmem, hpoint⟩, rfl⟩ := onlyIf_eq_ok.mp hstep
    refine ⟨⟨?_, nofun⟩, guarded_send h handler collaborators⟩
    rintro handler' _ heq hrequest - u hu
    cases heq
    exact h.current handler hmem (Or.inr hpoint) (hnot hrequest) u (h.acquired u (h.told u hu))
  | expire =>
    rw [step] at hstep
    rcases hlock : s.lock with _ | userId
    · simp [hlock] at hstep
    · rw [hlock] at hstep
      cases hstep
      refine ⟨⟨nofun, nofun⟩, h.forget fun u hu => ?_⟩
      rw [hlock] at hu
      exact (Option.some.inj hu).symm

end Steps

/-- **Only one user at a time is told to hold the lock, and nobody loses it to
another's handler**, in every run in which no other user's lock is written
between the check of a handler and its write or message. -/
theorem exclusive_of_notOvertaken {events : List (LockEvent User)}
    (h : Along step (fun _ e _ => NotOvertaken e) ({} : WriteLock User) events) :
    Along step (fun s e _ => Exclusive s e) ({} : WriteLock User) events :=
  Along.of_step (I := Guarded) (fun _ _ _ hs hstep hnot => exclusive_step hs hstep hnot)
    guarded_start h

/-- One user acquires the lock and is told; the other one is refused, until the
first one has released it. -/
def inTurn : List (LockEvent String) :=
  let owner : LockHandler String :=
    { message := .writeAccessRequested, userId := "owner", point := .access }
  let release : LockHandler String :=
    { message := .writeAccessReleaseRequested, userId := "owner", point := .read }
  let member : LockHandler String :=
    { message := .writeAccessRequested, userId := "member", point := .access }
  [.message .writeAccessRequested "owner", .access owner true,
    .read { owner with point := .read }, .write { owner with point := .write },
    .send { owner with point := .send } ["owner", "member"],
    .message .writeAccessRequested "member", .access member true,
    .read { member with point := .read },
    .message .writeAccessReleaseRequested "owner", .read release,
    .write { release with point := .write },
    .message .writeAccessRequested "member", .access member true,
    .read { member with point := .read }, .write { member with point := .write },
    .send { member with point := .send } ["owner", "member"]]

theorem exclusive_inTurn :
    Along step (fun s e _ => Exclusive s e) ({} : WriteLock String) inTurn :=
  exclusive_of_notOvertaken (by decide)

def bothAtOnce : List (LockEvent String) :=
  let owner : LockHandler String :=
    { message := .writeAccessRequested, userId := "owner", point := .access }
  let member : LockHandler String :=
    { message := .writeAccessRequested, userId := "member", point := .access }
  [.message .writeAccessRequested "owner", .message .writeAccessRequested "member",
    .access owner true, .access member true,
    .read { owner with point := .read }, .read { member with point := .read },
    .write { owner with point := .write }, .send { owner with point := .send } ["owner", "member"],
    .write { member with point := .write, overtaken := true },
    .send { member with point := .send, overtaken := true } ["owner", "member"]]

theorem not_exclusive_bothAtOnce :
    ¬ Along step (fun s e _ => Exclusive s e) ({} : WriteLock String) bothAtOnce := by
  intro h
  have htold : Along step (fun s e _ =>
      e = .send ⟨.writeAccessRequested, "member", .send, true⟩ ["owner", "member"] →
        ∀ userId ∈ s.told, userId = "member") ({} : WriteLock String) bothAtOnce :=
    h.mono fun s e _ hr he => hr.told _ _ he rfl (List.cons_ne_nil _ _)
  exact absurd htold (by decide)

end WriteLock

end N8n
