/-
What holds of the transport between the calls and the events.

* `Inv` — the one socket that can still call its handlers is that of the field `ws`, and while its
  promise is pending the transport is connecting;
* `Inv.handled` — a handler that leaves its attempt over keeps this, since no other socket is left.
-/
import N8n.WebSocketTransport

namespace N8n.WebSocketTransport

/-- Between the steps. -/
structure Inv (s : WebSocketTransport) : Prop where
  /-- Only the last socket can call its handlers. -/
  current : ∀ (k : ℕ) (a : ConnectAttempt), s.attempts[k]? = some a → a.Live → s.ws = some k
  connecting : ∀ (k : ℕ) (a : ConnectAttempt), s.attempts[k]? = some a → a.Live →
    a.promise = .pending → s.isConnecting = true
  timeout : ∀ (k : ℕ) (a : ConnectAttempt), s.attempts[k]? = some a → a.promise = .pending →
    a.byTimer = false → a.timeout = true
  timers : ∀ timer ∈ s.timers, s.reconnectTimeout = some timer
  /-- The last socket has closed when a reconnection is due. -/
  due : s.timers ≠ [] → ∀ (k : ℕ) (a : ConnectAttempt), s.attempts[k]? = some a → ¬ a.Live
  promise : ∀ k : ℕ, s.connectionPromise = some k →
    ∃ a, s.attempts[k]? = some a ∧ a.byTimer = false
  calls : ∀ k : ℕ, .awaits k ∈ s.calls → ∃ a, s.attempts[k]? = some a ∧ a.byTimer = false
  off : s.disconnected = true → s.ws = none ∧ s.timers = [] ∧ s.connected = false ∧
    s.shouldReconnect = false

/-- An attempt later on: nothing comes back that is over. -/
structure Later (a a' : ConnectAttempt) : Prop where
  byTimer : a'.byTimer = a.byTimer
  live : a'.Live → a.Live
  pending : a'.promise = .pending → a.promise = .pending

variable {config : WebSocketTransportConfig} {s s' t : WebSocketTransport} {k : ℕ}
  {a : ConnectAttempt} {i : TransportInput}

theorem Later.refl (a : ConnectAttempt) : Later a a := ⟨rfl, id, id⟩

variable {b : ConnectAttempt}

theorem Later.trans {c : ConnectAttempt} (h : Later a b) (h' : Later b c) : Later a c :=
  ⟨h'.byTimer.trans h.byTimer, fun hc => h.live (h'.live hc),
    fun hc => h.pending (h'.pending hc)⟩

theorem later_settle (a : ConnectAttempt) (promise : ConnectionPromise)
    (h : promise ≠ .pending) : Later a (a.settle promise) := by
  rw [ConnectAttempt.settle]
  split
  · exact ⟨rfl, id, fun hp => absurd hp h⟩
  · exact Later.refl a

theorem later_clearTimeout (a : ConnectAttempt) : Later a a.clearTimeout := ⟨rfl, id, id⟩

theorem later_close (a : ConnectAttempt) : Later a a.close := by
  rw [ConnectAttempt.close]
  split
  · next h => exact ⟨rfl, fun hlive => ⟨hlive.1, by rw [h]; decide⟩, id⟩
  · next h => exact ⟨rfl, fun hlive => ⟨hlive.1, by rw [h]; decide⟩, id⟩
  · exact Later.refl a

theorem later_readyState {readyState : ReadyState} (h : a.readyState ≠ .closed) :
    Later a { a with readyState } :=
  ⟨rfl, fun hlive => ⟨hlive.1, h⟩, id⟩

theorem getElem?_modify (s : WebSocketTransport) (k j : ℕ) (f : ConnectAttempt → ConnectAttempt) :
    (s.modify k f).attempts[j]? =
      if k = j then s.attempts[j]?.map f else s.attempts[j]? := by
  rw [modify, List.getElem?_modify]
  split
  · rfl
  · exact Option.map_id'

/-- The attempts are as they were, or later. -/
structure Onward (s s' : WebSocketTransport) : Prop where
  length : s'.attempts.length = s.attempts.length
  later : ∀ (k : ℕ) (a' : ConnectAttempt), s'.attempts[k]? = some a' →
    ∃ a, s.attempts[k]? = some a ∧ Later a a'

theorem Onward.refl (s : WebSocketTransport) : Onward s s :=
  ⟨rfl, fun _ a' h => ⟨a', h, Later.refl a'⟩⟩

theorem Onward.trans (h : Onward s t) (h' : Onward t s') : Onward s s' := by
  refine ⟨h'.length.trans h.length, fun k a' ha' => ?_⟩
  obtain ⟨b, hb, hba'⟩ := h'.later k a' ha'
  obtain ⟨a, ha, hab⟩ := h.later k b hb
  exact ⟨a, ha, hab.trans hba'⟩

variable {f : ConnectAttempt → ConnectAttempt}

theorem onward_modify (s : WebSocketTransport) (k : ℕ)
    (hf : ∀ a, s.attempts[k]? = some a → Later a (f a)) : Onward s (s.modify k f) := by
  refine ⟨List.length_modify .., fun j a' ha' => ?_⟩
  rw [getElem?_modify] at ha'
  split at ha'
  · next heq =>
    subst heq
    obtain ⟨a, ha, rfl⟩ := Option.map_eq_some_iff.mp ha'
    exact ⟨a, ha, hf a ha⟩
  · exact ⟨a', ha', Later.refl a'⟩

theorem Onward.exists_attempt (h : Onward s s')
    (hk : ∃ a, s.attempts[k]? = some a ∧ a.byTimer = false) :
    ∃ a, s'.attempts[k]? = some a ∧ a.byTimer = false := by
  obtain ⟨a, ha, hbyTimer⟩ := hk
  have hlt : k < s'.attempts.length := h.length ▸ (List.getElem?_eq_some_iff.mp ha).1
  obtain ⟨b, hb, hab⟩ := h.later k _ (List.getElem?_eq_getElem hlt)
  obtain rfl : a = b := Option.some.inj (ha.symm.trans hb)
  exact ⟨_, List.getElem?_eq_getElem hlt, hab.byTimer.trans hbyTimer⟩

theorem Inv.onward (h : Inv s) (honward : Onward s s')
    (hws : s'.ws = s.ws) (htimers : s'.timers = s.timers)
    (htimeout : s'.reconnectTimeout = s.reconnectTimeout)
    (hpromise : s'.connectionPromise = s.connectionPromise) (hcalls : s'.calls = s.calls)
    (hconnecting : ∀ (k : ℕ) (a : ConnectAttempt), s'.attempts[k]? = some a → a.Live →
      a.promise = .pending → s'.isConnecting = true)
    (hpending : ∀ (k : ℕ) (a : ConnectAttempt), s'.attempts[k]? = some a →
      a.promise = .pending → a.byTimer = false → a.timeout = true)
    (hoff : s'.disconnected = true → s.disconnected = true ∧ s'.connected = false ∧
      s'.shouldReconnect = s.shouldReconnect) : Inv s' := by
  refine ⟨fun k a' ha' hlive => ?_, hconnecting, hpending, ?_, fun hdue k a' ha' hlive => ?_,
    fun k hk => ?_, fun k hk => ?_, fun hdisconnected => ?_⟩
  · obtain ⟨a, ha, hlater⟩ := honward.later k a' ha'
    rw [hws]
    exact h.current k a ha (hlater.live hlive)
  · rw [htimers, htimeout]
    exact h.timers
  · obtain ⟨a, ha, hlater⟩ := honward.later k a' ha'
    exact h.due (htimers ▸ hdue) k a ha (hlater.live hlive)
  · exact honward.exists_attempt (h.promise k (hpromise ▸ hk))
  · exact honward.exists_attempt (h.calls k (hcalls ▸ hk))
  · obtain ⟨hdisconnected, hconnected, hreconnect⟩ := hoff hdisconnected
    obtain ⟨hnone, hempty, -, hshould⟩ := h.off hdisconnected
    exact ⟨hws.trans hnone, htimers.trans hempty, hconnected, hreconnect.trans hshould⟩

variable {j : ℕ}

theorem Inv.eq_of_live (h : Inv s)
    (ha : s.attempts[j]? = some a) (hb : s.attempts[k]? = some b) (hlive : a.Live)
    (hlive' : b.Live) : j = k :=
  Option.some.inj ((h.current j a ha hlive).symm.trans (h.current k b hb hlive'))

theorem Inv.disconnected_of_live (h : Inv s) (ha : s.attempts[k]? = some a) (hlive : a.Live) :
    s.disconnected = false := by
  by_contra hdisconnected
  have hnone := (h.off (eq_true_of_ne_false hdisconnected)).1
  rw [h.current k a ha hlive] at hnone
  cases hnone

theorem Inv.timers_of_live (h : Inv s) (ha : s.attempts[k]? = some a) (hlive : a.Live) :
    s.timers = [] := by
  by_contra hdue
  exact h.due hdue k a ha hlive

theorem Inv.handled (h : Inv s) (ha : s.attempts[k]? = some a) (hlive : a.Live) (hattempts : s'.attempts = s.attempts.modify k f)
    (hlater : Later a (f a)) (hover : ¬ (f a).Live ∨ (f a).promise ≠ .pending)
    (hpending : (f a).promise = .pending → (f a).byTimer = false → (f a).timeout = true)
    (hws : s'.ws = s.ws) (htimers : s'.timers = s.timers)
    (htimeout : s'.reconnectTimeout = s.reconnectTimeout)
    (hpromise : s'.connectionPromise = s.connectionPromise) (hcalls : s'.calls = s.calls)
    (hdisconnected : s'.disconnected = s.disconnected) : Inv s' := by
  have hget : ∀ (j : ℕ) (b : ConnectAttempt), s'.attempts[j]? = some b →
      (j = k ∧ b = f a) ∨ (j ≠ k ∧ s.attempts[j]? = some b) := by
    intro j b hb
    rw [hattempts, List.getElem?_modify] at hb
    by_cases hj : k = j
    · subst hj
      rw [ha] at hb
      simp only [if_true, Option.map_eq_map, Option.map_some, Option.some.injEq] at hb
      exact .inl ⟨rfl, hb.symm⟩
    · simp only [hj, if_false, Option.map_eq_map, id_eq, Option.map_id_fun'] at hb
      exact .inr ⟨Ne.symm hj, hb⟩
  refine h.onward ⟨?_, fun j b hb => ?_⟩ hws htimers htimeout hpromise hcalls
    (fun j b hb hblive hbpending => ?_) (fun j b hb hbpending hbtimer => ?_) fun hoff => ?_
  · rw [hattempts, List.length_modify]
  · rcases hget j b hb with ⟨rfl, rfl⟩ | ⟨-, hold⟩
    · exact ⟨a, ha, hlater⟩
    · exact ⟨b, hold, Later.refl b⟩
  · rcases hget j b hb with ⟨rfl, rfl⟩ | ⟨hne, hold⟩
    · exact (hover.elim (fun hno => hno hblive) fun hno => hno hbpending).elim
    · exact absurd (h.eq_of_live hold ha hblive hlive) hne
  · rcases hget j b hb with ⟨rfl, rfl⟩ | ⟨-, hold⟩
    · exact hpending hbpending hbtimer
    · exact h.timeout j b hold hbpending hbtimer
  · rw [hdisconnected, h.disconnected_of_live ha hlive] at hoff
    cases hoff

theorem Inv.unheard (h : Inv s) (ha : s.attempts[k]? = some a)
    (hreadyState : a.readyState ≠ .closed) (readyState : ReadyState) :
    Inv (s.modify k fun a => { a with readyState }) := by
  have honward : Onward s (s.modify k fun a => { a with readyState }) := by
    refine onward_modify s k fun b hb => later_readyState ?_
    obtain rfl : a = b := Option.some.inj (ha.symm.trans hb)
    exact hreadyState
  refine h.onward honward rfl rfl rfl rfl rfl (fun j b hb hlive hpending => ?_)
    (fun j b hb hpending hbyTimer => ?_) fun hoff => ⟨hoff, (h.off hoff).2.2.1, rfl⟩
  · obtain ⟨c, hc, hlater⟩ := honward.later j b hb
    exact h.connecting j c hc (hlater.live hlive) (hlater.pending hpending)
  · rw [getElem?_modify] at hb
    split at hb
    · obtain ⟨c, hc, rfl⟩ := Option.map_eq_some_iff.mp hb
      exact h.timeout j c hc hpending hbyTimer
    · exact h.timeout j b hb hpending hbyTimer

theorem exists_reject (s : WebSocketTransport) (k : ℕ) (message : String) :
    ∃ notices, s.reject k message =
        { s.modify k (·.settle (.rejected message)) with notices := notices } ∧
      ((∀ a ∈ s.attempts[k]?, a.byTimer = true → a.promise ≠ .pending) → notices = s.notices) := by
  rw [reject]
  rcases ha : s.attempts[k]? with _ | a
  · refine ⟨s.notices, ?_, fun _ => rfl⟩
    have hle := List.getElem?_eq_none_iff.mp ha
    have hsame : s.attempts.modify k (·.settle (.rejected message)) = s.attempts := by
      refine List.ext_getElem? fun j => ?_
      rw [List.getElem?_modify]
      by_cases hj : k = j
      · rw [← hj, ha]
        rfl
      · simp [hj]
    rw [modify, hsame]
  · by_cases hpending : a.promise = .pending ∧ a.byTimer = true
    · refine ⟨s.notices ++ [.error message], by simp only [hpending, and_self, if_true]; rfl, ?_⟩
      exact fun hno => absurd hpending.1 (hno a rfl hpending.2)
    · exact ⟨s.notices, by simp only [hpending, if_false]; rfl, fun _ => rfl⟩

theorem settle_ne_pending {promise : ConnectionPromise} (h : promise ≠ .pending) :
    (a.settle promise).promise ≠ .pending := by
  rw [ConnectAttempt.settle]
  split
  · exact h
  · next hsettled => exact hsettled

theorem Inv.opens (h : Inv s) (ha : s.attempts[k]? = some a) (hstate : a.readyState = .connecting) :
    Inv (s.event k a .opened (·.onopen k)) := by
  have hopen : a.readyState ≠ .closed := by
    rw [hstate]
    decide
  rw [event]
  rcases hhandlers : a.handlers with _ | _
  · exact h.unheard ha hopen .opened
  · refine h.handled ha ⟨hhandlers, hopen⟩ (f := fun a =>
      ({ a with readyState := .opened }.clearTimeout).settle .resolved) ?_ ?_
      (.inr (settle_ne_pending (by decide)))
      (fun hpending => absurd hpending (settle_ne_pending (by decide))) rfl rfl rfl rfl rfl rfl
    · show ((s.attempts.modify k _).modify k _).modify k _ = _
      rw [List.modify_modify_eq, List.modify_modify_eq]
      rfl
    · exact ((later_readyState hopen).trans (later_clearTimeout _)).trans
        (later_settle _ _ (by decide))

theorem onerror_of_not_connecting (h : s.isConnecting = false) :
    s.onerror k = (s.modify k (·.clearTimeout)).notify (.error "WebSocket error") :=
  if_neg (Bool.eq_false_iff.mp h)

theorem onerror_of_connecting (h : s.isConnecting = true) :
    s.onerror k = { (s.modify k (·.clearTimeout)).notify (.error "WebSocket error") with
      isConnecting := false }.reject k "WebSocket error" :=
  if_pos h

theorem Inv.fails (h : Inv s) (ha : s.attempts[k]? = some a) (hopen : a.readyState ≠ .closed) :
    Inv (s.event k a .closing (·.onerror k)) := by
  rw [event]
  rcases hhandlers : a.handlers with _ | _
  · exact h.unheard ha hopen .closing
  · have hlater : Later a ({ a with readyState := .closing }.clearTimeout) :=
      (later_readyState hopen).trans (later_clearTimeout _)
    simp only [if_true]
    rcases hconnecting : s.isConnecting with _ | _
    · have hsettled : a.promise ≠ .pending := fun hpending => by
        have htrue := h.connecting k a ha ⟨hhandlers, hopen⟩ hpending
        rw [hconnecting] at htrue
        cases htrue
      rw [onerror_of_not_connecting (show (s.modify k _).isConnecting = false from hconnecting)]
      refine h.handled ha ⟨hhandlers, hopen⟩ (f := fun a =>
        { a with readyState := .closing }.clearTimeout) ?_ hlater (.inr hsettled)
        (fun hpending => absurd hpending hsettled) rfl rfl rfl rfl rfl rfl
      show (s.attempts.modify k _).modify k _ = _
      rw [List.modify_modify_eq]
      rfl
    · rw [onerror_of_connecting (show (s.modify k _).isConnecting = true from hconnecting)]
      obtain ⟨notices, hreject, -⟩ := exists_reject
        { ((s.modify k fun a => { a with readyState := .closing }).modify k
          (·.clearTimeout)).notify (.error "WebSocket error") with isConnecting := false }
        k "WebSocket error"
      rw [hreject]
      refine h.handled ha ⟨hhandlers, hopen⟩ (f := fun a =>
        ({ a with readyState := .closing }.clearTimeout).settle (.rejected "WebSocket error"))
        ?_ (hlater.trans (later_settle _ _ (by simp)))
        (.inr (settle_ne_pending (by simp)))
        (fun hpending => absurd hpending (settle_ne_pending (by simp))) rfl rfl rfl rfl rfl rfl
      show ((s.attempts.modify k _).modify k _).modify k _ = _
      rw [List.modify_modify_eq, List.modify_modify_eq]
      rfl

theorem Inv.scheduleReconnect (h : Inv s) (htimers : s.timers = [])
    (hdisconnected : s.disconnected = false)
    (hover : ∀ (k : ℕ) (a : ConnectAttempt), s.attempts[k]? = some a → ¬ a.Live) (timer : ℕ) :
    Inv (s.scheduleReconnect config timer) := by
  rw [WebSocketTransport.scheduleReconnect]
  split
  · exact ⟨h.current, h.connecting, h.timeout, h.timers, h.due, h.promise, h.calls, h.off⟩
  · refine ⟨h.current, h.connecting, h.timeout, fun timer' hmem => ?_, fun _ => hover, h.promise,
      h.calls, fun hoff => ?_⟩
    · rw [show s.timers ++ [timer] = [timer] by rw [htimers]; rfl] at hmem
      rw [List.mem_singleton.mp hmem]
    · rw [show s.disconnected = true from hoff] at hdisconnected
      cases hdisconnected

theorem Inv.notify (h : Inv s) (notice : TransportNotice) : Inv (s.notify notice) :=
  ⟨h.current, h.connecting, h.timeout, h.timers, h.due, h.promise, h.calls, h.off⟩

theorem Inv.closes (h : Inv s) (ha : s.attempts[k]? = some a) (hopen : a.readyState ≠ .closed)
    (hallowed : a.handlers = true → a.byTimer = false → a.promise ≠ .pending) :
    Inv (s.event k a .closed (·.onclose config k)) := by
  rw [event]
  rcases hhandlers : a.handlers with _ | _
  · exact h.unheard ha hopen .closed
  · simp only [if_true]
    have hlive : a.Live := ⟨hhandlers, hopen⟩
    have hclosed : ¬ ({ a with readyState := .closed } : ConnectAttempt).clearTimeout.Live :=
      fun hlive => hlive.2 rfl
    -- The fields without the notice and the timer.
    have hbase : Inv { (s.modify k fun a => { a with readyState := .closed }).modify k
        (·.clearTimeout) with connected := false, isConnecting := false } := by
      refine h.handled ha hlive (f := fun a => { a with readyState := .closed }.clearTimeout) ?_
        ((later_readyState hopen).trans (later_clearTimeout _)) (.inl hclosed)
        (fun hpending hbyTimer => absurd hpending (hallowed hhandlers hbyTimer))
        rfl rfl rfl rfl rfl rfl
      show (s.attempts.modify k _).modify k _ = _
      rw [List.modify_modify_eq]
      rfl
    have hover : ∀ (j : ℕ) (b : ConnectAttempt), ((s.modify k fun a =>
        { a with readyState := .closed }).modify k (·.clearTimeout)).attempts[j]? = some b →
        ¬ b.Live := by
      intro j b hb hblive
      rw [getElem?_modify, getElem?_modify] at hb
      split at hb
      · next heq =>
        subst heq
        rw [ha] at hb
        cases hb
        exact hclosed hblive
      · next hne => exact hne (h.eq_of_live ha hb hlive hblive)
    have htimers := h.timers_of_live ha hlive
    have hdisconnected := h.disconnected_of_live ha hlive
    rw [onclose]
    split
    · split
      · exact (hbase.notify _).scheduleReconnect htimers hdisconnected hover _
      · exact hbase.notify _
    · split
      · exact hbase.scheduleReconnect htimers hdisconnected hover _
      · exact hbase

theorem Inv.receives (h : Inv s) (ha : s.attempts[k]? = some a) (hopen : a.readyState ≠ .closed) :
    Inv (s.event k a .opened (·.notify .received)) := by
  rw [event]
  split
  · exact (h.unheard ha hopen .opened).notify _
  · exact h.unheard ha hopen .opened

theorem timeout_close (a : ConnectAttempt) : a.close.timeout = a.timeout := by
  rw [ConnectAttempt.close]
  split
  · rfl
  · rfl
  · rfl

theorem promise_close (a : ConnectAttempt) : a.close.promise = a.promise := by
  rw [ConnectAttempt.close]
  split
  · rfl
  · rfl
  · rfl

theorem of_getElem?_modify
    (h : (s.modify k f).attempts[j]? = some b) :
    ∃ a, s.attempts[j]? = some a ∧ ((j = k ∧ b = f a) ∨ (j ≠ k ∧ b = a)) := by
  rw [getElem?_modify] at h
  split at h
  · next heq =>
    obtain ⟨a, ha, rfl⟩ := Option.map_eq_some_iff.mp h
    exact ⟨a, ha, .inl ⟨heq.symm, rfl⟩⟩
  · next hne => exact ⟨b, h, .inr ⟨Ne.symm hne, rfl⟩⟩

theorem onward_closeSocket (s : WebSocketTransport) : Onward s s.closeSocket := by
  rw [closeSocket]
  split
  · exact onward_modify s _ fun a _ => later_close a
  · exact Onward.refl s

theorem of_closeSocket (h : s.closeSocket.attempts[j]? = some b) :
    ∃ a, s.attempts[j]? = some a ∧ b.byTimer = a.byTimer ∧ b.timeout = a.timeout ∧
      b.promise = a.promise := by
  rw [closeSocket] at h
  split at h
  · obtain ⟨a, ha, ⟨-, rfl⟩ | ⟨-, rfl⟩⟩ := of_getElem?_modify h
    · exact ⟨a, ha, (later_close a).byTimer, timeout_close a, promise_close a⟩
    · exact ⟨b, ha, rfl, rfl, rfl⟩
  · exact ⟨b, h, rfl, rfl, rfl⟩

theorem closeSocket_eq (s : WebSocketTransport) :
    s.closeSocket = { s with attempts := s.closeSocket.attempts } := by
  rw [closeSocket]
  split
  · rfl
  · rfl

theorem exists_onTimeout (s : WebSocketTransport) (k : ℕ) : ∃ attempts notices,
    s.onTimeout k = { s with attempts := attempts, notices := notices } ∧
    Onward s (s.onTimeout k) ∧
    (∀ (j : ℕ) (b : ConnectAttempt), attempts[j]? = some b → b.promise = .pending → j ≠ k ∧
      ∃ a, s.attempts[j]? = some a ∧ b.timeout = a.timeout) ∧
    (∀ (j : ℕ) (b : ConnectAttempt), attempts[j]? = some b → b.promise = .resolved →
      ∃ a, s.attempts[j]? = some a ∧ a.promise = .resolved) ∧
    ((∀ a ∈ s.attempts[k]?, a.byTimer = true → a.promise ≠ .pending) → notices = s.notices) := by
  obtain ⟨notices, hreject, hquiet⟩ :=
    exists_reject (s.modify k (·.clearTimeout)).closeSocket k "Connection timeout"
  have honward : Onward s (s.onTimeout k) := by
    have hclear := onward_modify s k fun a _ => later_clearTimeout a
    have hsettle := onward_modify (s.modify k (·.clearTimeout)).closeSocket k fun a _ =>
      later_settle a (.rejected "Connection timeout") (by simp)
    have hall := (hclear.trans (onward_closeSocket _)).trans hsettle
    rw [onTimeout, hreject]
    exact ⟨hall.length, hall.later⟩
  refine ⟨(s.onTimeout k).attempts, notices, ?_, honward, fun j b hb hpending => ?_,
    fun j b hb hresolved => ?_, fun hno => ?_⟩
  · rw [onTimeout, hreject, closeSocket_eq]
    rfl
  · rw [onTimeout, hreject] at hb
    obtain ⟨c, hc, ⟨-, rfl⟩ | ⟨hne, rfl⟩⟩ := of_getElem?_modify hb
    · exact absurd hpending (settle_ne_pending (by simp))
    · obtain ⟨d, hd, -, htimeout, -⟩ := of_closeSocket hc
      obtain ⟨a, ha, ⟨heq, -⟩ | ⟨-, rfl⟩⟩ := of_getElem?_modify hd
      · exact absurd heq hne
      · exact ⟨hne, _, ha, htimeout⟩
  · rw [onTimeout, hreject] at hb
    obtain ⟨c, hc, hb⟩ := of_getElem?_modify hb
    have hcresolved : c.promise = .resolved := by
      rcases hb with ⟨-, rfl⟩ | ⟨-, rfl⟩
      · rw [ConnectAttempt.settle] at hresolved
        split at hresolved
        · cases hresolved
        · exact hresolved
      · exact hresolved
    obtain ⟨d, hd, -, -, hpromise⟩ := of_closeSocket hc
    obtain ⟨a, ha, ⟨-, rfl⟩ | ⟨-, rfl⟩⟩ := of_getElem?_modify hd
    · exact ⟨a, ha, hpromise ▸ hcresolved⟩
    · exact ⟨d, ha, hpromise ▸ hcresolved⟩
  · rw [hquiet fun a ha hbyTimer => ?_, closeSocket_eq]
    · rfl
    · obtain ⟨c, hc, hctimer, -, hpromise⟩ := of_closeSocket (Option.mem_def.mp ha)
      rw [hctimer] at hbyTimer
      rw [hpromise]
      obtain ⟨d, hd, ⟨-, rfl⟩ | ⟨-, rfl⟩⟩ := of_getElem?_modify hc
      · exact hno d hd hbyTimer
      · exact hno c hd hbyTimer

theorem Inv.timesOut (h : Inv s) : Inv (s.onTimeout k) := by
  obtain ⟨attempts, notices, heq, honward, hpending, -, -⟩ := exists_onTimeout s k
  rw [heq] at honward ⊢
  refine h.onward honward rfl rfl rfl rfl rfl (fun j b hb hlive hp => ?_)
    (fun j b hb hp hbyTimer => ?_) fun hoff => ⟨hoff, (h.off hoff).2.2.1, rfl⟩
  · obtain ⟨a, ha, hlater⟩ := honward.later j b hb
    exact h.connecting j a ha (hlater.live hlive) (hlater.pending hp)
  · obtain ⟨-, a, ha, htimeout⟩ := hpending j b hb hp
    obtain ⟨a', ha', hlater⟩ := honward.later j b hb
    obtain rfl : a = a' := Option.some.inj (ha.symm.trans ha')
    exact htimeout.trans (h.timeout j a ha (hlater.pending hp) (hlater.byTimer ▸ hbyTimer))

theorem Inv.clear (h : Inv s) : s.clearReconnectTimeout =
    { s with timers := [], reconnectTimeout := none } := by
  rcases htimeout : s.reconnectTimeout with _ | timer
  · have hsame : s.clearReconnectTimeout = s := by simp only [clearReconnectTimeout, htimeout]
    have hnil : s.timers = [] := by
      refine List.eq_nil_iff_forall_not_mem.mpr fun timer hmem => ?_
      have hsome := h.timers timer hmem
      rw [htimeout] at hsome
      cases hsome
    rw [hsame, ← hnil, ← htimeout]
  · have hnil : s.timers.filter (· ≠ timer) = [] := by
      refine List.filter_eq_nil_iff.mpr fun timer' hmem => ?_
      have hsome := h.timers timer' hmem
      rw [htimeout] at hsome
      rw [Option.some.inj hsome]
      simp
    simp only [clearReconnectTimeout, htimeout, hnil]

/-- The socket is given up: it keeps its promise and its timeout, and cannot call its handlers. -/
def giveUp (s : WebSocketTransport) : List ConnectAttempt :=
  match s.ws with
  | some attempt => s.attempts.modify attempt fun a => { a.close with handlers := false }
  | none => s.attempts

theorem exists_disconnect (h : Inv s) : ∃ notices,
    s.disconnect = { s with
      attempts := s.giveUp, timers := [], ws := none, connected := false
      reconnectTimeout := none, shouldReconnect := false, isConnecting := false
      connectionPromise := none, notices := notices, disconnected := true } ∧
    (s.connected = false → notices = s.notices) := by
  rw [disconnect, h.clear]
  rcases hws : s.ws with _ | attempt
  · rcases hconnected : s.connected with _ | _
    · exact ⟨s.notices, by simp [hws, giveUp], fun _ => rfl⟩
    · exact ⟨s.notices ++ [.connection false], by simp [hws, giveUp, notify],
        fun hfalse => by cases hfalse⟩
  · rcases hconnected : s.connected with _ | _
    · exact ⟨s.notices, by simp [hws, giveUp, modify], fun _ => rfl⟩
    · exact ⟨s.notices ++ [.connection false], by simp [hws, giveUp, modify, notify],
        fun hfalse => by cases hfalse⟩

theorem length_giveUp (s : WebSocketTransport) : s.giveUp.length = s.attempts.length := by
  rw [giveUp]
  split
  · exact List.length_modify ..
  · rfl

theorem of_giveUp (hb : s.giveUp[j]? = some b) :
    ∃ a, s.attempts[j]? = some a ∧ Later a b ∧ b.timeout = a.timeout ∧ b.promise = a.promise ∧
      (b.Live → s.ws ≠ some j) := by
  rw [giveUp] at hb
  split at hb
  · next attempt hws =>
    obtain ⟨a, ha, ⟨-, rfl⟩ | ⟨hne, rfl⟩⟩ := of_getElem?_modify (s := s) hb
    · have hlater : Later a { a.close with handlers := false } :=
        ⟨(later_close a).byTimer, fun hlive => (by cases hlive.1), (later_close a).pending⟩
      exact ⟨a, ha, hlater, timeout_close a, promise_close a, fun hlive => by cases hlive.1⟩
    · exact ⟨b, ha, Later.refl b, rfl, rfl, fun _ hsome => hne
        (Option.some.inj (hsome.symm.trans hws))⟩
  · next hws =>
    refine ⟨b, hb, Later.refl b, rfl, rfl, fun _ hsome => ?_⟩
    rw [hws] at hsome
    cases hsome

theorem Inv.disconnect (h : Inv s) : Inv s.disconnect := by
  obtain ⟨notices, heq, -⟩ := exists_disconnect h
  have hnone : ∀ (k : ℕ) (b : ConnectAttempt), s.giveUp[k]? = some b → ¬ b.Live := by
    intro k b hb hlive
    obtain ⟨a, ha, hlater, -, -, hws⟩ := of_giveUp hb
    exact hws hlive (h.current k a ha (hlater.live hlive))
  rw [heq]
  refine ⟨fun k b hb hlive => (hnone k b hb hlive).elim,
    fun k b hb hlive => (hnone k b hb hlive).elim, fun k b hb hpending hbyTimer => ?_,
    fun timer hmem => (by cases hmem), fun hne => (hne rfl).elim, fun k hk => (by cases hk),
    fun k hk => ?_, fun _ => ⟨rfl, rfl, rfl, rfl⟩⟩
  · obtain ⟨a, ha, hlater, htimeout, -⟩ := of_giveUp hb
    rw [htimeout]
    exact h.timeout k a ha (hlater.pending hpending) (hlater.byTimer ▸ hbyTimer)
  · obtain ⟨a, ha, hbyTimer⟩ := h.calls k hk
    have hlt : k < s.giveUp.length := by
      rw [length_giveUp]
      exact (List.getElem?_eq_some_iff.mp ha).1
    obtain ⟨a', ha', hlater, -⟩ := of_giveUp (List.getElem?_eq_getElem hlt)
    obtain rfl : a = a' := Option.some.inj (ha.symm.trans ha')
    exact ⟨_, List.getElem?_eq_getElem hlt, hlater.byTimer.trans hbyTimer⟩

theorem getElem?_concat {α : Type} {as : List α} {a b : α}
    (hb : (as ++ [a])[j]? = some b) : as[j]? = some b ∨ (j = as.length ∧ b = a) := by
  rw [List.getElem?_append] at hb
  split at hb
  · exact .inl hb
  · next hge =>
    obtain ⟨hlt, heq⟩ := List.getElem?_eq_some_iff.mp hb
    rw [List.length_singleton] at hlt
    simp only [List.getElem_singleton] at heq
    exact .inr ⟨by omega, heq.symm⟩

theorem exists_concat (b : ConnectAttempt)
    (h : ∃ a, s.attempts[j]? = some a ∧ a.byTimer = false) :
    ∃ a, (s.attempts ++ [b])[j]? = some a ∧ a.byTimer = false := by
  obtain ⟨a, ha, hbyTimer⟩ := h
  exact ⟨a, by rw [List.getElem?_append_left (List.getElem?_eq_some_iff.mp ha).1, ha], hbyTimer⟩

theorem Inv.doConnect (h : Inv s) (htimers : s.timers = []) (hdisconnected : s.disconnected = false)
    (hover : ∀ (k : ℕ) (a : ConnectAttempt), s.attempts[k]? = some a → ¬ a.Live) (byTimer : Bool)
    (failure : Option String) : Inv (s.doConnect byTimer failure) := by
  have hoff : s.disconnected = true → False := fun htrue => by
    rw [hdisconnected] at htrue
    cases htrue
  have hdue : s.timers ≠ [] → False := fun hne => hne htimers
  rw [WebSocketTransport.doConnect.eq_def]
  cases failure with
  | none =>
    refine ⟨fun k b hb hlive => ?_, fun _ _ _ _ _ => rfl, fun k b hb hpending hbyTimer => ?_,
      h.timers, fun hne => (hdue hne).elim, fun k hk => exists_concat _ (h.promise k hk),
      fun k hk => exists_concat _ (h.calls k hk), fun htrue => (hoff htrue).elim⟩
    · rcases getElem?_concat hb with hb | ⟨rfl, rfl⟩
      · exact absurd hlive (hover k b hb)
      · rfl
    · rcases getElem?_concat hb with hb | ⟨rfl, rfl⟩
      · exact h.timeout k b hb hpending hbyTimer
      · rfl
  | some message =>
    have hbase : Inv { s with
        attempts := s.attempts ++ [⟨byTimer, .rejected message, false, .closed, false⟩]
        isConnecting := false } := by
      have hnone : ∀ (k : ℕ) (b : ConnectAttempt), (s.attempts ++
          [⟨byTimer, .rejected message, false, .closed, false⟩])[k]? = some b → ¬ b.Live := by
        intro k b hb hlive
        rcases getElem?_concat hb with hb | ⟨rfl, rfl⟩
        · exact hover k b hb hlive
        · exact hlive.2 rfl
      refine ⟨fun k b hb hlive => (hnone k b hb hlive).elim,
        fun k b hb hlive => (hnone k b hb hlive).elim, fun k b hb hpending hbyTimer => ?_,
        h.timers, fun hne => (hdue hne).elim, fun k hk => exists_concat _ (h.promise k hk),
        fun k hk => exists_concat _ (h.calls k hk), fun htrue => (hoff htrue).elim⟩
      rcases getElem?_concat hb with hb | ⟨rfl, rfl⟩
      · exact h.timeout k b hb hpending hbyTimer
      · cases hpending
    simp only
    split
    · exact hbase.notify _
    · exact hbase

theorem Inv.reconnects (h : Inv s) {timer : ℕ} (hmem : timer ∈ s.timers) (failure : Option String) :
    Inv ({ s with timers := s.timers.filter (· ≠ timer), reconnectTimeout := none }.doConnect
      true failure) := by
  have hover := h.due (List.ne_nil_of_mem hmem)
  have hsame : ∀ timer' ∈ s.timers, timer' = timer := fun timer' hmem' =>
    Option.some.inj ((h.timers timer' hmem').symm.trans (h.timers timer hmem))
  have hnil : s.timers.filter (· ≠ timer) = [] :=
    List.filter_eq_nil_iff.mpr fun timer' hmem' => by simp [hsame timer' hmem']
  have hdisconnected : s.disconnected = false := by
    by_contra hdisconnected
    rw [(h.off (eq_true_of_ne_false hdisconnected)).2.1] at hmem
    cases hmem
  have hbase : Inv { s with
      timers := s.timers.filter (· ≠ timer)
      reconnectTimeout := none } := by
    refine ⟨h.current, h.connecting, h.timeout, fun timer' hmem' => ?_, fun hne => (hne hnil).elim,
      h.promise, h.calls, fun htrue => ?_⟩
    · rw [show s.timers.filter (· ≠ timer) = [] from hnil] at hmem'
      cases hmem'
    · rw [show s.disconnected = true from htrue] at hdisconnected
      cases hdisconnected
  exact hbase.doConnect hnil hdisconnected hover true failure

theorem attempts_doConnect (s : WebSocketTransport) (byTimer : Bool) (failure : Option String) :
    ∃ a, (s.doConnect byTimer failure).attempts = s.attempts ++ [a] ∧ a.byTimer = byTimer ∧
      a.promise ≠ .resolved := by
  rw [doConnect.eq_def]
  cases failure with
  | none => exact ⟨_, rfl, rfl, by simp⟩
  | some message =>
    cases byTimer with
    | false => exact ⟨_, rfl, rfl, by simp⟩
    | true => exact ⟨_, rfl, rfl, by simp⟩

theorem connect_cases (h : Inv s) (config : WebSocketTransportConfig) (failure : Option String) :
    ∃ t, Inv t ∧ t.attempts = s.attempts ∧ t.calls = s.calls ∧ t.connected = s.connected ∧
      t.ws = s.ws ∧ t.disconnected = false ∧ t.timers = [] ∧
      ((s.connected = true ∧ s.connect config failure = { t with calls := t.calls ++ [.done] }) ∨
      (∃ attempt, s.connected = false ∧ s.isConnecting = true ∧
        s.connectionPromise = some attempt ∧ t.connectionPromise = some attempt ∧
        s.connect config failure = { t with calls := t.calls ++ [.awaits attempt] }) ∨
      (s.connected = false ∧ (s.isConnecting = true → s.connectionPromise = none) ∧
        s.connect config failure = { t.doConnect false failure with
          connectionPromise := some t.attempts.length
          calls := t.calls ++ [.awaits t.attempts.length] })) := by
  have hbase : ∀ shouldReconnect, Inv { s with
      timers := [], reconnectTimeout := none, disconnected := false
      shouldReconnect := shouldReconnect } := fun shouldReconnect =>
    ⟨h.current, h.connecting, h.timeout, fun timer hmem => (by cases hmem),
      fun hne => (hne rfl).elim, h.promise, h.calls, fun htrue => by cases htrue⟩
  rw [connect, h.clear]
  rcases hconnected : s.connected with _ | _
  · rcases hconnecting : s.isConnecting with _ | _
    · exact ⟨_, hbase config.reconnect, rfl, rfl, hconnected, rfl, rfl, rfl,
        .inr (.inr ⟨rfl, fun hfalse => (by cases hfalse), by simp [hconnected, hconnecting]⟩)⟩
    · rcases hpromise : s.connectionPromise with _ | attempt
      · exact ⟨_, hbase config.reconnect, rfl, rfl, hconnected, rfl, rfl, rfl,
          .inr (.inr ⟨rfl, fun _ => rfl, by simp [hconnected, hconnecting, hpromise]⟩)⟩
      · exact ⟨_, hbase s.shouldReconnect, rfl, rfl, hconnected, rfl, rfl, rfl,
          .inr (.inl ⟨attempt, rfl, rfl, rfl, hpromise,
            by simp [hconnected, hconnecting, hpromise]⟩)⟩
  · exact ⟨_, hbase s.shouldReconnect, rfl, rfl, hconnected, rfl, rfl, rfl,
      .inl ⟨rfl, by simp [hconnected]⟩⟩

variable {failure : Option String}

theorem Inv.over_of_allowed (h : Inv s)
    (hallowed : s.Allowed (.connect failure)) (hconnected : s.connected = false)
    (hpromise : s.isConnecting = true → s.connectionPromise = none) (k : ℕ) (a : ConnectAttempt)
    (ha : s.attempts[k]? = some a) : ¬ a.Live := by
  intro hlive
  exact (hallowed hconnected).2 hpromise k (h.current k a ha hlive) a ha hlive

theorem doConnect_same (s : WebSocketTransport) (byTimer : Bool) (failure : Option String) :
    (s.doConnect byTimer failure).calls = s.calls ∧
      (s.doConnect byTimer failure).disconnected = s.disconnected := by
  rw [doConnect.eq_def]
  cases failure with
  | none => exact ⟨rfl, rfl⟩
  | some message =>
    cases byTimer with
    | false => exact ⟨rfl, rfl⟩
    | true => exact ⟨rfl, rfl⟩

theorem Inv.connect (h : Inv s)
    (hallowed : s.Allowed (.connect failure)) : Inv (s.connect config failure) := by
  obtain ⟨t, ht, hattempts, -, hconnected, -, hdisconnected, htimers, hcases⟩ :=
    connect_cases h config failure
  rcases hcases with ⟨-, heq⟩ | ⟨attempt, -, -, -, hpromise, heq⟩ | ⟨hoff, hpromise, heq⟩
  · rw [heq]
    refine ⟨ht.current, ht.connecting, ht.timeout, ht.timers, ht.due, ht.promise,
      fun k hk => ?_, ht.off⟩
    rcases List.mem_append.mp hk with hk | hk
    · exact ht.calls k hk
    · cases List.mem_singleton.mp hk
  · rw [heq]
    refine ⟨ht.current, ht.connecting, ht.timeout, ht.timers, ht.due, ht.promise,
      fun k hk => ?_, ht.off⟩
    rcases List.mem_append.mp hk with hk | hk
    · exact ht.calls k hk
    · cases List.mem_singleton.mp hk
      exact ht.promise _ hpromise
  · have hover := h.over_of_allowed hallowed hoff hpromise
    rw [← hattempts] at hover
    have hnew := ht.doConnect htimers hdisconnected hover false failure
    obtain ⟨a, hlast, hbyTimer, -⟩ := attempts_doConnect t false failure
    have hget : (t.doConnect false failure).attempts[t.attempts.length]? = some a := by
      rw [hlast]
      exact List.getElem?_concat_length
    rw [heq]
    refine ⟨hnew.current, hnew.connecting, hnew.timeout, hnew.timers, hnew.due,
      fun k hk => ?_, fun k hk => ?_, hnew.off⟩
    · cases hk
      exact ⟨a, hget, hbyTimer⟩
    · rcases List.mem_append.mp hk with hk | hk
      · exact hnew.calls k ((doConnect_same t false failure).1 ▸ hk)
      · cases List.mem_singleton.mp hk
        exact ⟨a, hget, hbyTimer⟩

end N8n.WebSocketTransport
