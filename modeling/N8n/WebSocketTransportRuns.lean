/-
Runs of the transport.

* **`correct_of_allowed`** — a run of which no step comes at a bad moment does what the transport
  promises.
-/
import N8n.WebSocketTransportSteps

namespace N8n.WebSocketTransport

variable {config : WebSocketTransportConfig} {s s' t : WebSocketTransport} {k : ℕ}
  {a : ConnectAttempt} {i : TransportInput}

theorem Inv.correct (h : Inv s')
    (hconnected : ∀ (n : ℕ) (call : ConnectCall), s'.calls[n]? = some call → s'.Resolved call →
      (s.calls[n]? = some call → ¬ s.Resolved call) → s'.connected = true)
    (hquiet : s.disconnected = true → (∀ failure, i ≠ .connect failure) →
      s'.attempts.length = s.attempts.length ∧ s'.notices = s.notices) : Correct s i s' := by
  have hlive : ∀ a : ConnectAttempt, a.Usable → a.Live := by
    rintro a ⟨hhandlers, hstate | hstate⟩
    · exact ⟨hhandlers, by rw [hstate]; decide⟩
    · exact ⟨hhandlers, by rw [hstate]; decide⟩
  refine ⟨fun j k a b ha hb hausable hbusable => ?_, hconnected, fun k hk => ?_, hquiet⟩
  · exact h.eq_of_live ha hb (hlive a hausable) (hlive b hbusable)
  · obtain ⟨a, ha, hbyTimer⟩ := h.calls k hk
    exact ⟨a, ha, fun hpending => .inl (h.timeout k a ha hpending hbyTimer)⟩

/-- No promise is resolved that was not before. -/
def Backed (s s' : WebSocketTransport) : Prop :=
  ∀ (k : ℕ) (b : ConnectAttempt), s'.attempts[k]? = some b → b.promise = .resolved →
    ∃ a, s.attempts[k]? = some a ∧ a.promise = .resolved

theorem connected_of_backed (hbacked : Backed s s')
    (hcalls : ∀ (n : ℕ) (call : ConnectCall), s'.calls[n]? = some call →
      s.calls[n]? = some call ∨ ¬ s'.Resolved call)
    (n : ℕ) (call : ConnectCall) (hcall : s'.calls[n]? = some call) (hresolved : s'.Resolved call)
    (hnew : s.calls[n]? = some call → ¬ s.Resolved call) : s'.connected = true := by
  rcases hcalls n call hcall with hold | hno
  · refine absurd ?_ (hnew hold)
    cases call with
    | done => trivial
    | awaits k =>
      obtain ⟨b, hb, hpromise⟩ := hresolved
      exact hbacked k b hb hpromise
  · exact absurd hresolved hno

theorem Backed.trans (h : Backed s t) (h' : Backed t s') : Backed s s' := by
  intro k b hb hresolved
  obtain ⟨c, hc, hcresolved⟩ := h' k b hb hresolved
  exact h k c hc hcresolved

theorem backed_modify (s : WebSocketTransport) (k : ℕ) {f : ConnectAttempt → ConnectAttempt}
    (hf : ∀ a, (f a).promise = .resolved → a.promise = .resolved) : Backed s (s.modify k f) := by
  intro j b hb hresolved
  obtain ⟨a, ha, ⟨-, rfl⟩ | ⟨-, rfl⟩⟩ := of_getElem?_modify hb
  · exact ⟨a, ha, hf a hresolved⟩
  · exact ⟨b, ha, hresolved⟩

theorem backed_reject (s : WebSocketTransport) (k : ℕ) (message : String) :
    Backed s (s.reject k message) ∧ (s.reject k message).calls = s.calls := by
  obtain ⟨notices, heq, -⟩ := exists_reject s k message
  have hsettle : Backed s (s.modify k (·.settle (.rejected message))) := by
    refine backed_modify s k fun a hresolved => ?_
    rw [ConnectAttempt.settle] at hresolved
    split at hresolved
    · cases hresolved
    · exact hresolved
  rw [heq]
  exact ⟨hsettle, rfl⟩

theorem backed_onerror (s : WebSocketTransport) (k : ℕ) :
    Backed s (s.onerror k) ∧ (s.onerror k).calls = s.calls := by
  have hclear : Backed s (s.modify k (·.clearTimeout)) := backed_modify s k fun _ h => h
  rcases hconnecting : s.isConnecting with _ | _
  · rw [onerror_of_not_connecting hconnecting]
    exact ⟨hclear, rfl⟩
  · rw [onerror_of_connecting hconnecting]
    obtain ⟨hreject, hcalls⟩ := backed_reject
      { (s.modify k (·.clearTimeout)).notify (.error "WebSocket error") with isConnecting := false }
      k "WebSocket error"
    exact ⟨Backed.trans (t := { (s.modify k (·.clearTimeout)).notify (.error "WebSocket error") with
      isConnecting := false }) hclear hreject, hcalls⟩

theorem backed_onclose (config : WebSocketTransportConfig) (s : WebSocketTransport) (k : ℕ) :
    Backed s (s.onclose config k) ∧ (s.onclose config k).calls = s.calls := by
  have hschedule : ∀ t : WebSocketTransport, (t.scheduleReconnect config k).attempts = t.attempts ∧
      (t.scheduleReconnect config k).calls = t.calls := by
    intro t
    rw [scheduleReconnect]
    split
    · exact ⟨rfl, rfl⟩
    · exact ⟨rfl, rfl⟩
  have hsame : (s.onclose config k).attempts = (s.modify k (·.clearTimeout)).attempts ∧
      (s.onclose config k).calls = s.calls := by
    rw [onclose]
    split
    · split
      · exact hschedule _
      · exact ⟨rfl, rfl⟩
    · split
      · exact hschedule _
      · exact ⟨rfl, rfl⟩
  have hclear : Backed s (s.modify k (·.clearTimeout)) := backed_modify s k fun _ h => h
  refine ⟨fun j b hb hresolved => ?_, hsame.2⟩
  rw [hsame.1] at hb
  exact hclear j b hb hresolved

theorem event_of_disconnected (h : Inv s) (ha : s.attempts[k]? = some a)
    (hopen : a.readyState ≠ .closed) (hdisconnected : s.disconnected = true)
    (readyState : ReadyState) (handler : WebSocketTransport → WebSocketTransport) :
    s.event k a readyState handler = s.modify k fun a => { a with readyState } := by
  rw [event]
  rcases hhandlers : a.handlers with _ | _
  · rfl
  · rw [h.disconnected_of_live ha ⟨hhandlers, hopen⟩] at hdisconnected
    cases hdisconnected

theorem correct_event (h : Inv s) (ha : s.attempts[k]? = some a) (hopen : a.readyState ≠ .closed)
    {readyState : ReadyState} {handler : WebSocketTransport → WebSocketTransport}
    (hinv : Inv (s.event k a readyState handler))
    (hhandler : ∀ t, Backed t (handler t) ∧ (handler t).calls = t.calls) :
    Correct s i (s.event k a readyState handler) := by
  have hstate : Backed s (s.modify k fun a => { a with readyState }) :=
    backed_modify s k fun _ h => h
  have hevent : Backed s (s.event k a readyState handler) ∧
      (s.event k a readyState handler).calls = s.calls := by
    rw [event]
    split
    · exact ⟨hstate.trans (hhandler _).1, (hhandler _).2⟩
    · exact ⟨hstate, rfl⟩
  refine hinv.correct (connected_of_backed hevent.1 fun n call hcall => ?_)
    fun hdisconnected _ => ?_
  · rw [hevent.2] at hcall
    exact .inl hcall
  · rw [event_of_disconnected h ha hopen hdisconnected]
    exact ⟨List.length_modify .., rfl⟩

theorem correct_opens (h : Inv s) (ha : s.attempts[k]? = some a)
    (hstate : a.readyState = .connecting) :
    Correct s i (s.event k a .opened (·.onopen k)) := by
  have hopen : a.readyState ≠ .closed := by
    rw [hstate]
    decide
  refine (h.opens ha hstate).correct (fun n call hcall hresolved hnew => ?_)
    fun hdisconnected _ => ?_
  · rcases hhandlers : a.handlers with _ | _
    · simp only [event, hhandlers] at hcall hresolved ⊢
      exact connected_of_backed (backed_modify s k fun _ h => h) (fun _ _ h => .inl h) n call hcall
        hresolved hnew
    · simp only [event, hhandlers, if_true]
      rfl
  · rw [event_of_disconnected h ha hopen hdisconnected]
    exact ⟨List.length_modify .., rfl⟩

theorem correct_timesOut (h : Inv s) (hallowed : s.Allowed (.timesOut k)) :
    Correct s i (s.onTimeout k) := by
  obtain ⟨attempts, notices, heq, honward, -, hresolved, hquiet⟩ := exists_onTimeout s k
  refine h.timesOut.correct ?_ fun hdisconnected _ => ⟨honward.length, ?_⟩
  · refine connected_of_backed ?_ ?_
    · rw [heq]
      exact hresolved
    · rw [heq]
      exact fun _ _ h => .inl h
  · rw [heq]
    exact hquiet (hallowed hdisconnected)

theorem correct_disconnect (h : Inv s) : Correct s i s.disconnect := by
  obtain ⟨notices, heq, hquiet⟩ := exists_disconnect h
  refine h.disconnect.correct (connected_of_backed (fun k b hb hresolved => ?_) ?_)
    fun hdisconnected _ => ?_
  · rw [heq] at hb
    obtain ⟨a, ha, -, -, hpromise, -⟩ := of_giveUp hb
    exact ⟨a, ha, hpromise ▸ hresolved⟩
  · rw [heq]
    exact fun _ _ h => .inl h
  · rw [heq]
    exact ⟨length_giveUp s, hquiet (h.off hdisconnected).2.2.1⟩

theorem backed_doConnect (s : WebSocketTransport) (byTimer : Bool) (failure : Option String) :
    Backed s (s.doConnect byTimer failure) := by
  obtain ⟨a, hattempts, -, hpromise⟩ := attempts_doConnect s byTimer failure
  intro k b hb hresolved
  rw [hattempts] at hb
  rcases getElem?_concat hb with hb | ⟨rfl, rfl⟩
  · exact ⟨b, hb, hresolved⟩
  · exact absurd hresolved hpromise

theorem correct_reconnects (h : Inv s) {timer : ℕ} (hmem : timer ∈ s.timers)
    (failure : Option String) : Correct s i
      ({ s with timers := s.timers.filter (· ≠ timer), reconnectTimeout := none }.doConnect
        true failure) := by
  refine (h.reconnects hmem failure).correct (connected_of_backed ?_ fun n call hcall => ?_)
    fun hdisconnected _ => ?_
  · exact backed_doConnect _ true failure
  · rw [(doConnect_same _ true failure).1] at hcall
    exact .inl hcall
  · rw [(h.off hdisconnected).2.1] at hmem
    cases hmem

theorem correct_connect (h : Inv s) {failure : Option String}
    (hallowed : s.Allowed (.connect failure)) :
    Correct s (.connect failure) (s.connect config failure) := by
  obtain ⟨t, ht, hattempts, hcalls, hconnected, -, -, -, hcases⟩ :=
    connect_cases h config failure
  refine (h.connect hallowed).correct ?_ fun _ hno => absurd rfl (hno failure)
  rcases hcases with ⟨htrue, heq⟩ | ⟨attempt, hoff, hconnecting, hcached, -, heq⟩ | ⟨-, -, heq⟩
  · rw [heq]
    exact fun _ _ _ _ _ => hconnected.trans htrue
  · rw [heq]
    refine connected_of_backed (fun k b hb hresolved => ⟨b, hattempts ▸ hb, hresolved⟩)
      fun n call hcall => ?_
    rcases getElem?_concat hcall with hold | ⟨-, rfl⟩
    · exact .inl (hcalls ▸ hold)
    · refine .inr ?_
      rintro ⟨a, ha, hresolved⟩
      exact (hallowed hoff).1 hconnecting attempt hcached a (hattempts ▸ ha) hresolved
  · rw [heq]
    obtain ⟨a, hnew, -, hpromise⟩ := attempts_doConnect t false failure
    have hbacked : Backed s (t.doConnect false failure) := fun k b hb hresolved => by
      obtain ⟨c, hc, hcresolved⟩ := backed_doConnect t false failure k b hb hresolved
      exact ⟨c, hattempts ▸ hc, hcresolved⟩
    refine connected_of_backed hbacked fun n call hcall => ?_
    rcases getElem?_concat hcall with hold | ⟨-, rfl⟩
    · exact .inl (hcalls ▸ hold)
    · refine .inr ?_
      rintro ⟨b, hb, hresolved⟩
      have hlast : (t.doConnect false failure).attempts[t.attempts.length]? = some a := by
        rw [hnew]
        exact List.getElem?_concat_length
      rw [show _ = some b from hb] at hlast
      exact hpromise (Option.some.inj hlast ▸ hresolved)

theorem onAttempt_eq_ok {possible : ConnectAttempt → Prop} [DecidablePred possible]
    {next : ConnectAttempt → WebSocketTransport} (h : s.onAttempt k possible next = .ok s') :
    ∃ a, s.attempts[k]? = some a ∧ possible a ∧ next a = s' := by
  rw [onAttempt] at h
  split at h
  · next a ha =>
    rw [onlyIf_eq_ok] at h
    exact ⟨a, ha, h⟩
  · cases h

/-- **The step lemma.** -/
theorem correct_step (h : Inv s) (hstep : step config s i = .ok s') (hallowed : s.Allowed i) :
    Correct s i s' ∧ Inv s' := by
  cases i with
  | connect failure =>
    cases hstep
    exact ⟨correct_connect h hallowed, h.connect hallowed⟩
  | disconnect =>
    cases hstep
    exact ⟨correct_disconnect h, h.disconnect⟩
  | opens k =>
    obtain ⟨a, ha, hstate, rfl⟩ := onAttempt_eq_ok hstep
    exact ⟨correct_opens h ha hstate, h.opens ha hstate⟩
  | closes k =>
    obtain ⟨a, ha, hopen, rfl⟩ := onAttempt_eq_ok hstep
    have hinv : Inv (s.event k a .closed (·.onclose config k)) := h.closes ha hopen (hallowed a ha)
    exact ⟨correct_event h ha hopen hinv fun t => backed_onclose config t k, hinv⟩
  | fails k =>
    obtain ⟨a, ha, hopen, rfl⟩ := onAttempt_eq_ok hstep
    have hinv := h.fails ha hopen
    exact ⟨correct_event h ha hopen hinv fun t => backed_onerror t k, hinv⟩
  | receives k =>
    obtain ⟨a, ha, hstate, rfl⟩ := onAttempt_eq_ok hstep
    have hopen : a.readyState ≠ .closed := by
      rw [hstate]
      decide
    have hinv := h.receives ha hopen
    exact ⟨correct_event h ha hopen hinv fun t => ⟨fun _ b hb hresolved => ⟨b, hb, hresolved⟩, rfl⟩,
      hinv⟩
  | timesOut k =>
    obtain ⟨a, -, -, rfl⟩ := onAttempt_eq_ok hstep
    exact ⟨correct_timesOut h hallowed, h.timesOut⟩
  | reconnects timer failure =>
    rw [step, onlyIf_eq_ok] at hstep
    obtain ⟨hmem, rfl⟩ := hstep
    exact ⟨correct_reconnects h hmem failure, h.reconnects hmem failure⟩

theorem inv_start : Inv {} where
  current _ _ h := by cases h
  connecting _ _ h := by cases h
  timeout _ _ h := by cases h
  timers _ h := by cases h
  due h := absurd rfl h
  promise _ h := by cases h
  calls _ h := by cases h
  off h := by cases h

/-- **The transport does what it promises** in every run without a bad moment. -/
theorem correct_of_allowed (config : WebSocketTransportConfig) (is : List TransportInput)
    (h : Along (step config) (fun s i _ => Allowed s i) {} is) :
    Along (step config) Correct {} is := by
  refine Along.of_step (I := Inv) (V := fun s i _ => Allowed s i) ?_ inv_start h
  exact fun s i s' hinv hstep hallowed => correct_step hinv hstep hallowed

/-- A connection is lost and made again, and a call of `connect` fails. -/
theorem correct_connectAgain : Along (step {}) Correct {}
    [.connect none, .opens 0, .closes 0, .reconnects 0 none, .opens 1, .disconnect,
      .connect none, .fails 2, .closes 2] :=
  correct_of_allowed {} _ (by decide)

/-- During a reconnection `connect` returns the promise of the first connection. -/
theorem not_correct_reconnecting : ¬ Along (step {}) Correct {}
    [.connect none, .opens 0, .closes 0, .reconnects 0 none, .connect none] := by
  intro h
  have hlast := ((((h _ rfl).2 _ rfl).2 _ rfl).2 _ rfl).2 _ rfl
  have hconnected := hlast.1.connected 1 (.awaits 0) rfl ⟨_, rfl, rfl⟩ fun hold => by cases hold
  cases hconnected

end N8n.WebSocketTransport
