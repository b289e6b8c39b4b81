/-
When two sync providers converge.

A provider that syncs has sent its document once, and what was sent reaches the
peer if it is delivered to its handlers.  So every update of the one document is in
the other or on its way, until an update is made while the connection is down, or
a message finds no handler or is lost: nothing is ever sent again.

* `converged_of_kept` — **two providers whose steps lose no update converge: when
  nothing is in flight both documents are all the edits made on either side**.
-/
import N8n.SyncProvider

namespace N8n.SyncRun

variable {α : Type} {s s' : SyncRun α} {side : Side}

/-- Once both providers sync, over connected transports and with nothing in flight,
each document is the set of all edits. -/
def Converged (s : SyncRun α) : Prop :=
  (∀ side, (s.replica side).syncing = true) → s.BothConnected → (∀ side, s.inFlight side = []) →
    ∀ side, (s.replica side).doc = s.edits

instance [DecidableEq α] (s : SyncRun α) : Decidable s.Converged :=
  inferInstanceAs (Decidable (_ → _))

/-- The message for a side brings it nothing that it has not, or is not to get from
one of the other messages. -/
def Redundant (s : SyncRun α) (side : Side) (message : Finset α) (others : List (Finset α)) :
    Prop :=
  ∀ x ∈ message, x ∈ (s.replica side).doc ∨ ∃ m ∈ others, x ∈ m

instance [DecidableEq α] (message : Finset α) (others : List (Finset α)) :
    Decidable (s.Redundant side message others) := inferInstanceAs (Decidable (∀ _ ∈ _, _))

/-- No update is lost: a side that syncs is edited while its transport is connected,
and a message of a side that syncs is neither lost nor delivered before the peer
has registered its handlers. -/
def Kept (s : SyncRun α) : SyncInput α → Prop
  | .edit side update => (s.replica side).syncing = true →
    (s.replica side).transport.connected = true ∨ update ⊆ (s.replica side).doc
  | .deliver side => match s.inFlight side with
    | message :: rest => (s.replica side.other).syncing = true →
      (s.replica side).subscribed = true ∨ s.Redundant side message rest
    | [] => True
  | .lose side index => match (s.inFlight side)[index]? with
    | some message => (s.replica side.other).syncing = true →
      s.Redundant side message ((s.inFlight side).eraseIdx index)
    | none => True
  | _ => True

instance [DecidableEq α] (input : SyncInput α) : Decidable (s.Kept input) := by
  unfold Kept
  split
  · infer_instance
  · split <;> infer_instance
  · split <;> infer_instance
  · infer_instance

/-- Every update of a side is on the other side or on its way there. -/
def Covered (s : SyncRun α) (side : Side) : Prop :=
  ∀ x ∈ (s.replica side).doc,
    x ∈ (s.replica side.other).doc ∨ ∃ m ∈ s.inFlight side.other, x ∈ m

structure Inv (s : SyncRun α) : Prop where
  covered : ∀ side, (s.replica side).syncing = true → s.Covered side
  subscribed : ∀ side, (s.replica side).syncing = true → (s.replica side).subscribed = true
  sound : ∀ side, ∀ m ∈ s.inFlight side, m ⊆ (s.replica side.other).doc
  edits : ∀ x, x ∈ s.edits ↔ ∃ side, x ∈ (s.replica side).doc

theorem Inv.converged (h : s.Inv) : s.Converged := by
  intro hsyncing _ hquiet side
  have hsub (side : Side) : (s.replica side).doc ⊆ (s.replica side.other).doc := by
    intro x hx
    rcases h.covered side (hsyncing side) x hx with hother | ⟨m, hm, -⟩
    · exact hother
    · rw [hquiet side.other] at hm
      cases hm
  ext x
  rw [h.edits]
  constructor
  · exact fun hx => ⟨side, hx⟩
  · rintro ⟨side', hx⟩
    rcases side.eq_or_eq_other side' with rfl | rfl
    · exact hx
    · have hback := hsub side.other hx
      rwa [Side.other_other] at hback

theorem inv_init (config : Side → TransportConfig) : Inv (init config : SyncRun α) where
  covered := by
    intro side h
    cases h
  subscribed := by
    intro side h
    cases h
  sound := fun _ m hm => by cases hm
  edits := by simp [init]

theorem Inv.of_same (h : s.Inv) (hdoc : ∀ side, (s'.replica side).doc = (s.replica side).doc)
    (hsyncing : ∀ side, (s'.replica side).syncing = (s.replica side).syncing)
    (hsubscribed : ∀ side, (s.replica side).subscribed = true →
      (s'.replica side).subscribed = true)
    (hflight : s'.inFlight = s.inFlight) (hedits : s'.edits = s.edits) : s'.Inv where
  covered := by
    intro side hs x hx
    rw [hsyncing] at hs
    rw [hdoc] at hx
    rw [hdoc, hflight]
    exact h.covered side hs x hx
  subscribed := fun side hs => hsubscribed side (h.subscribed side (hsyncing side ▸ hs))
  sound := by
    intro side m hm
    rw [hdoc]
    exact h.sound side m (hflight ▸ hm)
  edits := by
    intro x
    rw [hedits, h.edits]
    exact exists_congr fun side => by rw [hdoc]

theorem Inv.drop (h : s.Inv) (side : Side) (messages : List (Finset α))
    (hmessages : ∀ m ∈ messages, m ∈ s.inFlight side)
    (hcovered : (s.replica side.other).syncing = true → ∀ m ∈ s.inFlight side, ∀ x ∈ m,
      x ∈ (s.replica side).doc ∨ ∃ m ∈ messages, x ∈ m) :
    Inv { s with inFlight := Function.update s.inFlight side messages } where
  covered := by
    intro side' hs x hx
    rcases h.covered side' hs x hx with hother | ⟨m, hm, hxm⟩
    · exact .inl hother
    · -- only what was on its way to `side` may be gone
      rcases side.eq_or_eq_other side' with rfl | rfl
      · exact .inr ⟨m, by simpa using hm, hxm⟩
      · simp only [Side.other_other] at hm ⊢
        rcases hcovered hs m hm x hxm with hdoc | ⟨m', hm', hxm'⟩
        · exact .inl hdoc
        · exact .inr ⟨m', by simpa using hm', hxm'⟩
  subscribed := h.subscribed
  sound := by
    intro side' m hm
    rcases side.eq_or_eq_other side' with rfl | rfl
    · exact h.sound side' m (hmessages m (by simpa using hm))
    · exact h.sound side.other m (by simpa using hm)
  edits := h.edits

theorem Inv.started (h : s.Inv) : (s.started side).Inv := by
  rw [SyncRun.started]
  dsimp only
  split
  · refine ⟨fun side' hs x hx => ?_, fun side' hs => ?_, fun side' m hm => ?_, fun x => ?_⟩
    · rcases side.eq_or_eq_other side' with rfl | rfl
      · -- whatever the side has is in the message that it sends
        refine .inr ⟨(s.replica side').doc, ?_, by simpa [send, setReplica] using hx⟩
        simp [send]
      · simp only [send, setReplica, ne_eq, Side.other_ne, Side.ne_other, not_false_eq_true,
          Function.update_of_ne, Function.update_self, Side.other_other] at hs hx ⊢
        have hold := h.covered side.other hs x hx
        rwa [Side.other_other] at hold
    · rcases side.eq_or_eq_other side' with rfl | rfl
      · simp [send, setReplica]
      · simp only [send, setReplica, ne_eq, Side.other_ne, not_false_eq_true,
          Function.update_of_ne] at hs ⊢
        exact h.subscribed side.other hs
    · rcases side.eq_or_eq_other side' with rfl | rfl
      · simp only [send, setReplica, ne_eq, Side.other_ne, Side.ne_other, not_false_eq_true,
          Function.update_of_ne] at hm ⊢
        exact h.sound side' m hm
      · simp only [send, setReplica, Function.update_self, Side.other_other, List.mem_append,
          List.mem_singleton] at hm ⊢
        rcases hm with hm | rfl
        · have hold := h.sound side.other m hm
          rwa [Side.other_other] at hold
        · exact Finset.Subset.refl _
    · simp only [send, setReplica, h.edits]
      refine exists_congr fun side' => ?_
      rcases side.eq_or_eq_other side' with rfl | rfl <;> simp
  · refine h.of_same (fun side' => ?_) (fun side' => ?_) (fun side' hs => ?_) rfl rfl <;>
      rcases side.eq_or_eq_other side' with rfl | rfl <;> simp_all [setReplica]

theorem Inv.lose (h : s.Inv) {index : ℕ} (hkept : s.Kept (.lose side index)) :
    Inv { s with
      inFlight := Function.update s.inFlight side ((s.inFlight side).eraseIdx index) } := by
  refine h.drop side _ (fun m hm => List.mem_of_mem_eraseIdx hm) fun hs m hm x hx => ?_
  obtain ⟨i, hi⟩ := List.mem_iff_getElem?.mp hm
  by_cases hindex : i = index
  · rw [hindex] at hi
    simp only [Kept, hi] at hkept
    exact hkept hs x hx
  · exact .inr ⟨m, List.mem_eraseIdx_iff_getElem?.mpr ⟨i, hindex, hi⟩, hx⟩

theorem Inv.of_replica (h : s.Inv) {r : Replica α} (hdoc : r.doc = (s.replica side).doc)
    (hsyncing : r.syncing = (s.replica side).syncing)
    (hsubscribed : r.subscribed = (s.replica side).subscribed) : (s.setReplica side r).Inv := by
  refine h.of_same (fun side' => ?_) (fun side' => ?_) (fun side' hs => ?_) rfl rfl <;>
    rcases side.eq_or_eq_other side' with rfl | rfl <;> simp_all [setReplica]

theorem Inv.socket (h : s.Inv) (transport : Transport) : (s.socket side transport).Inv := by
  rw [SyncRun.socket]
  split
  · exact h.of_replica rfl rfl rfl
  · exact h.of_replica rfl rfl rfl

section Steps

variable [DecidableEq α]

theorem applyUpdate_cases (s : SyncRun α) (side : Side) (update : Finset α) :
    s.applyUpdate side update = s.setReplica side
      { s.replica side with doc := (s.replica side).doc ∪ update } ∧
      (update ⊆ (s.replica side).doc ∨ (s.replica side).subscribed = false ∨
        (s.replica side).transport.connected = false) ∨
    s.applyUpdate side update = (s.setReplica side
      { s.replica side with doc := (s.replica side).doc ∪ update }).send side
        (update \ (s.replica side).doc) := by
  rw [applyUpdate]
  dsimp only
  split
  · exact .inr rfl
  · rename_i hquiet
    refine .inl ⟨rfl, ?_⟩
    by_contra hnot
    simp only [not_or, Bool.not_eq_false] at hnot
    exact hquiet hnot

theorem Inv.setDoc (h : s.Inv) (update : Finset α) (messages : List (Finset α))
    (hmore : ∀ m ∈ s.inFlight side.other, m ∈ messages)
    (hsound : ∀ m ∈ messages, m ∈ s.inFlight side.other ∨ m ⊆ update)
    (hcovered : (s.replica side).syncing = true → ∀ x ∈ update, x ∉ (s.replica side).doc →
      x ∈ (s.replica side.other).doc ∨ ∃ m ∈ messages, x ∈ m) :
    Inv { s.setReplica side { s.replica side with doc := (s.replica side).doc ∪ update } with
      inFlight := Function.update s.inFlight side.other messages
      edits := s.edits ∪ update } := by
  refine ⟨fun side' hs x hx => ?_, fun side' hs => ?_, fun side' m hm => ?_, fun x => ?_⟩
  · rcases side.eq_or_eq_other side' with rfl | rfl
    · simp only [setReplica, Function.update_self, ne_eq, Side.other_ne, not_false_eq_true,
        Function.update_of_ne, Finset.mem_union] at hs hx ⊢
      -- what the side had was covered before, what is new is among the messages
      by_cases hold : x ∈ (s.replica side').doc
      · rcases h.covered side' hs x hold with hother | ⟨m, hm, hxm⟩
        · exact .inl hother
        · exact .inr ⟨m, hmore m hm, hxm⟩
      · exact hcovered hs x (hx.resolve_left hold) hold
    · simp only [setReplica, Function.update_self, ne_eq, Side.other_ne, Side.ne_other,
        not_false_eq_true, Function.update_of_ne, Side.other_other, Finset.mem_union] at hs hx ⊢
      rcases h.covered side.other hs x hx with hother | hflight
      · rw [Side.other_other] at hother
        exact .inl (.inl hother)
      · rw [Side.other_other] at hflight
        exact .inr hflight
  · rcases side.eq_or_eq_other side' with rfl | rfl
    · simp only [setReplica, Function.update_self] at hs ⊢
      exact h.subscribed side' hs
    · simp only [setReplica, ne_eq, Side.other_ne, not_false_eq_true,
        Function.update_of_ne] at hs ⊢
      exact h.subscribed side.other hs
  · rcases side.eq_or_eq_other side' with rfl | rfl
    · simp only [setReplica, ne_eq, Side.other_ne, Side.ne_other, not_false_eq_true,
        Function.update_of_ne] at hm ⊢
      exact h.sound side' m hm
    · simp only [setReplica, Function.update_self, Side.other_other] at hm ⊢
      rcases hsound m hm with hm | hm
      · have hold := h.sound side.other m hm
        rw [Side.other_other] at hold
        exact hold.trans Finset.subset_union_left
      · exact hm.trans Finset.subset_union_right
  · simp only [Finset.mem_union, h.edits]
    constructor
    · rintro (⟨side', hx⟩ | hx)
      · refine ⟨side', ?_⟩
        rcases side.eq_or_eq_other side' with rfl | rfl <;> simp [setReplica, hx]
      · exact ⟨side, by simp [setReplica, hx]⟩
    · rintro ⟨side', hx⟩
      rcases side.eq_or_eq_other side' with rfl | rfl
      · simp only [setReplica, Function.update_self, Finset.mem_union] at hx
        exact hx.imp_left fun hx => ⟨side', hx⟩
      · simp only [setReplica, ne_eq, Side.other_ne, not_false_eq_true,
          Function.update_of_ne] at hx
        exact .inl ⟨side.other, hx⟩

theorem Inv.applyUpdate (h : s.Inv) (update : Finset α)
    (hknown : (s.replica side).syncing = true →
      (s.replica side).transport.connected = true ∨ update ⊆ (s.replica side).doc ∨
        update ⊆ (s.replica side.other).doc) :
    Inv { s.applyUpdate side update with edits := s.edits ∪ update } := by
  rcases applyUpdate_cases s side update with ⟨heq, hquiet⟩ | heq
  · rw [heq]
    have hkept := h.setDoc update (s.inFlight side.other) (fun m hm => hm)
      (fun m hm => .inl hm) ?_
    · rw [Function.update_eq_self] at hkept
      exact hkept
    · intro hs x hx hnew
      have hconnected : ¬ update ⊆ (s.replica side).doc := fun hsub => hnew (hsub hx)
      rcases hknown hs with hc | hsub | hsub
      · simp [h.subscribed side hs, hc, hconnected] at hquiet
      · exact (hconnected hsub).elim
      · exact .inl (hsub hx)
  · rw [heq]
    refine h.setDoc update (s.inFlight side.other ++ [update \ (s.replica side).doc])
      (fun m hm => List.mem_append_left _ hm) (fun m hm => ?_) fun _ x hx hnew => ?_
    · rcases List.mem_append.mp hm with hm | hm
      · exact .inl hm
      · rw [List.mem_singleton.mp hm]
        exact .inr Finset.sdiff_subset
    · exact .inr ⟨_, List.mem_append_right _ List.mem_cons_self, Finset.mem_sdiff.mpr ⟨hx, hnew⟩⟩

theorem deliver_eq (hsubscribed : (s.replica side).subscribed = true) (message : Finset α)
    (rest : List (Finset α)) : s.deliver side message rest = { s.applyUpdate side message with
      inFlight := Function.update (s.applyUpdate side message).inFlight side rest } := by
  simp only [deliver, hsubscribed, if_true, applyUpdate]
  split
  · simp only [send, setReplica, ne_eq, Side.other_ne, not_false_eq_true, Function.update_of_ne,
      SyncRun.mk.injEq, and_true, true_and]
    exact Function.update_comm side.other_ne.symm _ _ _
  · rfl

theorem Inv.deliver (h : s.Inv) {message : Finset α} {rest : List (Finset α)}
    (hflight : s.inFlight side = message :: rest)
    (hkept : (s.replica side.other).syncing = true →
      (s.replica side).subscribed = true ∨ s.Redundant side message rest) :
    (s.deliver side message rest).Inv := by
  have hrest (m : Finset α) (hm : m ∈ rest) : m ∈ s.inFlight side :=
    hflight ▸ List.mem_cons_of_mem _ hm
  have hmessage : message ⊆ (s.replica side.other).doc :=
    h.sound side message (hflight ▸ List.mem_cons_self)
  by_cases hsubscribed : (s.replica side).subscribed = true
  · -- The update is applied, and then the message brings nothing any more.
    have hedits : s.edits ∪ message = s.edits :=
      Finset.union_eq_left.mpr fun x hx => (h.edits x).mpr ⟨side.other, hmessage hx⟩
    have happlied := h.applyUpdate message fun _ => .inr (.inr hmessage)
    rw [hedits] at happlied
    have hsame : (s.applyUpdate side message).inFlight side = message :: rest ∧
        ((s.applyUpdate side message).replica side).doc = (s.replica side).doc ∪ message ∧
        (s.applyUpdate side message).edits = s.edits := by
      rcases applyUpdate_cases s side message with ⟨heq, -⟩ | heq <;>
        simp [heq, send, setReplica, hflight]
    obtain ⟨hmessages, hdoc, hedits⟩ := hsame
    rw [deliver_eq hsubscribed]
    have hdropped := happlied.drop side rest ?_ ?_
    · rw [← hedits] at hdropped
      exact hdropped
    · intro m hm
      rw [hmessages]
      exact List.mem_cons_of_mem _ hm
    · intro _ m hm x hx
      rw [hmessages] at hm
      rcases List.mem_cons.mp hm with rfl | hm
      · left
        rw [hdoc]
        exact Finset.mem_union_right _ hx
      · exact .inr ⟨m, hm, hx⟩
  · have hdropped := h.drop side rest hrest fun hs m hm x hx => ?_
    · rw [SyncRun.deliver, if_neg hsubscribed]
      exact hdropped
    · rw [hflight] at hm
      rcases List.mem_cons.mp hm with rfl | hm
      · exact (hkept hs).resolve_left hsubscribed x hx
      · exact .inr ⟨m, hm, hx⟩

/-- **A step that loses no update** keeps every update of a side that syncs on the
other side or on its way. -/
theorem inv_step {input : SyncInput α} (h : s.Inv) (hstep : step s input = .ok s')
    (hkept : s.Kept input) : s'.Inv := by
  cases input with
  | edit side update =>
    cases hstep
    exact h.applyUpdate update fun hs => (hkept hs).imp_right .inl
  | start side =>
    obtain ⟨-, rfl⟩ := onlyIf_eq_ok.mp hstep
    rw [SyncRun.start]
    split
    · exact h
    · exact h.of_replica rfl rfl rfl
  | started side =>
    obtain ⟨-, rfl⟩ := onlyIf_eq_ok.mp hstep
    exact h.started
  | opened side =>
    obtain ⟨-, rfl⟩ := onlyIf_eq_ok.mp hstep
    exact h.socket _
  | failed side =>
    obtain ⟨-, rfl⟩ := onlyIf_eq_ok.mp hstep
    exact h.socket _
  | timedOut side =>
    obtain ⟨-, rfl⟩ := onlyIf_eq_ok.mp hstep
    exact h.socket _
  | closed side =>
    obtain ⟨-, rfl⟩ := onlyIf_eq_ok.mp hstep
    exact h.socket _
  | reconnect side =>
    obtain ⟨-, rfl⟩ := onlyIf_eq_ok.mp hstep
    exact h.socket _
  | deliver side =>
    rw [step] at hstep
    split at hstep
    · rename_i message rest hflight
      obtain ⟨-, rfl⟩ := onlyIf_eq_ok.mp hstep
      simp only [Kept, hflight] at hkept
      exact h.deliver hflight hkept
    · cases hstep
  | lose side index =>
    obtain ⟨-, rfl⟩ := onlyIf_eq_ok.mp hstep
    exact h.lose hkept

/-- **Replicas converge where no update is lost**: along every run in which a side
that syncs is edited only while it is connected, and none of its messages is lost
or delivered before the peer has registered its handlers, both documents are the
set of all edits whenever both providers sync, over connected transports and with
nothing in flight. -/
theorem converged_of_kept (config : Side → TransportConfig) (inputs : List (SyncInput α))
    (h : Along step (fun s input _ => s.Kept input) (init config) inputs) :
    Along step (fun _ _ s' => s'.Converged) (init config) inputs := by
  have hstep (s : SyncRun α) (input : SyncInput α) (s' : SyncRun α) (hinv : s.Inv)
      (hs : step s input = .ok s') (hkept : s.Kept input) : s'.Converged ∧ s'.Inv :=
    ⟨(inv_step hinv hs hkept).converged, inv_step hinv hs hkept⟩
  exact Along.of_step hstep (inv_init config) h

def editsInTurn : List (SyncInput ℕ) :=
  [.edit .first {0}, .start .second, .opened .second, .started .second, .start .first,
    .opened .first, .started .first, .deliver .first, .deliver .second, .edit .second {1},
    .deliver .first, .deliver .first, .deliver .second]

theorem converged_editsInTurn :
    Along step (fun s input _ => s.Kept input) (init fun _ => {}) editsInTurn ∧
    Along step (fun _ _ s' => s'.Converged) (init fun _ => {}) editsInTurn := by
  have hkept : Along step (fun s input _ => s.Kept input) (init fun _ => {}) editsInTurn := by
    decide
  exact ⟨hkept, converged_of_kept (fun _ => {}) editsInTurn hkept⟩

/-- Both sides sync; the first loses its connection, is edited, and connects again. -/
def editWhileDown : List (SyncInput ℕ) :=
  [.start .first, .opened .first, .start .second, .opened .second, .started .first,
    .started .second, .deliver .first, .deliver .second, .closed .first, .edit .first {0},
    .reconnect .first, .opened .first]

theorem not_converged_editWhileDown :
    ¬ Along step (fun _ _ s' => s'.Converged) (init fun _ => {}) editWhileDown := by
  decide

end Steps

end N8n.SyncRun
