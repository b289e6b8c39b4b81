/-
The life of a task in the Python runner, and where it goes wrong.

Two calls of `_send_offers` that overlap each fill the places that were free when
they began.  A cancellation stops the process it finds: one that is not started
yet is started afterwards, one that is over has its result sent, and where
`continue_on_fail` is set the cancellation itself becomes a result.

* `lifecycle_of_orderly` — **along every run whose steps are orderly the offers and
  tasks stay within the limit, and each task sends at most one result or error,
  and no result and starts no process after it was cancelled**.
-/
import N8n.PythonRunner

namespace N8n

/-- What is asked of the events of a task, in their order. -/
structure LawfulPythonTask (events : List PythonTaskEvent) : Prop where
  once : events.countP (fun e => e = .taskdone ∨ e = .taskerror) ≤ 1
  cancelled : events.Pairwise fun a b => a = .cancelled → b ≠ .taskdone
  stopped : events.Pairwise fun a b => a = .stopped → b ≠ .started

namespace LawfulPythonTask

variable {events : List PythonTaskEvent}

theorem append (h : LawfulPythonTask events) {e : PythonTaskEvent}
    (hterminal : e = .taskdone ∨ e = .taskerror → .taskdone ∉ events ∧ .taskerror ∉ events)
    (hdone : e = .taskdone → .cancelled ∉ events)
    (hstarted : e = .started → .stopped ∉ events) : LawfulPythonTask (events ++ [e]) where
  once := by
    rw [List.countP_append, List.countP_singleton]
    split
    · rename_i he
      obtain ⟨hnotDone, hnotError⟩ := hterminal (of_decide_eq_true he)
      have hnone : events.countP (fun e => e = .taskdone ∨ e = .taskerror) = 0 := by
        refine List.countP_eq_zero.mpr fun a ha hterm => ?_
        rcases of_decide_eq_true hterm with rfl | rfl
        · exact hnotDone ha
        · exact hnotError ha
      rw [hnone]
    · exact h.once
  cancelled := by
    rw [List.pairwise_append]
    refine ⟨h.cancelled, List.pairwise_singleton _ _, fun a ha b hb ha' hb' => ?_⟩
    rw [List.mem_singleton.mp hb] at hb'
    exact hdone hb' (ha' ▸ ha)
  stopped := by
    rw [List.pairwise_append]
    refine ⟨h.stopped, List.pairwise_singleton _ _, fun a ha b hb ha' hb' => ?_⟩
    rw [List.mem_singleton.mp hb] at hb'
    exact hstarted hb' (ha' ▸ ha)

end LawfulPythonTask

/-! ### A task -/

namespace PythonTask

variable {t : PythonTask}

/-- The task has failed, has sent its last message, or is not executed. -/
def Decided (t : PythonTask) : Prop :=
  t.execution = none ∨ t.execution = some .raised ∨ t.execution = some .finishing

instance (t : PythonTask) : Decidable t.Decided := inferInstanceAs (Decidable (_ ∨ _))

/-- The task has a process, which is to end without a result. -/
structure Doomed (t : PythonTask) : Prop where
  raises : t.continueOnFail = false
  process : t.process ≠ none
  noResult : t.process ≠ some (.exited 0)
  inThread : t.execution = some .starting ∨ t.execution = some .joining

structure Inv (t : PythonTask) : Prop where
  lawful : LawfulPythonTask t.events
  unsent : t.execution ≠ none → t.execution ≠ some .finishing →
    .taskdone ∉ t.events ∧ .taskerror ∉ t.events
  waiting : t.status = .waitingForSettings →
    t.execution = none ∧ t.stopping = none ∧ t.process = none ∧ t.events = []
  created : t.execution = some .created → t.process = none
  process : t.process = some .running → t.execution = some .joining
  returned : ∀ prints, t.execution = some (.returned prints) →
    t.continueOnFail = true ∨ t.process = some (.exited 0)
  aborting : .cancelled ∈ t.events → t.status = .aborting
  stopping : t.stopping.isSome → .cancelled ∈ t.events
  noProcess : t.stopping = some false → t.Decided
  doomed : .cancelled ∈ t.events → t.Decided ∨ t.Doomed
  afterCancel : .cancelled ∈ t.events → t.stopping.isSome ∨ .stopped ∈ t.events
  stopped : .stopped ∈ t.events → .cancelled ∈ t.events ∧ t.process ≠ some .running ∧
    t.execution ≠ some .created ∧ t.execution ≠ some .starting

theorem inv_new : Inv {} where
  lawful := ⟨by decide, .nil, .nil⟩
  unsent := fun h => (h rfl).elim
  waiting := fun _ => ⟨rfl, rfl, rfl, rfl⟩
  created := by simp
  process := by simp
  returned := by simp
  aborting := by simp
  stopping := by simp
  noProcess := by simp
  doomed := by simp
  afterCancel := by simp
  stopped := by simp

namespace Inv

variable (h : t.Inv)

include h

theorem settings (hwait : t.status = .waitingForSettings) (continueOnFail : Bool) :
    (t.settings continueOnFail).Inv := by
  obtain ⟨-, hstopping, hprocess, hevents⟩ := h.waiting hwait
  constructor <;> simp [PythonTask.settings, hstopping, hprocess, hevents,
    show LawfulPythonTask [] from ⟨by decide, .nil, .nil⟩]

theorem not_waiting (hexecution : t.execution ≠ none) : t.status ≠ .waitingForSettings :=
  fun hwait => hexecution (h.waiting hwait).1

theorem not_stopped (hnot : .cancelled ∉ t.events) : t.stopping = none ∧ .stopped ∉ t.events := by
  refine ⟨?_, fun hmem => hnot (h.stopped hmem).1⟩
  rcases hs : t.stopping with _ | created
  · rfl
  · exact (hnot (h.stopping (by rw [hs]; rfl))).elim

theorem not_cancelled_of_created (hcreated : t.execution = some .created) :
    .cancelled ∉ t.events := by
  intro hcancelled
  rcases h.doomed hcancelled with hdecided | hdoomed
  · simp [Decided, hcreated] at hdecided
  · simpa [hcreated] using hdoomed.inThread

theorem not_cancelled_of_returned {prints : ℕ} (hreturned : t.execution = some (.returned prints)) :
    .cancelled ∉ t.events := by
  intro hcancelled
  rcases h.doomed hcancelled with hdecided | hdoomed
  · simp [Decided, hreturned] at hdecided
  · simpa [hreturned] using hdoomed.inThread

theorem createProcess (hcreated : t.execution = some .created) : t.createProcess.Inv := by
  have hnot := h.not_cancelled_of_created hcreated
  obtain ⟨hstopping, hstopped⟩ := h.not_stopped hnot
  have hwait := h.not_waiting (by simp [hcreated])
  obtain ⟨hdone, herror⟩ := h.unsent (by simp [hcreated]) (by simp [hcreated])
  constructor <;> simp [PythonTask.createProcess, hnot, hstopped, hstopping, hwait, hdone, herror,
    h.lawful]

theorem raise (hthread : t.execution = some .starting ∨ t.execution = some .joining)
    (hprocess : t.process ≠ some .running) : t.raise.Inv where
  lawful := h.lawful
  unsent := fun _ _ => h.unsent (by rcases hthread with hx | hx <;> simp [hx])
    (by rcases hthread with hx | hx <;> simp [hx])
  waiting := by
    intro hwait
    have hnone := (h.waiting hwait).1
    simp [hnone] at hthread
  created := by
    intro hcreated
    rw [PythonTask.raise] at hcreated
    split at hcreated <;> simp at hcreated
  process := fun hrunning => (hprocess hrunning).elim
  returned := by
    intro prints hreturned
    rw [PythonTask.raise] at hreturned
    split at hreturned
    · rename_i hcontinue
      exact .inl hcontinue
    · simp at hreturned
  aborting := h.aborting
  stopping := h.stopping
  noProcess := by
    intro hstopping
    have hdecided := h.noProcess hstopping
    rcases hthread with hx | hx <;> simp [Decided, hx] at hdecided
  doomed := by
    intro hcancelled
    rcases h.doomed hcancelled with hdecided | hdoomed
    · rcases hthread with hx | hx <;> simp [Decided, hx] at hdecided
    · exact .inl (.inr (.inl (by simp [PythonTask.raise, hdoomed.raises])))
  afterCancel := h.afterCancel
  stopped := by
    intro hstopped
    refine ⟨(h.stopped hstopped).1, hprocess, ?_, ?_⟩ <;>
      · rw [PythonTask.raise]
        split <;> simp

theorem startProcess (hstarting : t.execution = some .starting) (started : Bool) :
    (t.startProcess started).Inv := by
  have hnotRunning : t.process ≠ some .running := by
    intro hrunning
    have hjoining := h.process hrunning
    simp [hjoining] at hstarting
  have hstopped : .stopped ∉ t.events := fun hmem => (h.stopped hmem).2.2.2 hstarting
  rw [PythonTask.startProcess]
  split
  · obtain ⟨hdone, herror⟩ := h.unsent (by simp [hstarting]) (by simp [hstarting])
    have hwait := h.not_waiting (by simp [hstarting])
    refine ⟨h.lawful.append (by simp) (by simp) fun _ => hstopped, ?_, ?_, ?_, ?_, ?_, ?_, ?_, ?_,
      ?_, ?_, ?_⟩
    · simp [record, hdone, herror]
    · simp [record, hwait]
    · simp [record]
    · simp [record]
    · simp [record]
    · simpa [record] using h.aborting
    · simpa [record] using h.stopping
    · intro hstopping
      have hdecided := h.noProcess hstopping
      simp [Decided, hstarting] at hdecided
    · intro hcancelled
      have hcancelled : .cancelled ∈ t.events := by simpa [record] using hcancelled
      rcases h.doomed hcancelled with hdecided | hdoomed
      · simp [Decided, hstarting] at hdecided
      · exact .inr ⟨hdoomed.raises, by simp [record], by simp [record], by simp [record]⟩
    · simpa [record] using h.afterCancel
    · simp [record, hstopped]
  · exact h.raise (.inl hstarting) hnotRunning

theorem exit (hrunning : t.process = some .running) {code : ℤ}
    (hcode : t.stopping.isSome → code ≠ 0) :
    { t with process := some (.exited code) }.Inv where
  lawful := h.lawful
  unsent := h.unsent
  waiting := by
    intro hwait
    have hnone := (h.waiting hwait).2.2.1
    simp [hnone] at hrunning
  created := by
    intro hcreated
    have hnone := h.created hcreated
    simp [hnone] at hrunning
  process := by simp
  returned := by
    intro prints hreturned
    have hjoining := h.process hrunning
    simp [hjoining] at hreturned
  aborting := h.aborting
  stopping := h.stopping
  noProcess := h.noProcess
  doomed := by
    intro hcancelled
    rcases h.doomed hcancelled with hdecided | hdoomed
    · exact .inl hdecided
    · refine .inr ⟨hdoomed.raises, by simp, ?_, hdoomed.inThread⟩
      rcases h.afterCancel hcancelled with hstopping | hstopped
      · simpa using hcode hstopping
      · exact ((h.stopped hstopped).2.1 hrunning).elim
  afterCancel := h.afterCancel
  stopped := fun hstopped => ((h.stopped hstopped).2.1 hrunning).elim

theorem stopped_process (hjoining : t.execution = some .joining) (killed : Bool) :
    { t with process := some (.exited (stopCode killed)) }.Inv where
  lawful := h.lawful
  unsent := h.unsent
  waiting := by
    intro hwait
    simp [(h.waiting hwait).1] at hjoining
  created := by
    intro hcreated
    have hcreated : t.execution = some .created := hcreated
    simp [hcreated] at hjoining
  process := by simp
  returned := by
    intro prints hreturned
    have hreturned : t.execution = some (.returned prints) := hreturned
    simp [hreturned] at hjoining
  aborting := h.aborting
  stopping := h.stopping
  noProcess := h.noProcess
  doomed := by
    intro hcancelled
    rcases h.doomed hcancelled with hdecided | hdoomed
    · exact .inl hdecided
    · refine .inr ⟨hdoomed.raises, by simp, ?_, hdoomed.inThread⟩
      cases killed <;> simp [stopCode, sigkillExitCode, sigtermExitCode]
  afterCancel := h.afterCancel
  stopped := by
    intro hstopped
    obtain ⟨hcancelled, -, hcreated, hstarting⟩ := h.stopped hstopped
    exact ⟨hcancelled, by simp, hcreated, hstarting⟩

theorem afterJoin (hjoining : t.execution = some .joining) (killed : Bool) (result : Option ℕ) :
    (t.afterJoin killed result).Inv := by
  unfold PythonTask.afterJoin
  split
  · exact (h.stopped_process hjoining killed).raise (.inr hjoining) (by simp)
  · rename_i prints hexited
    -- The process ended with a result, so that the task is not cancelled.
    have hnot : .cancelled ∉ t.events := by
      intro hcancelled
      rcases h.doomed hcancelled with hdecided | hdoomed
      · simp [Decided, hjoining] at hdecided
      · exact hdoomed.noResult hexited
    have hwait := h.not_waiting (by simp [hjoining])
    obtain ⟨hstopping, hstopped⟩ := h.not_stopped hnot
    obtain ⟨hdone, herror⟩ := h.unsent (by simp [hjoining]) (by simp [hjoining])
    constructor <;> simp [hnot, hwait, hstopping, hstopped, hdone, herror, hexited, h.lawful]
  · rename_i hrunning _
    exact h.raise (.inr hjoining) hrunning

theorem cancel (hstatus : t.status = .running)
    (hstops : t.Decided ∨ t.continueOnFail = false ∧ t.process ≠ none ∧
      t.process ≠ some (.exited 0)) : t.cancel.Inv := by
  have hnot : .cancelled ∉ t.events := by
    intro hcancelled
    rw [h.aborting hcancelled] at hstatus
    cases hstatus
  have hstopped : .stopped ∉ t.events := fun hmem => hnot (h.stopped hmem).1
  refine ⟨h.lawful.append (by simp) (by simp) (by simp), ?_, ?_, h.created, h.process, h.returned,
    ?_, ?_, ?_, ?_, ?_, ?_⟩
  · simpa [PythonTask.cancel, record] using h.unsent
  · simp [PythonTask.cancel, record]
  · simp [PythonTask.cancel, record]
  · simp [PythonTask.cancel, record]
  · intro hnone
    rcases hstops with hdecided | ⟨-, hprocess, -⟩
    · exact hdecided
    · simp [PythonTask.cancel, record, hprocess] at hnone
  · intro _
    rcases hstops with hdecided | ⟨hraises, hprocess, hresult⟩
    · exact .inl hdecided
    · rcases hx : t.execution with _ | _ | _ | _ | prints | _ | _
      · exact .inl (.inl hx)
      · exact (hprocess (h.created hx)).elim
      · exact .inr ⟨hraises, hprocess, hresult, .inl hx⟩
      · exact .inr ⟨hraises, hprocess, hresult, .inr hx⟩
      · rcases h.returned prints hx with hcontinue | hexited
        · rw [hcontinue] at hraises
          cases hraises
        · exact (hresult hexited).elim
      · exact .inl (.inr (.inl hx))
      · exact .inl (.inr (.inr hx))
  · simp [PythonTask.cancel, record]
  · simp [PythonTask.cancel, record, hstopped]

theorem stop (hcancelled : .cancelled ∈ t.events) (hnotRunning : t.process ≠ some .running)
    (hstarting : t.execution ≠ some .starting) :
    ({ t with stopping := none }.record .stopped).Inv := by
  refine ⟨h.lawful.append (by simp) (by simp) (by simp), ?_, ?_, h.created, h.process, h.returned,
    ?_, by simp [record], by simp [record], ?_, by simp [record], ?_⟩
  · simpa [record] using h.unsent
  · intro hwait
    simp [(h.waiting hwait).2.2.2] at hcancelled
  · simpa [record] using h.aborting
  · intro _
    rcases h.doomed hcancelled with hdecided | hdoomed
    · exact .inl hdecided
    · exact .inr ⟨hdoomed.raises, hdoomed.process, hdoomed.noResult, hdoomed.inThread⟩
  · intro _
    refine ⟨by simpa [record] using hcancelled, hnotRunning, ?_, hstarting⟩
    intro hcreated
    exact h.not_cancelled_of_created hcreated hcancelled

theorem stopProcess (hstopping : t.stopping.isSome) (hstarting : t.execution ≠ some .starting)
    (killed : Bool) : (t.stopProcess killed).Inv := by
  have hcancelled := h.stopping hstopping
  rw [PythonTask.stopProcess]
  split
  · rename_i hrunning
    exact (h.stopped_process (h.process hrunning.2) killed).stop hcancelled (by simp) hstarting
  · rename_i hnot
    refine h.stop hcancelled (fun hrunning => ?_) hstarting
    rcases hs : t.stopping with _ | created
    · simp [hs] at hstopping
    · cases created with
      | true => exact hnot ⟨hs, hrunning⟩
      | false =>
        have hdecided := h.noProcess hs
        simp [Decided, h.process hrunning] at hdecided

theorem decide (hrunning : t.process ≠ some .running) (execution : Option ExecuteTask)
    (hwait : t.status = .waitingForSettings → execution = none)
    (hexecution : execution = none ∨ execution = some .finishing) :
    { t with execution }.Inv where
  lawful := h.lawful
  unsent := by
    intro hsome hnot
    rcases hexecution with hx | hx
    · exact (hsome hx).elim
    · exact (hnot hx).elim
  waiting := fun hstatus => ⟨hwait hstatus, (h.waiting hstatus).2⟩
  created := by rcases hexecution with hx | hx <;> simp [hx]
  process := fun hp => (hrunning hp).elim
  returned := by rcases hexecution with hx | hx <;> simp [hx]
  aborting := h.aborting
  stopping := h.stopping
  noProcess := fun _ => hexecution.imp_right .inr
  doomed := fun _ => .inl (hexecution.imp_right .inr)
  afterCancel := h.afterCancel
  stopped := by
    intro hstopped
    refine ⟨(h.stopped hstopped).1, hrunning, ?_, ?_⟩ <;>
      rcases hexecution with hx | hx <;> simp [hx]

theorem send (hpending : t.execution ≠ none ∧ t.execution ≠ some .finishing)
    (hrunning : t.process ≠ some .running) {e : PythonTaskEvent}
    (he : e = .taskdone ∧ .cancelled ∉ t.events ∨ e = .taskerror) :
    ({ t with execution := some .finishing }.record e).Inv := by
  have hunsent := h.unsent hpending.1 hpending.2
  have hwait := h.not_waiting hpending.1
  have hfinishing := h.decide hrunning (some .finishing) (fun hw => (hwait hw).elim) (.inr rfl)
  have hmem (a : PythonTaskEvent) (ha : a = .cancelled ∨ a = .stopped) :
      a ∈ t.events ++ [e] ↔ a ∈ t.events := by
    rcases ha with rfl | rfl <;> rcases he with ⟨rfl, -⟩ | rfl <;> simp
  refine ⟨h.lawful.append (fun _ => hunsent) ?_ ?_, by simp [record], ?_, ?_, hfinishing.process,
    by simp [record], ?_, ?_, hfinishing.noProcess, ?_, ?_, ?_⟩
  · intro hdone
    rcases he with ⟨-, hnot⟩ | rfl
    · exact hnot
    · cases hdone
  · rcases he with ⟨rfl, -⟩ | rfl <;> simp
  · exact fun hw => (hwait hw).elim
  · simp [record]
  · exact fun hc => h.aborting ((hmem _ (.inl rfl)).mp hc)
  · exact fun hs => (hmem _ (.inl rfl)).mpr (h.stopping hs)
  · exact fun _ => .inl (.inr (.inr rfl))
  · intro hc
    exact (h.afterCancel ((hmem _ (.inl rfl)).mp hc)).imp_right (hmem _ (.inr rfl)).mpr
  · intro hs
    exact ⟨(hmem _ (.inl rfl)).mpr (h.stopped ((hmem _ (.inr rfl)).mp hs)).1, hrunning,
      by simp [record], by simp [record]⟩

theorem print {prints prints' : ℕ} (hreturned : t.execution = some (.returned prints)) :
    { t with execution := some (.returned prints') }.Inv := by
  have hnot := h.not_cancelled_of_returned hreturned
  have hwait := h.not_waiting (by simp [hreturned])
  obtain ⟨hstopping, hstopped⟩ := h.not_stopped hnot
  have hrunning : t.process ≠ some .running := by
    intro hrunning
    simp [h.process hrunning] at hreturned
  obtain ⟨hdone, herror⟩ := h.unsent (by simp [hreturned]) (by simp [hreturned])
  constructor <;> simp [hnot, hwait, hstopping, hstopped, hdone, herror, hrunning, h.lawful,
    h.returned prints hreturned]

end Inv

end PythonTask

/-! ### The runner -/

namespace PythonRunner

open PythonTask

variable {random : ℕ → ℕ} {s s' : PythonRunner} {taskId : String} {maxConcurrency : ℕ}
  {raises : Bool}

/-- Who calls `_send_offers`: a cancellation, or a loop. -/
inductive OfferCaller where
  | handler
  | loop (id : ℕ)
  deriving DecidableEq, Repr

/-- How many offers a call of `_send_offers` has left to send. -/
def left (s : PythonRunner) : OfferCaller → ℕ
  | .handler => match s.handler with
    | some (.offering left) => left
    | _ => 0
  | .loop id => match s.loops.get? id with
    | some (some left) => left
    | _ => 0

/-- What is asked of every state: the limit, and of each task at most one result
or error; no result after a cancellation that found it running, and once its
`stop_process` is over no process that is started or runs. -/
structure PythonLifecycle (maxConcurrency : ℕ) (s : PythonRunner) : Prop where
  limit : s.openOffers.length + s.runningTasks.length ≤ maxConcurrency
  lawful : ∀ taskId, LawfulPythonTask (s.tasks taskId).events
  dead : ∀ taskId, .stopped ∈ (s.tasks taskId).events →
    (s.tasks taskId).process ≠ some .running

/-- A call of `_send_offers` that has offers to send begins while no other has
offers left. -/
def OffersAlone (s : PythonRunner) : Prop :=
  s.canSendOffers = true → s.dropExpired.offersToSend ≠ 0 →
    s.left .handler = 0 ∧ ∀ id ∈ s.loops.keys, s.left (.loop id) = 0

instance (s : PythonRunner) : Decidable s.OffersAlone := inferInstanceAs (Decidable (_ → _))

theorem OffersAlone.left (h : s.OffersAlone) (hcan : s.canSendOffers = true)
    (hsend : s.dropExpired.offersToSend ≠ 0) (caller : OfferCaller) : s.left caller = 0 := by
  obtain ⟨hhandler, hloops⟩ := h hcan hsend
  rcases caller with _ | id
  · exact hhandler
  · by_cases hkey : id ∈ s.loops.keys
    · exact hloops id hkey
    · rw [PythonRunner.left, Dict.get?_eq_none_iff.mpr hkey]

/-- Offers are sent by one call at a time; a cancellation that finds a task running
finds it failed or with its last message sent, or with a process that has not ended
with a result and without `continue_on_fail`; a process that is to be stopped does
not end with a result by itself, and is not about to be started. -/
def Orderly (s : PythonRunner) : PythonInput → Prop
  | .taskcancel taskId _ => taskId ∈ s.runningTasks → match (s.tasks taskId).status with
    | .waitingForSettings => (s.pop taskId).OffersAlone
    | .running => (s.tasks taskId).Decided ∨ (s.tasks taskId).continueOnFail = false ∧
      (s.tasks taskId).process ≠ none ∧ (s.tasks taskId).process ≠ some (.exited 0)
    | .aborting => True
  | .loop id _ => s.loops.get? id = some none → s.OffersAlone
  | .exit taskId code => (s.tasks taskId).stopping.isSome → code ≠ 0
  | .handler _ _ => match s.handler with
    | some (.stopping taskId) => (s.tasks taskId).execution ≠ some .starting
    | _ => True
  | _ => True

instance (s : PythonRunner) (input : PythonInput) : Decidable (s.Orderly input) := by
  unfold Orderly
  split
  · refine @instDecidableForall _ _ _ ?_
    split <;> infer_instance
  · infer_instance
  · infer_instance
  · split <;> infer_instance
  · infer_instance

/-! ### Offers -/

/-- The offers left to send fit, and only one call has some left. -/
structure OffersInv (maxConcurrency : ℕ) (s : PythonRunner) : Prop where
  same : s.maxConcurrency = maxConcurrency
  limit : ∀ caller, s.openOffers.length + s.runningTasks.length + s.left caller ≤ maxConcurrency
  alone : ∀ caller caller', caller ≠ caller' → s.left caller = 0 ∨ s.left caller' = 0

theorem OffersInv.mono (h : s.OffersInv maxConcurrency)
    (hmax : s'.maxConcurrency = s.maxConcurrency)
    (hoffers : s'.openOffers.length ≤ s.openOffers.length)
    (hrunning : s'.runningTasks.length ≤ s.runningTasks.length)
    (hleft : ∀ caller, s'.left caller ≤ s.left caller) : s'.OffersInv maxConcurrency where
  same := hmax.trans h.same
  limit := by
    intro caller
    have hlimit := h.limit caller
    have hle := hleft caller
    omega
  alone := by
    intro caller caller' hne
    have hle := hleft caller
    have hle' := hleft caller'
    rcases h.alone caller caller' hne with hzero | hzero
    · exact .inl (by omega)
    · exact .inr (by omega)

theorem OffersInv.setTask (h : s.OffersInv maxConcurrency) (taskId : String) (t : PythonTask) :
    (s.setTask taskId t).OffersInv maxConcurrency :=
  h.mono rfl le_rfl le_rfl fun _ => le_rfl

/-- What the caller of `_send_offers` stores is what the call has left. -/
structure Stores (caller : OfferCaller) (store : PythonRunner × Option ℕ → PythonRunner) :
    Prop where
  same : ∀ call, (store call).maxConcurrency = call.1.maxConcurrency
  offers : ∀ call, (store call).openOffers = call.1.openOffers
  running : ∀ call, (store call).runningTasks = call.1.runningTasks
  left : ∀ call, (store call).left caller = call.2.getD 0
  others : ∀ call other, other ≠ caller → (store call).left other = call.1.left other

theorem stores_offering : Stores .handler offering where
  same := fun _ => rfl
  offers := fun _ => rfl
  running := fun _ => rfl
  left := by
    rintro ⟨s, _ | left⟩ <;> rfl
  others := by
    rintro call (_ | id) hne
    · exact (hne rfl).elim
    · rfl

theorem stores_looping (id : ℕ) : Stores (.loop id) (looping id) where
  same := fun _ => rfl
  offers := fun _ => rfl
  running := fun _ => rfl
  left := by
    rintro ⟨s, _ | left⟩ <;> simp [looping, PythonRunner.left]
  others := by
    rintro call (_ | other) hne
    · rfl
    · have hne : other ≠ id := fun heq => hne (heq ▸ rfl)
      simp [looping, PythonRunner.left, Dict.get?_set_of_ne _ hne]

variable {caller : OfferCaller} {store : PythonRunner × Option ℕ → PythonRunner}

theorem OffersInv.nextOffer (h : s.OffersInv maxConcurrency)
    (hstore : Stores caller store) {n : ℕ}
    (hlimit : s.openOffers.length + s.runningTasks.length + n ≤ maxConcurrency)
    (halone : ∀ other, other ≠ caller → s.left other = 0 ∨ n = 0) :
    (store (s.nextOffer random raises n)).OffersInv maxConcurrency := by
  rcases n with _ | n
  · refine h.mono (hstore.same _) (congrArg List.length (hstore.offers _)).le
      (congrArg List.length (hstore.running _)).le fun other => ?_
    by_cases heq : other = caller
    · rw [heq, hstore.left]
      exact Nat.zero_le _
    · rw [hstore.others _ _ heq]
      rfl
  · have hothers (other : OfferCaller) (hne : other ≠ caller) : s.left other = 0 :=
      (halone other hne).resolve_right (Nat.succ_ne_zero n)
    set call := s.nextOffer random raises (n + 1) with hcall
    have hmax : call.1.maxConcurrency = s.maxConcurrency := by
      simp only [hcall, PythonRunner.nextOffer, sendMessage]
      split <;> rfl
    have hoffers : call.1.openOffers.length = s.openOffers.length + 1 := by
      simp only [hcall, PythonRunner.nextOffer, sendMessage]
      split <;> simp
    have hrunning : call.1.runningTasks = s.runningTasks := by
      simp only [hcall, PythonRunner.nextOffer, sendMessage]
      split <;> rfl
    have hleft : call.2.getD 0 ≤ n := by
      simp only [hcall, PythonRunner.nextOffer]
      split <;> simp
    have hkept (other : OfferCaller) : call.1.left other = s.left other := by
      simp only [hcall, PythonRunner.nextOffer, sendMessage]
      split <;> cases other <;> rfl
    have hzero (other : OfferCaller) (hne : other ≠ caller) : (store call).left other = 0 := by
      rw [hstore.others _ _ hne, hkept, hothers other hne]
    refine ⟨(hstore.same _).trans (hmax.trans h.same), fun other => ?_, fun other other' hne => ?_⟩
    · rw [hstore.offers, hstore.running, hoffers, hrunning]
      by_cases heq : other = caller
      · rw [heq, hstore.left]
        omega
      · rw [hzero other heq]
        omega
    · by_cases heq : other = caller
      · exact .inr (hzero other' fun heq' => hne (heq.trans heq'.symm))
      · exact .inl (hzero other heq)

theorem OffersInv.dropExpired (h : s.OffersInv maxConcurrency) :
    s.dropExpired.OffersInv maxConcurrency :=
  h.mono rfl (List.length_filter_le _ _) le_rfl fun _ => le_rfl

theorem OffersInv.sendOffers (h : s.OffersInv maxConcurrency)
    (hstore : Stores caller store) (halone : s.OffersAlone) :
    (store (s.sendOffers random raises)).OffersInv maxConcurrency := by
  rw [PythonRunner.sendOffers]
  split
  · rename_i hcan
    have hdrop := h.dropExpired
    refine hdrop.nextOffer hstore ?_ fun other _ => ?_
    · have hlimit := hdrop.limit .handler
      rw [offersToSend, hdrop.same]
      omega
    · by_cases hn : s.dropExpired.offersToSend = 0
      · exact .inr hn
      · exact .inl (halone.left hcan hn other)
  · have hlimit := h.limit .handler
    have hnone : (store (s.nextOffer random raises 0)).OffersInv maxConcurrency :=
      h.nextOffer hstore (by omega) fun _ _ => .inr rfl
    exact hnone

theorem OffersInv.goesOn
    (h : s.OffersInv maxConcurrency) (hstore : Stores caller store) {n : ℕ}
    (hleft : s.left caller = n) :
    (store (s.nextOffer random raises n)).OffersInv maxConcurrency := by
  refine h.nextOffer hstore (hleft ▸ h.limit caller) fun other hne => ?_
  rw [← hleft]
  exact h.alone other caller hne

theorem left_handler_le (t : PythonRunner) (hloops : t.loops = s.loops)
    (hhandler : ∀ left, t.handler ≠ some (.offering left)) (caller : OfferCaller) :
    t.left caller ≤ s.left caller := by
  rcases caller with _ | id
  · rw [left]
    split
    · rename_i left h
      exact (hhandler left h).elim
    · exact Nat.zero_le _
  · rw [left, left, hloops]

theorem left_loops_le (t : PythonRunner) (hhandler : t.handler = s.handler)
    (hloops : ∀ id left, t.loops.get? id = some (some left) → s.loops.get? id = some (some left))
    (caller : OfferCaller) : t.left caller ≤ s.left caller := by
  rcases caller with _ | id
  · rw [left, left, hhandler]
  · rw [left]
    split
    · rename_i left h
      simp [PythonRunner.left, hloops id left h]
    · exact Nat.zero_le _

theorem OffersInv.respond (h : s.OffersInv maxConcurrency) (message : RunnerToBroker) :
    (s.respond message raises).OffersInv maxConcurrency := by
  have hcases : s.respond message raises = { s with
        sent := s.sent ++ [message], handler := some .responding } ∨
      s.respond message raises = { s with handler := none } := by
    simp only [PythonRunner.respond, sendMessage]
    split
    · exact .inl rfl
    · exact .inr rfl
  rcases hcases with heq | heq <;> rw [heq]
  · exact h.mono rfl le_rfl le_rfl (left_handler_le _ rfl (by simp))
  · exact h.mono rfl le_rfl le_rfl (left_handler_le _ rfl (by simp))

theorem OffersInv.accept (h : s.OffersInv maxConcurrency) (offerId : ℕ) (taskId : String) :
    (s.handleTaskOfferAccept offerId taskId raises).OffersInv maxConcurrency := by
  rw [handleTaskOfferAccept]
  split
  · exact h.respond _
  · rename_i offer hfind
    split
    · exact h.respond _
    · split
      · exact h.respond _
      · have hless : (s.openOffers.filter fun offer => offer.offerId ≠ offerId).length <
            s.openOffers.length := by
          refine List.length_filter_lt_length_iff_exists.mpr
            ⟨offer, List.mem_of_find?_eq_some hfind, ?_⟩
          have hoffer := List.find?_some hfind
          simpa using hoffer
        refine OffersInv.respond (s := { s with
          openOffers := s.openOffers.filter fun offer => offer.offerId ≠ offerId
          runningTasks := s.runningTasks ++ [taskId]
          tasks := Function.update s.tasks taskId {} })
          ⟨h.same, fun caller => ?_, fun caller caller' hne => ?_⟩ _
        · have hlimit := h.limit caller
          cases caller <;>
            · simp only [left, List.length_append, List.length_singleton] at hlimit ⊢
              omega
        · have halone := h.alone caller caller' hne
          cases caller <;> cases caller' <;> exact halone

theorem OffersInv.pop (h : s.OffersInv maxConcurrency) (taskId : String) :
    (s.pop taskId).OffersInv maxConcurrency :=
  h.mono rfl le_rfl (List.length_filter_le _ _) fun _ => le_rfl

theorem OffersInv.endExecution (h : s.OffersInv maxConcurrency) (taskId : String) :
    (s.endExecution taskId).OffersInv maxConcurrency :=
  (h.pop taskId).setTask taskId _

theorem sendMessage_of (h : s.connected = true ∧ ¬ raises = true) (message : RunnerToBroker) :
    s.sendMessage message raises = ({ s with sent := s.sent ++ [message] }, true) :=
  if_pos h

theorem sendMessage_not (h : ¬ (s.connected = true ∧ ¬ raises = true)) (message : RunnerToBroker) :
    s.sendMessage message raises = (s, false) :=
  if_neg h

theorem failExecution_cases (s : PythonRunner) (taskId : String) (raises : Bool) :
    (∃ sent, s.failExecution taskId raises = { s.setTask taskId
      ({ s.tasks taskId with execution := some .finishing }.record .taskerror) with sent }) ∨
    s.failExecution taskId raises = s.endExecution taskId := by
  by_cases h : s.connected = true ∧ ¬ raises = true
  · exact .inl ⟨s.sent ++ [.taskerror taskId], by simp [failExecution, sendMessage_of h, setTask]⟩
  · exact .inr (by simp [failExecution, sendMessage_not h])

theorem sendResult_cases (s : PythonRunner) (taskId : String) (raises raises' : Bool)
    (prints : ℕ) :
    (∃ prints', s.sendResult taskId raises raises' prints =
      s.setTask taskId { s.tasks taskId with execution := some (.returned prints') }) ∨
    (∃ sent, s.sendResult taskId raises raises' prints = { s.setTask taskId
      ({ s.tasks taskId with execution := some .finishing }.record .taskdone) with sent }) ∨
    s.sendResult taskId raises raises' prints = s.failExecution taskId raises' := by
  by_cases h : s.connected = true ∧ ¬ raises = true
  · rcases prints with _ | prints
    · exact .inr (.inl ⟨s.sent ++ [.taskdone taskId],
        by simp [sendResult, sendMessage_of h, setTask]⟩)
    · exact .inl ⟨prints, if_pos h⟩
  · refine .inr (.inr ?_)
    rcases prints with _ | prints
    · simp [sendResult, sendMessage_not h]
    · exact if_neg h

/-! ### Steps -/

structure PythonInv (maxConcurrency : ℕ) (s : PythonRunner) : Prop where
  offers : s.OffersInv maxConcurrency
  tasks : ∀ id, (s.tasks id).Inv
  stopping : ∀ id, s.handler = some (.stopping id) → (s.tasks id).stopping.isSome

theorem pythonInv_start (maxConcurrency : ℕ) : PythonInv maxConcurrency (start maxConcurrency) where
  offers := by
    refine ⟨rfl, fun caller => ?_, fun caller caller' _ => ?_⟩
    · cases caller <;> exact Nat.zero_le _
    · cases caller <;> exact .inl rfl
  tasks := fun _ => inv_new
  stopping := by
    intro id h
    cases h

theorem PythonInv.holds (h : PythonInv maxConcurrency s) : PythonLifecycle maxConcurrency s where
  limit := by
    have hlimit := h.offers.limit .handler
    omega
  lawful := fun taskId => (h.tasks taskId).lawful
  dead := fun taskId hstopped => ((h.tasks taskId).stopped hstopped).2.1

theorem PythonInv.of_tasks (h : PythonInv maxConcurrency s) (hoffers : s'.OffersInv maxConcurrency)
    (htasks : s'.tasks = s.tasks)
    (hhandler : s'.handler = s.handler ∨ ∀ id, s'.handler ≠ some (.stopping id)) :
    PythonInv maxConcurrency s' where
  offers := hoffers
  tasks := by
    rw [htasks]
    exact h.tasks
  stopping := by
    intro id hstopping
    rcases hhandler with heq | hnot
    · rw [htasks]
      exact h.stopping id (heq ▸ hstopping)
    · exact (hnot id hstopping).elim

theorem PythonInv.of_task (h : PythonInv maxConcurrency s) (hoffers : s'.OffersInv maxConcurrency)
    {t : PythonTask} (htasks : s'.tasks = Function.update s.tasks taskId t) (ht : t.Inv)
    (hstopping : t.stopping = (s.tasks taskId).stopping)
    (hhandler : s'.handler = s.handler ∨ ∀ id, s'.handler ≠ some (.stopping id)) :
    PythonInv maxConcurrency s' where
  offers := hoffers
  tasks := by
    intro id
    rw [htasks, Function.update_apply]
    split
    · exact ht
    · exact h.tasks id
  stopping := by
    intro id hs
    rcases hhandler with heq | hnot
    · rw [htasks, Function.update_apply]
      have hold := h.stopping id (heq ▸ hs)
      split
      · rename_i hid
        rw [hstopping, ← hid]
        exact hold
      · exact hold
    · exact (hnot id hs).elim

theorem nextOffer_keeps (random : ℕ → ℕ) (s : PythonRunner) (raises : Bool) (n : ℕ) :
    (s.nextOffer random raises n).1.tasks = s.tasks ∧
      (s.nextOffer random raises n).1.handler = s.handler := by
  rcases n with _ | n
  · exact ⟨rfl, rfl⟩
  · simp only [nextOffer, sendMessage]
    split <;> exact ⟨rfl, rfl⟩

theorem sendOffers_keeps (random : ℕ → ℕ) (s : PythonRunner) (raises : Bool) :
    (s.sendOffers random raises).1.tasks = s.tasks ∧
      (s.sendOffers random raises).1.handler = s.handler := by
  rw [sendOffers]
  split
  · exact nextOffer_keeps random s.dropExpired raises _
  · exact ⟨rfl, rfl⟩

section Steps

variable (h : PythonInv maxConcurrency s)

include h

theorem PythonInv.endExecution (hrunning : (s.tasks taskId).process ≠ some .running) :
    PythonInv maxConcurrency (s.endExecution taskId) :=
  h.of_task (h.offers.endExecution taskId) rfl
    ((h.tasks taskId).decide hrunning none (fun _ => rfl) (.inl rfl)) rfl (.inl rfl)

theorem PythonInv.failExecution (hrunning : (s.tasks taskId).process ≠ some .running)
    (hpending : (s.tasks taskId).execution ≠ none ∧
      (s.tasks taskId).execution ≠ some .finishing) :
    PythonInv maxConcurrency (s.failExecution taskId raises) := by
  rcases failExecution_cases s taskId raises with ⟨sent, heq⟩ | heq
  · rw [heq]
    exact h.of_task (h.offers.mono rfl le_rfl le_rfl fun _ => le_rfl) rfl
      ((h.tasks taskId).send hpending hrunning (.inr rfl)) rfl (.inl rfl)
  · rw [heq]
    exact h.endExecution hrunning

theorem PythonInv.not_running (taskId : String)
    (hjoining : (s.tasks taskId).execution ≠ some .joining) :
    (s.tasks taskId).process ≠ some .running :=
  fun hrunning => hjoining ((h.tasks taskId).process hrunning)

theorem PythonInv.handleTaskOfferAccept (offerId : ℕ) :
    PythonInv maxConcurrency (s.handleTaskOfferAccept offerId taskId raises) := by
  have hrespond (t : PythonRunner) (message : RunnerToBroker) :
      (t.respond message raises).tasks = t.tasks ∧
        ∀ id, (t.respond message raises).handler ≠ some (.stopping id) := by
    simp only [respond, sendMessage]
    split <;> simp
  have hkept : (s.handleTaskOfferAccept offerId taskId raises).tasks = s.tasks ∨
      (s.handleTaskOfferAccept offerId taskId raises).tasks =
        Function.update s.tasks taskId {} := by
    rw [PythonRunner.handleTaskOfferAccept]
    split
    · exact .inl (hrespond _ _).1
    · split
      · exact .inl (hrespond _ _).1
      · split
        · exact .inl (hrespond _ _).1
        · exact .inr (hrespond _ _).1
  have hhandler (id : String) :
      (s.handleTaskOfferAccept offerId taskId raises).handler ≠ some (.stopping id) := by
    rw [PythonRunner.handleTaskOfferAccept]
    split
    · exact (hrespond _ _).2 id
    · split
      · exact (hrespond _ _).2 id
      · split
        · exact (hrespond _ _).2 id
        · exact (hrespond _ _).2 id
  refine ⟨h.offers.accept offerId taskId, fun id => ?_, fun id hs => (hhandler id hs).elim⟩
  rcases hkept with htasks | htasks
  · rw [htasks]
    exact h.tasks id
  · rw [htasks, Function.update_apply]
    split
    · exact inv_new
    · exact h.tasks id

theorem PythonInv.handleTaskCancel
    (horderly : s.Orderly (.taskcancel taskId raises)) :
    PythonInv maxConcurrency (s.handleTaskCancel random taskId raises) := by
  rw [PythonRunner.handleTaskCancel]
  split
  · rename_i hin
    have horderly := horderly hin
    split
    · rename_i hstatus
      rw [hstatus] at horderly
      refine h.of_tasks ((h.offers.pop taskId).sendOffers stores_offering horderly)
        (sendOffers_keeps _ _ _).1 (.inr fun id => ?_)
      rw [PythonRunner.offering]
      rcases ((s.pop taskId).sendOffers random raises).2 with _ | left <;> simp
    · rename_i hstatus
      rw [hstatus] at horderly
      refine ⟨h.offers.mono rfl le_rfl le_rfl (left_handler_le _ rfl (by simp)), fun id => ?_,
        fun id hs => ?_⟩
      · simp only [setTask, Function.update_apply]
        split
        · exact (h.tasks taskId).cancel hstatus horderly
        · exact h.tasks id
      · have hid : taskId = id := by simpa using hs
        simp [setTask, ← hid, PythonTask.cancel, PythonTask.record]
    · exact h
  · exact h

theorem PythonInv.handlerGoesOn {killed : Bool} (horderly : s.Orderly (.handler raises killed)) :
    PythonInv maxConcurrency (s.handlerGoesOn random raises killed) := by
  unfold PythonRunner.handlerGoesOn
  unfold Orderly at horderly
  split
  · rename_i left hhandler
    refine h.of_tasks (h.offers.goesOn stores_offering (by simp [PythonRunner.left, hhandler]))
      (nextOffer_keeps _ _ _ _).1 (.inr fun id => ?_)
    rw [PythonRunner.offering]
    rcases (s.nextOffer random raises left).2 with _ | left <;> simp
  · rename_i taskId hhandler
    rw [hhandler] at horderly
    refine ⟨h.offers.mono rfl le_rfl le_rfl (left_handler_le _ rfl (by simp)), fun id => ?_,
      fun id hs => by cases hs⟩
    simp only [setTask, Function.update_apply]
    split
    · exact (h.tasks taskId).stopProcess (h.stopping taskId hhandler) horderly killed
    · exact h.tasks id
  · exact h.of_tasks (h.offers.mono rfl le_rfl le_rfl (left_handler_le _ rfl (by simp))) rfl
      (.inr (by simp))

theorem PythonInv.loopGoesOn {id : ℕ} {point : Option ℕ} (hpoint : s.loops.get? id = some point)
    (horderly : s.Orderly (.loop id raises)) :
    PythonInv maxConcurrency (s.loopGoesOn random id raises point) := by
  rcases point with _ | left
  · rw [PythonRunner.loopGoesOn]
    split
    · obtain ⟨htasks, hhandler⟩ := sendOffers_keeps random s raises
      exact h.of_tasks (h.offers.sendOffers (stores_looping id) (horderly hpoint)) htasks
        (.inl hhandler)
    · exact h.of_tasks (h.offers.mono rfl le_rfl le_rfl
        (left_loops_le _ rfl fun _ _ => Dict.get?_of_get?_erase)) rfl (.inl rfl)
  · obtain ⟨htasks, hhandler⟩ := nextOffer_keeps random s raises left
    exact h.of_tasks (h.offers.goesOn (stores_looping id) (by simp [PythonRunner.left, hpoint]))
      htasks (.inl hhandler)

theorem pythonInv_step {input : PythonInput} (hstep : step random s input = .ok s')
    (horderly : s.Orderly input) : PythonInv maxConcurrency s' := by
  cases input with
  | advance ms =>
    cases hstep
    exact h.of_tasks (h.offers.mono rfl le_rfl le_rfl fun _ => le_rfl) rfl (.inl rfl)
  | connect =>
    obtain ⟨-, rfl⟩ := onlyIf_eq_ok.mp hstep
    exact h.of_tasks (h.offers.mono rfl le_rfl le_rfl fun _ => le_rfl) rfl (.inl rfl)
  | disconnect =>
    obtain ⟨-, rfl⟩ := onlyIf_eq_ok.mp hstep
    -- the loop of the connection is dropped, or nothing happens to the loops
    refine h.of_tasks (h.offers.mono rfl le_rfl le_rfl
      (left_loops_le _ rfl fun other left hget => ?_)) rfl (.inl rfl)
    rw [disconnect] at hget
    split at hget
    · exact Dict.get?_of_get?_erase hget
    · exact hget
  | registered =>
    obtain ⟨-, rfl⟩ := onlyIf_eq_ok.mp hstep
    -- a new loop has no offer left to send
    refine h.of_tasks (h.offers.mono rfl le_rfl le_rfl
      (left_loops_le _ rfl fun other left hget => ?_)) rfl (.inl rfl)
    rw [handleRunnerRegistered, Dict.get?_set] at hget
    split at hget
    · cases hget
    · exact hget
  | taskofferaccept offerId taskId raises =>
    obtain ⟨-, rfl⟩ := onlyIf_eq_ok.mp hstep
    have hoffered : PythonInv maxConcurrency { s with offered := s.offered ++ [taskId] } :=
      h.of_tasks (h.offers.mono rfl le_rfl le_rfl fun _ => le_rfl) rfl (.inl rfl)
    exact hoffered.handleTaskOfferAccept offerId
  | tasksettings taskId continueOnFail =>
    obtain ⟨-, rfl⟩ := onlyIf_eq_ok.mp hstep
    rw [handleTaskSettings]
    split
    · rename_i hwaits
      exact h.of_task (h.offers.setTask _ _) rfl ((h.tasks taskId).settings hwaits.2 _) rfl
        (.inl rfl)
    · exact h
  | taskcancel taskId raises =>
    obtain ⟨-, rfl⟩ := onlyIf_eq_ok.mp hstep
    exact h.handleTaskCancel horderly
  | handler raises killed =>
    obtain ⟨-, rfl⟩ := onlyIf_eq_ok.mp hstep
    exact h.handlerGoesOn horderly
  | loop id raises =>
    rw [step] at hstep
    split at hstep
    · rename_i point hpoint
      cases hstep
      exact h.loopGoesOn hpoint horderly
    · cases hstep
  | execute taskId valid raises =>
    obtain ⟨hcreated, rfl⟩ := onlyIf_eq_ok.mp hstep
    rw [beginExecution]
    split
    · exact h.of_task (h.offers.setTask _ _) rfl ((h.tasks taskId).createProcess hcreated) rfl
        (.inl rfl)
    · exact h.failExecution (h.not_running _ (by simp [hcreated])) (by simp [hcreated])
  | startProcess taskId started =>
    obtain ⟨hstarting, rfl⟩ := onlyIf_eq_ok.mp hstep
    refine h.of_task (h.offers.setTask _ _) rfl ((h.tasks taskId).startProcess hstarting started)
      ?_ (.inl rfl)
    cases started <;> rfl
  | exit taskId code =>
    obtain ⟨hrunning, rfl⟩ := onlyIf_eq_ok.mp hstep
    exact h.of_task (h.offers.setTask _ _) rfl ((h.tasks taskId).exit hrunning horderly) rfl
      (.inl rfl)
  | join taskId killed result =>
    obtain ⟨hjoining, rfl⟩ := onlyIf_eq_ok.mp hstep
    refine h.of_task (h.offers.setTask _ _) rfl ((h.tasks taskId).afterJoin hjoining killed result)
      ?_ (.inl rfl)
    unfold afterJoin
    split <;> rfl
  | resume taskId raises raises' =>
    rw [step] at hstep
    split at hstep
    · rename_i prints hreturned
      cases hstep
      have hnotRunning := h.not_running taskId (by simp [hreturned])
      have hpending : (s.tasks taskId).execution ≠ none ∧
          (s.tasks taskId).execution ≠ some .finishing := by simp [hreturned]
      rcases sendResult_cases s taskId raises raises' prints with ⟨prints', heq⟩ | ⟨sent, heq⟩ | heq
      · rw [heq]
        exact h.of_task (h.offers.setTask _ _) rfl ((h.tasks taskId).print hreturned) rfl (.inl rfl)
      · rw [heq]
        exact h.of_task (h.offers.mono rfl le_rfl le_rfl fun _ => le_rfl) rfl
          ((h.tasks taskId).send hpending hnotRunning
            (.inl ⟨rfl, (h.tasks taskId).not_cancelled_of_returned hreturned⟩)) rfl (.inl rfl)
      · rw [heq]
        exact h.failExecution hnotRunning hpending
    · rename_i hraised
      cases hstep
      exact h.failExecution (h.not_running _ (by simp [hraised])) (by simp [hraised])
    · rename_i hfinishing
      cases hstep
      exact h.endExecution (h.not_running _ (by simp [hfinishing]))
    · cases hstep

end Steps

/-- **Orderly runs keep the promise**: along every run in which offers are sent by
one call at a time, and each cancellation finds the task failed or over, or a
process that it stops before a result, the limit holds in every state, and each
task sends at most one result or error and, after a cancellation that found it
running, no result, and starts no process that goes on. -/
theorem lifecycle_of_orderly (random : ℕ → ℕ) (maxConcurrency : ℕ) (inputs : List PythonInput)
    (h : Along (step random) (fun s input _ => s.Orderly input) (start maxConcurrency) inputs) :
    Along (step random) (fun _ _ s' => PythonLifecycle maxConcurrency s') (start maxConcurrency)
      inputs := by
  have hstep (s : PythonRunner) (input : PythonInput) (s' : PythonRunner)
      (hinv : PythonInv maxConcurrency s) (hs : step random s input = .ok s')
      (horderly : s.Orderly input) :
      PythonLifecycle maxConcurrency s' ∧ PythonInv maxConcurrency s' :=
    ⟨(pythonInv_step hinv hs horderly).holds, pythonInv_step hinv hs horderly⟩
  exact Along.of_step hstep (pythonInv_start maxConcurrency) h

/-- A task that is cancelled while its process runs. -/
def cancelWhileRunning : List PythonInput :=
  [.connect, .registered, .loop 0 false, .taskofferaccept 0 "t" false, .handler false false,
    .tasksettings "t" false, .execute "t" true false, .startProcess "t" true,
    .taskcancel "t" false, .handler false true, .join "t" false none, .resume "t" false false,
    .resume "t" false false]

theorem lifecycle_cancelWhileRunning :
    Along (step fun _ => 0) (fun s input _ => s.Orderly input) (start 1) cancelWhileRunning ∧
    Along (step fun _ => 0) (fun _ _ s' => PythonLifecycle 1 s') (start 1) cancelWhileRunning := by
  have horderly : Along (step fun _ => 0) (fun s input _ => s.Orderly input) (start 1)
      cancelWhileRunning := by decide
  exact ⟨horderly, lifecycle_of_orderly (fun _ => 0) 1 cancelWhileRunning horderly⟩

/-- A task that is cancelled before its coroutine begins: the process is started
all the same, and its result is sent. -/
def cancelBeforeStart : List PythonInput :=
  [.connect, .registered, .loop 0 false, .taskofferaccept 0 "t" false, .handler false false,
    .tasksettings "t" false, .taskcancel "t" false, .handler false false, .execute "t" true false,
    .startProcess "t" true, .exit "t" 0, .join "t" false (some 0), .resume "t" false false]

theorem not_lifecycle_cancelBeforeStart : ¬ Along (step fun _ => 0)
    (fun _ _ s' => PythonLifecycle 1 s') (start 1) cancelBeforeStart := by
  intro h
  have hcancelled : Along (step fun _ => 0) (fun _ _ s' => (s'.tasks "t").events.Pairwise
      fun a b => a = .cancelled → b ≠ .taskdone) (start 1) cancelBeforeStart :=
    h.mono fun _ _ _ hr => (hr.lawful "t").cancelled
  exact absurd hcancelled (by decide)

end PythonRunner

end N8n
