/-
How the end of a crashed execution is recovered from the event log: `ExecutionRecoveryService`.

`amend` goes through the nodes of the workflow and fills in the run data of those that the log says
were started and that have none.  It takes the first start and the first finish of a node, and
ends with the last node in the order of the workflow.

* **`recovered_iff`** — the end that is reported is the one of the log iff the log is orderly: it
  starts nodes of the workflow only, no node is started again after it finished, and the last node
  of the workflow that is filled in comes last in the log as well.
-/
import N8n.DirectedGraph
import N8n.Collect

namespace N8n.ExecutionRecovery

open DirectedGraph (inheritedNames)

structure EventMessage where
  eventName : String
  nodeName : Option String := none
  ts : ℤ
  deriving DecidableEq

structure TimedTaskData extends ITaskData where
  startTime : ℤ
  executionIndex : ℕ
  executionTime : ℤ
  deriving DecidableEq

structure ResultData where
  runData : Dict String (List TimedTaskData) := Dict.empty
  lastNodeExecuted : Option String := none
  error : Option ExecutionError := none

structure IExecutionResponse where
  status : ExecutionStatus
  stoppedAt : Option ℤ := none
  data : Option ResultData := none
  nodes : List INode

def artificialTaskData : ITaskDataConnections :=
  mainOnly [.data [{ json := .object [("isArtificialRecoveredEventItem", .boolean true)] }]]

def nodeCrashedError : ExecutionError where
  name := some "NodeCrashedError"
  message := some "Execution stopped at this node"

def workflowCrashedError : ExecutionError where
  name := some "WorkflowCrashedError"
  message := some "Workflow did not finish, possible out-of-memory issue"

def startsWith (eventName start : String) : Bool := start.toList.isPrefixOf eventName.toList

structure RelevantMessages where
  nodeMessages : List EventMessage
  workflowMessages : List EventMessage

variable (messages : List EventMessage)

def toRelevantMessages : RelevantMessages where
  nodeMessages := messages.filter fun cur => startsWith cur.eventName "n8n.node."
  workflowMessages := messages.filter fun cur =>
    !startsWith cur.eventName "n8n.node." && startsWith cur.eventName "n8n.workflow."

def isStart (name : String) (m : EventMessage) : Bool :=
  m.nodeName = some name && m.eventName = "n8n.node.started"

def isFinish (name : String) (m : EventMessage) : Bool :=
  m.nodeName = some name && m.eventName = "n8n.node.finished"

def workflowEndEvents : List String :=
  ["n8n.workflow.success", "n8n.workflow.crashed", "n8n.workflow.failed"]

def toStoppedAt (timestamp : Option ℤ) (messages : List EventMessage) : Option ℤ :=
  match timestamp with
  | some ts => some ts
  | none => ((messages.find? fun m => m.eventName ∈ workflowEndEvents).or
      (messages.find? fun m => m.eventName = "n8n.workflow.started")).map EventMessage.ts

/-- `runData[name] !== undefined`; an inherited name is never undefined. -/
def nodeHasRunData (runData : Dict String (List TimedTaskData)) (name : String) : Bool :=
  runData.has name || name ∈ inheritedNames

structure Recovery where
  resultData : ResultData
  lastNodeRunTimestamp : Option ℤ := none

def finishedTask (nodeStartedMessage nodeFinishedMessage : EventMessage) : TimedTaskData where
  startTime := nodeStartedMessage.ts / 1000
  executionIndex := 0
  source := [.null]
  executionStatus := some .success
  data := some artificialTaskData
  executionTime := nodeFinishedMessage.ts - nodeStartedMessage.ts

def crashedTask (nodeStartedMessage : EventMessage) : TimedTaskData where
  startTime := nodeStartedMessage.ts / 1000
  executionIndex := 0
  source := [.null]
  executionStatus := some .crashed
  error := some nodeCrashedError
  executionTime := 0

def recoverNode (nodeMessages : List EventMessage) (st : Recovery) (node : INode) : Recovery :=
  match nodeMessages.find? (isStart node.name) with
  | none => st
  | some nodeStartedMessage =>
    if nodeHasRunData st.resultData.runData node.name then st
    else match nodeMessages.find? (isFinish node.name) with
      | some nodeFinishedMessage => {
          resultData := { st.resultData with
            lastNodeExecuted := some node.name
            runData := st.resultData.runData.set node.name
              [finishedTask nodeStartedMessage nodeFinishedMessage] }
          lastNodeRunTimestamp := some nodeFinishedMessage.ts }
      | none => {
          resultData := {
            error := some workflowCrashedError
            lastNodeExecuted := some node.name
            runData := st.resultData.runData.set node.name [crashedTask nodeStartedMessage] }
          lastNodeRunTimestamp := some nodeStartedMessage.ts }

/-- The execution as it is written back, for one that is not finished. -/
def amendFromLogs (execution : IExecutionResponse) (relevant : RelevantMessages) :
    IExecutionResponse :=
  let recovery := execution.nodes.foldl (recoverNode relevant.nodeMessages)
    { resultData := execution.data.getD {} }
  { execution with
    status := if execution.status = .error then .error else .crashed
    stoppedAt := toStoppedAt recovery.lastNodeRunTimestamp relevant.workflowMessages
    data := some recovery.resultData }

/-- `stored` is what the repository finds, and `withoutLogs` what it finds after it was told that
the execution crashed. -/
def amend (stored withoutLogs : Option IExecutionResponse) (messages : List EventMessage) :
    Option IExecutionResponse :=
  if messages = [] then withoutLogs
  else
    let relevant := toRelevantMessages messages
    if relevant.nodeMessages = [] then none
    else match stored with
      | none => none
      | some execution =>
        if execution.status ∈ [.success, .error, .canceled] ∧ execution.data.isSome then none
        else some (amendFromLogs execution relevant)

def Started (name : String) : Prop :=
  ∃ m ∈ messages, isStart name m = true

/-- The last start of a node has a later finish. -/
def Ended (name : String) : Prop :=
  ∀ before s after, messages = before ++ s :: after → isStart name s = true →
    (∀ m ∈ after, isStart name m = false) → ∃ m ∈ after, isFinish name m = true

def IsOf (P : String → Prop) (m : EventMessage) : Prop :=
  ∃ name, P name ∧ (isStart name m = true ∨ isFinish name m = true)

/-- The last of the messages of some nodes. -/
structure IsLastOf (P : String → Prop) (m : EventMessage) : Prop where
  of : IsOf P m
  last : ∃ before after, messages = before ++ m :: after ∧ ∀ m' ∈ after, ¬ IsOf P m'

/-- Run data for the nodes that were started or had some; each one that was filled in is marked as
crashed iff it had not ended; the last message is the end; what was there is kept. -/
structure Recovered (before after : ResultData) (stoppedAt : Option ℤ)
    (messages : List EventMessage) : Prop where
  nodes : ∀ name, name ∈ after.runData.keys ↔ Started messages name ∨ name ∈ before.runData.keys
  crashed : ∀ name tasks, after.runData.get? name = some tasks → name ∉ before.runData.keys →
    ((∃ task ∈ tasks, task.executionStatus = some .crashed) ↔ ¬ Ended messages name)
  last : ∀ m, IsLastOf messages
      (fun name => name ∈ after.runData.keys ∧ name ∉ before.runData.keys) m →
    after.lastNodeExecuted = m.nodeName ∧ stoppedAt = some m.ts
  kept : ∀ name tasks, before.runData.get? name = some tasks →
    after.runData.get? name = some tasks

variable {nodes : List INode} {messages : List EventMessage} {name : String}
  {runData : Dict String (List TimedTaskData)} {data : ResultData}

/-- Started, without run data, and with a name that no object inherits. -/
def fillable (messages : List EventMessage) (runData : Dict String (List TimedTaskData))
    (name : String) : Bool :=
  (messages.find? (isStart name)).isSome && !nodeHasRunData runData name

def fillOrder (messages : List EventMessage) (runData : Dict String (List TimedTaskData))
    (nodes : List INode) : List String :=
  nodes.foldl (fun order node =>
    if fillable messages runData node.name then setAdd order node.name else order) []

/-- The time that a node is filled in with: of its first finish, or else of its first start. -/
def reached (messages : List EventMessage) (name : String) : Option ℤ :=
  ((messages.find? (isFinish name)).or (messages.find? (isStart name))).map EventMessage.ts

/-- The log is orderly: it starts nodes of the workflow, whose names no object inherits; a node
that was filled in and has a finish has one after its last start; and the last of these nodes has
the last message, at the time of its first finish, or of its first start if it has none. -/
structure Orderly (messages : List EventMessage) (runData : Dict String (List TimedTaskData))
    (nodes : List INode) : Prop where
  known : ∀ name, Started messages name → name ∉ runData.keys →
    name ∉ inheritedNames ∧ ∃ node ∈ nodes, node.name = name
  once : ∀ name ∈ fillOrder messages runData nodes,
    (∃ m ∈ messages, isFinish name m = true) → Ended messages name
  last : ∀ m, IsLastOf messages (· ∈ fillOrder messages runData nodes) m →
    ∀ name ∈ (fillOrder messages runData nodes).getLast?,
      m.nodeName = some name ∧ reached messages name = some m.ts

theorem started_iff : Started messages name ↔ (messages.find? (isStart name)).isSome = true := by
  rw [List.find?_isSome]
  rfl

theorem fillOrder_concat (node : INode) : fillOrder messages runData (nodes ++ [node]) =
    if fillable messages runData node.name then setAdd (fillOrder messages runData nodes) node.name
    else fillOrder messages runData nodes := by
  rw [fillOrder, List.foldl_append]
  rfl

theorem mem_fillOrder : name ∈ fillOrder messages runData nodes ↔
    fillable messages runData name = true ∧ ∃ node ∈ nodes, node.name = name := by
  induction nodes using List.reverseRecOn with
  | nil => simp [fillOrder]
  | append_singleton nodes node ih =>
    rw [fillOrder_concat]
    split
    · next h =>
      rw [mem_setAdd, ih]
      constructor
      · rintro (⟨hfill, other, hmem, rfl⟩ | rfl)
        · exact ⟨hfill, other, List.mem_append_left _ hmem, rfl⟩
        · exact ⟨h, node, by simp, rfl⟩
      · rintro ⟨hfill, other, hmem, rfl⟩
        rcases List.mem_append.mp hmem with hmem | hmem
        · exact .inl ⟨hfill, other, hmem, rfl⟩
        · exact .inr (by rw [List.mem_singleton.mp hmem])
    · next h =>
      rw [ih]
      refine and_congr_right fun hfill => ⟨?_, ?_⟩
      · rintro ⟨other, hmem, rfl⟩
        exact ⟨other, List.mem_append_left _ hmem, rfl⟩
      · rintro ⟨other, hmem, rfl⟩
        rcases List.mem_append.mp hmem with hmem | hmem
        · exact ⟨other, hmem, rfl⟩
        · exact absurd (List.mem_singleton.mp hmem ▸ hfill) h

def filledTask (messages : List EventMessage) (name : String) : List TimedTaskData :=
  match messages.find? (isStart name), messages.find? (isFinish name) with
  | some started, some finished => [finishedTask started finished]
  | some started, none => [crashedTask started]
  | none, _ => []

theorem recoverNode_of_fill {st : Recovery} {node : INode} {started : EventMessage}
    (hstart : messages.find? (isStart node.name) = some started)
    (hdata : nodeHasRunData st.resultData.runData node.name = false) :
    (recoverNode messages st node).resultData.runData =
        st.resultData.runData.set node.name (filledTask messages node.name) ∧
      (recoverNode messages st node).resultData.lastNodeExecuted = some node.name ∧
      (recoverNode messages st node).lastNodeRunTimestamp = reached messages node.name := by
  rcases hfinish : messages.find? (isFinish node.name) with _ | finished
  · simp [recoverNode, hstart, hdata, hfinish, filledTask, reached]
  · simp [recoverNode, hstart, hdata, hfinish, filledTask, reached]

theorem getLast?_setAdd {order : List String} (h : name ∉ order) :
    (setAdd order name).getLast? = some name := by
  rw [setAdd, if_neg h, List.getLast?_concat]

/-- **The loop over the nodes**: the nodes to fill in have their task, the last of them is the last
node, with its time. -/
theorem foldl_recoverNode (messages : List EventMessage) (data : ResultData) (nodes : List INode) :
    ∃ recovery : Recovery,
      nodes.foldl (recoverNode messages) { resultData := data } = recovery ∧
      (∀ name, recovery.resultData.runData.get? name =
        if name ∈ fillOrder messages data.runData nodes then some (filledTask messages name)
        else data.runData.get? name) ∧
      recovery.resultData.lastNodeExecuted =
        (fillOrder messages data.runData nodes).getLast?.or data.lastNodeExecuted ∧
      recovery.lastNodeRunTimestamp =
        (fillOrder messages data.runData nodes).getLast?.bind (reached messages) := by
  induction nodes using List.reverseRecOn with
  | nil => exact ⟨_, rfl, fun name => rfl, rfl, rfl⟩
  | append_singleton nodes node ih =>
    obtain ⟨st, hst, hdata, hlast, htime⟩ := ih
    rw [List.foldl_append, hst, fillOrder_concat, List.foldl_cons, List.foldl_nil]
    refine ⟨_, rfl, ?_⟩
    -- run data that was there, or was filled in for the same name, is found
    have hhas : nodeHasRunData st.resultData.runData node.name = true ↔
        nodeHasRunData data.runData node.name = true ∨
          node.name ∈ fillOrder messages data.runData nodes := by
      rw [nodeHasRunData, nodeHasRunData, Dict.has, hdata]
      split
      · next h => simp [h]
      · next h => simp [h, Dict.has]
    rcases hstart : messages.find? (isStart node.name) with _ | started
    · have hnot : fillable messages data.runData node.name = false := by simp [fillable, hstart]
      have hround : recoverNode messages st node = st := by rw [recoverNode, hstart]
      rw [hnot, if_neg Bool.false_ne_true, hround]
      exact ⟨hdata, hlast, htime⟩
    · by_cases hskip : nodeHasRunData st.resultData.runData node.name = true
      · have hround : recoverNode messages st node = st := by
          rw [recoverNode, hstart]
          exact if_pos hskip
        have horder : (if fillable messages data.runData node.name = true then
            setAdd (fillOrder messages data.runData nodes) node.name
            else fillOrder messages data.runData nodes) =
            fillOrder messages data.runData nodes := by
          split
          · next hfill =>
            have hmem := (hhas.mp hskip).resolve_left fun h => by simp [fillable, h] at hfill
            rw [setAdd, if_pos hmem]
          · rfl
        rw [hround, horder]
        exact ⟨hdata, hlast, htime⟩
      · obtain ⟨hnone, hnew⟩ := not_or.mp (mt hhas.mpr hskip)
        have hfill : fillable messages data.runData node.name = true := by
          simp [fillable, hstart, hnone]
        obtain ⟨hset, hname, hreached⟩ :=
          recoverNode_of_fill hstart (Bool.not_eq_true _ ▸ hskip)
        rw [if_pos hfill, getLast?_setAdd hnew, hname, hreached, hset]
        refine ⟨fun name => ?_, rfl, rfl⟩
        rw [Dict.get?_set, hdata]
        by_cases heq : name = node.name
        · simp [heq, mem_setAdd]
        · simp [heq, mem_setAdd]

theorem fillable_iff : fillable messages runData name = true ↔
    Started messages name ∧ name ∉ runData.keys ∧ name ∉ inheritedNames := by
  rw [fillable, nodeHasRunData, started_iff, ← Dict.has_iff]
  simp

theorem exists_last_start (h : Started messages name) : ∃ before s after,
    messages = before ++ s :: after ∧ isStart name s = true ∧
      ∀ m ∈ after, isStart name m = false := by
  have hsome : (messages.reverse.find? (isStart name)).isSome = true := by
    rw [List.find?_isSome]
    exact h.imp fun m hm => ⟨List.mem_reverse.mpr hm.1, hm.2⟩
  obtain ⟨s, hfind⟩ := Option.isSome_iff_exists.mp hsome
  obtain ⟨hs, before, after, hsplit, hbefore⟩ := List.find?_eq_some_iff_append.mp hfind
  refine ⟨after.reverse, s, before.reverse, ?_, hs, fun m hm => ?_⟩
  · rw [← List.reverse_reverse messages, hsplit, List.reverse_append, List.reverse_cons,
      List.append_assoc, List.singleton_append]
  · simpa using hbefore m (List.mem_reverse.mp hm)

theorem isSome_reached (h : Started messages name) : ∃ ts, reached messages name = some ts := by
  obtain ⟨s, hs⟩ := Option.isSome_iff_exists.mp (started_iff.mp h)
  rw [reached, hs]
  rcases messages.find? (isFinish name) with _ | m
  · exact ⟨s.ts, rfl⟩
  · exact ⟨m.ts, rfl⟩

theorem crashed_filledTask_iff (h : Started messages name) :
    (∃ task ∈ filledTask messages name, task.executionStatus = some .crashed) ↔
      ∀ m ∈ messages, isFinish name m = false := by
  obtain ⟨s, hs⟩ := Option.isSome_iff_exists.mp (started_iff.mp h)
  rcases hfinish : messages.find? (isFinish name) with _ | m
  · refine iff_of_true ⟨crashedTask s, ?_, rfl⟩ ?_
    · simp [filledTask, hs, hfinish]
    · simpa using hfinish
  · refine iff_of_false ?_ fun hnone => ?_
    · rintro ⟨task, htask, hstatus⟩
      simp only [filledTask, hs, hfinish, List.mem_singleton] at htask
      rw [htask] at hstatus
      cases hstatus
    · have hm := List.find?_some hfinish
      rw [hnone m (List.mem_of_find?_eq_some hfinish)] at hm
      cases hm

theorem recovered_amendFromLogs_iff {execution : IExecutionResponse} {relevant : RelevantMessages} :
    Recovered (execution.data.getD {}) ((amendFromLogs execution relevant).data.getD {})
      (amendFromLogs execution relevant).stoppedAt relevant.nodeMessages ↔
    Orderly relevant.nodeMessages (execution.data.getD {}).runData execution.nodes := by
  obtain ⟨recovery, hfold, hdata, hlast, htime⟩ := foldl_recoverNode relevant.nodeMessages
    (execution.data.getD {}) execution.nodes
  generalize hbefore : execution.data.getD {} = before at *
  have hafter : (amendFromLogs execution relevant).data.getD {} = recovery.resultData := by
    rw [amendFromLogs, hbefore, hfold]
    rfl
  have hstopped : (amendFromLogs execution relevant).stoppedAt =
      toStoppedAt recovery.lastNodeRunTimestamp relevant.workflowMessages := by
    rw [amendFromLogs, hbefore, hfold]
  rw [hafter, hstopped]
  generalize relevant.nodeMessages = messages at *
  have hfill : ∀ name ∈ fillOrder messages before.runData execution.nodes,
      Started messages name ∧ name ∉ before.runData.keys ∧ name ∉ inheritedNames := fun name h =>
    fillable_iff.mp (mem_fillOrder.mp h).1
  have hkeys : ∀ name, name ∈ recovery.resultData.runData.keys ↔
      name ∈ fillOrder messages before.runData execution.nodes ∨ name ∈ before.runData.keys := by
    intro name
    rw [Dict.mem_keys_iff, Dict.mem_keys_iff, hdata]
    split
    · next h => simp [h]
    · next h => simp [h]
  have hfilled : (fun name => name ∈ recovery.resultData.runData.keys ∧
      name ∉ before.runData.keys) = (· ∈ fillOrder messages before.runData execution.nodes) := by
    funext name
    rw [hkeys]
    exact propext ⟨fun h => h.1.resolve_right h.2, fun h => ⟨.inl h, (hfill name h).2.1⟩⟩
  have hend : ∀ name ∈ (fillOrder messages before.runData execution.nodes).getLast?,
      recovery.resultData.lastNodeExecuted = some name ∧
        toStoppedAt recovery.lastNodeRunTimestamp relevant.workflowMessages =
          reached messages name := by
    intro name hname
    obtain ⟨ts, hts⟩ := isSome_reached (hfill name (List.mem_of_getLast? hname)).1
    rw [hlast, htime, Option.mem_def.mp hname]
    exact ⟨rfl, by rw [Option.bind_some, hts]; rfl⟩
  constructor
  · intro h
    refine ⟨fun name hstarted hnone => ?_, fun name hname hfinish => ?_, fun m hm name hname => ?_⟩
    · have hmem := ((hkeys name).mp ((h.nodes name).mpr (.inl hstarted))).resolve_right hnone
      exact ⟨(hfill name hmem).2.2, (mem_fillOrder.mp hmem).2⟩
    · obtain ⟨hstarted, hnone, -⟩ := hfill name hname
      by_contra hnot
      obtain ⟨m, hm, hfinished⟩ := hfinish
      have hcrashed := (h.crashed name _ ((hdata name).trans (if_pos hname)) hnone).mpr hnot
      rw [(crashed_filledTask_iff hstarted).mp hcrashed m hm] at hfinished
      cases hfinished
    · obtain ⟨hnode, hts⟩ := h.last m (hfilled ▸ hm)
      obtain ⟨hnode', hts'⟩ := hend name hname
      exact ⟨hnode.symm.trans hnode', hts'.symm.trans hts⟩
  · intro h
    refine ⟨fun name => ?_, fun name tasks htasks hnone => ?_, fun m hm => ?_,
      fun name tasks htasks => ?_⟩
    · rw [hkeys]
      constructor
      · rintro (hmem | hmem)
        · exact .inl (hfill name hmem).1
        · exact .inr hmem
      · rintro (hstarted | hmem)
        · by_cases hnone : name ∈ before.runData.keys
          · exact .inr hnone
          · obtain ⟨hown, hnode⟩ := h.known name hstarted hnone
            exact .inl (mem_fillOrder.mpr ⟨fillable_iff.mpr ⟨hstarted, hnone, hown⟩, hnode⟩)
        · exact .inr hmem
    · have hmem := ((hkeys name).mp (Dict.mem_keys_iff.mpr ⟨tasks, htasks⟩)).resolve_right hnone
      obtain ⟨hstarted, -, -⟩ := hfill name hmem
      rw [hdata, if_pos hmem] at htasks
      rw [← Option.some.inj htasks, crashed_filledTask_iff hstarted]
      constructor
      · intro hno hended
        obtain ⟨front, s, back, hsplit, hs, hback⟩ := exists_last_start hstarted
        obtain ⟨m, hm, hfinished⟩ := hended front s back hsplit hs hback
        rw [hno m (by rw [hsplit]; simp [hm])] at hfinished
        cases hfinished
      · intro hnot m hm
        by_contra hfinished
        exact hnot (h.once name hmem ⟨m, hm, by simpa using hfinished⟩)
    · rw [hfilled] at hm
      obtain ⟨name, hname, -⟩ := hm.of
      obtain ⟨last, hlast'⟩ := Option.isSome_iff_exists.mp
        (List.getLast?_isSome.mpr (List.ne_nil_of_mem hname))
      obtain ⟨hnode, hts⟩ := h.last m hm last hlast'
      obtain ⟨hnode', hts'⟩ := hend last hlast'
      exact ⟨hnode'.trans hnode.symm, hts'.trans hts⟩
    · have hnot : name ∉ fillOrder messages before.runData execution.nodes := fun hmem =>
        (hfill name hmem).2.1 (Dict.mem_keys_iff.mpr ⟨tasks, htasks⟩)
      rw [hdata, if_neg hnot, htasks]

/-- **When the end is recovered**: for every execution that is amended from the log, iff the log of
its nodes is orderly. -/
theorem recovered_iff {stored withoutLogs : Option IExecutionResponse} {log : List EventMessage}
    {amended : IExecutionResponse} (hlog : log ≠ [])
    (hamended : amend stored withoutLogs log = some amended) :
    ∃ execution, stored = some execution ∧
      (Recovered (execution.data.getD {}) (amended.data.getD {}) amended.stoppedAt
          (toRelevantMessages log).nodeMessages ↔
        Orderly (toRelevantMessages log).nodeMessages (execution.data.getD {}).runData
          execution.nodes) := by
  rw [amend, if_neg hlog] at hamended
  simp only at hamended
  split at hamended
  · cases hamended
  · cases stored with
    | none => cases hamended
    | some execution =>
      simp only at hamended
      split at hamended
      · cases hamended
      · cases hamended
        exact ⟨execution, rfl, recovered_amendFromLogs_iff⟩

def running : IExecutionResponse where
  status := .running
  nodes := [{ name := "Trigger" }, { name := "Loop" }]

def started (name : String) (ts : ℤ) : EventMessage := ⟨"n8n.node.started", some name, ts⟩

def finished (name : String) (ts : ℤ) : EventMessage := ⟨"n8n.node.finished", some name, ts⟩

/-- A node with one start and no finish. -/
theorem recovered_once : ∃ amended, amend (some running) none [started "Loop" 7] = some amended ∧
    Recovered {} (amended.data.getD {}) amended.stoppedAt [started "Loop" 7] := by
  obtain ⟨execution, hexecution, hiff⟩ :=
    @recovered_iff (some running) none [started "Loop" 7] _ (List.cons_ne_nil _ _) rfl
  cases hexecution
  refine ⟨_, rfl, hiff.mpr ⟨fun name hstarted _ => ?_, fun name _ hfinish => ?_, ?_⟩⟩
  · obtain ⟨m, hm, hstart⟩ := hstarted
    obtain rfl := List.mem_singleton.mp hm
    obtain rfl : name = "Loop" := by simpa [isStart, started, eq_comm] using hstart
    exact ⟨by decide, _, List.mem_cons_of_mem _ (List.mem_singleton_self _), rfl⟩
  · obtain ⟨m, hm, hfinished⟩ := hfinish
    obtain rfl := List.mem_singleton.mp hm
    simp [isFinish, started] at hfinished
  · intro m hm name hname
    obtain ⟨before, after, hsplit, -⟩ := hm.last
    obtain rfl : m = started "Loop" 7 := by
      have hmem : m ∈ [started "Loop" 7] := by
        show m ∈ (toRelevantMessages [started "Loop" 7]).nodeMessages
        rw [hsplit]
        simp
      exact List.mem_singleton.mp hmem
    obtain rfl : "Loop" = name := Option.some.inj hname
    exact ⟨rfl, rfl⟩

/-- A second run that has no end counts as ended, since the first one has. -/
theorem not_recovered_twice : ∃ amended, amend (some running) none
      [started "Loop" 0, finished "Loop" 5, started "Loop" 7] = some amended ∧
    ¬ Recovered {} (amended.data.getD {}) amended.stoppedAt
      [started "Loop" 0, finished "Loop" 5, started "Loop" 7] := by
  refine ⟨_, rfl, fun h => ?_⟩
  have hnot : ¬ Ended [started "Loop" 0, finished "Loop" 5, started "Loop" 7] "Loop" := by
    intro hended
    obtain ⟨m, hm, -⟩ := hended [started "Loop" 0, finished "Loop" 5] (started "Loop" 7) [] rfl
      (by decide) fun m hm => by cases hm
    cases hm
  obtain ⟨task, htask, hstatus⟩ := (h.crashed "Loop" _ rfl List.not_mem_nil).mpr hnot
  obtain rfl := List.mem_singleton.mp htask
  cases hstatus

end N8n.ExecutionRecovery
