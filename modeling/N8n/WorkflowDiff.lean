/-
What changed between two versions of a workflow: `workflow-diff.ts`.

A change set tells for each node whether it was added, deleted or modified, and lists the
connections that were added or removed.  The rule `mergeAdditiveChanges` accepts two versions if
the second one has all that the first one has.

* `stringContainsParts_iff` — the scan finds out whether a string is a subsequence, though it stops
  as soon as too many letters were left out;
* `entries_compareWorkflowsNodes` — the entries of a change set, where no id is there twice.
-/
import N8n.AlikeValues
import N8n.ConnectionsDiff

namespace N8n.WorkflowDiff

/-- A JSON value. -/
abbrev Json := { value : JsValue // value.Distinct }

/-- What is compared of a node; a property it may not have is optional. -/
structure DiffableNode where
  id : String
  name : String
  type : Option Json := none
  typeVersion : Option Json := none
  webhookId : Option Json := none
  credentials : Option Json := none
  parameters : Json

structure DiffableWorkflow where
  nodes : List DiffableNode
  connections : IConnections

def DiffableNode.get (node : DiffableNode) : String → Option Json
  | "name" => some ⟨.string node.name, trivial⟩
  | "type" => node.type
  | "typeVersion" => node.typeVersion
  | "webhookId" => node.webhookId
  | "credentials" => node.credentials
  | "parameters" => some node.parameters
  | _ => none

def propsToCompare : List String :=
  ["name", "type", "typeVersion", "webhookId", "credentials", "parameters"]

/-- `pick(node, props)`. -/
def pick (node : DiffableNode) (props : List String) : JsValue :=
  .object (props.filterMap fun prop => (node.get prop).map fun value => (prop, value.1))

/-- Equality of JSON values by their content, as `lodash` has it. -/
def isEqual (a b : JsValue) : Bool := a.compare false (fun s t => s == t) b

def compareNodes (base target : DiffableNode) : Bool :=
  isEqual (pick base propsToCompare) (pick target propsToCompare)

inductive NodeDiffStatus where
  | eq
  | modified
  | added
  | deleted
  deriving DecidableEq, Repr

structure NodeDiff where
  status : NodeDiffStatus
  node : DiffableNode

def nodesById (nodes : List DiffableNode) : Dict String DiffableNode :=
  nodes.foldl (fun acc node => acc.set node.id node) Dict.empty

/-- The status of a node of the first version. -/
def compareWithTarget (targetNodes : Dict String DiffableNode) (id : String) (node : DiffableNode) :
    NodeDiff :=
  match targetNodes.get? id with
  | none => ⟨.deleted, node⟩
  | some targetNode => ⟨if compareNodes node targetNode then .eq else .modified, node⟩

def compareWorkflowsNodes (base target : List DiffableNode) : Dict String NodeDiff :=
  let baseNodes := nodesById base
  let targetNodes := nodesById target
  let diff := baseNodes.entries.foldl
    (fun diff e => diff.set e.1 (compareWithTarget targetNodes e.1 e.2)) Dict.empty
  targetNodes.entries.foldl
    (fun diff e => if baseNodes.has e.1 then diff else diff.set e.1 ⟨.added, e.2⟩) diff

structure WorkflowChangeSet where
  nodes : Dict String NodeDiff
  connections : ConnectionsDiff

/-- The constructor.  For one and the same version it skips the comparison, which would not find
anything. -/
def changeSet (prev next : DiffableWorkflow) : WorkflowChangeSet where
  nodes := compareWorkflowsNodes prev.nodes next.nodes
  connections := ConnectionsDiff.compareConnections prev.connections next.connections

/-- The code units of a string. -/
def utf16 (s : String) : List ℕ :=
  s.toList.flatMap fun c =>
    if c.toNat < 0x10000 then [c.toNat]
    else [0xD800 + (c.toNat - 0x10000) / 0x400, 0xDC00 + (c.toNat - 0x10000) % 0x400]

/-- The loop over what is left of `s` from position `i`. -/
def scanParts (substr : List ℕ) (diffSize : ℕ) : ℕ → ℕ → List ℕ → Bool
  | _, marker, [] => substr.length ≤ marker
  | i, marker, c :: s =>
    let marker := if substr[marker]? = some c then marker + 1 else marker
    if diffSize < i - marker then false else scanParts substr diffSize (i + 1) marker s

def stringContainsParts (s substr : String) : Bool :=
  if (utf16 s).length < (utf16 substr).length then false
  else scanParts (utf16 substr) ((utf16 s).length - (utf16 substr).length) 0 0 (utf16 s)

/-- An object `prev` is compared with whatever `next` is an object to `typeof`, so that `next` may
be an array; the other way round that is excluded. -/
def parametersAreSuperset (prev next : JsValue) : Bool :=
  prev.compare true (fun prev next => stringContainsParts next prev) next

def nodeIsSuperset (prevNode nextNode : DiffableNode) : Bool :=
  compareNodes { prevNode with parameters := ⟨.object [], List.nodup_nil, trivial⟩ }
      { nextNode with parameters := ⟨.object [], List.nodup_nil, trivial⟩ } &&
    parametersAreSuperset prevNode.parameters.1 nextNode.parameters.1

def mergeNodes (next : DiffableWorkflow) : List NodeDiff → Except JsError Bool
  | [] => .ok true
  | d :: ds => match d.status with
    | .deleted => .ok false
    | .added => mergeNodes next ds
    | status => match next.nodes.find? fun x => x.id = d.node.id with
      | none => .error (.raised "invariant broken - no next node")
      | some nextNode =>
        if status = .modified ∧ nodeIsSuperset d.node nextNode = false then .ok false
        else mergeNodes next ds

def mergeAdditiveChanges (_prev next : DiffableWorkflow) (diff : WorkflowChangeSet) :
    Except JsError Bool := do
  if ← mergeNodes next diff.nodes.values then
    return diff.connections.removedNames.isEmpty
  else return false

theorem scanParts_iff {substr : List ℕ} {diffSize : ℕ} :
    ∀ {s : List ℕ} {i marker : ℕ}, marker ≤ substr.length →
      i + s.length = diffSize + substr.length →
      (scanParts substr diffSize i marker s = true ↔ (substr.drop marker).Sublist s) := by
  intro s
  induction s with
  | nil =>
    intro i marker hmarker _
    rw [scanParts, decide_eq_true_iff, List.sublist_nil, List.drop_eq_nil_iff]
  | cons c s ih =>
    intro i marker hmarker hlength
    rw [List.length_cons] at hlength
    -- the letter of `substr` is matched as early as it can be
    have hgreedy : (substr.drop marker).Sublist (c :: s) ↔
        (substr.drop (if substr[marker]? = some c then marker + 1 else marker)).Sublist s := by
      split
      · next hc =>
        obtain ⟨hlt, rfl⟩ := List.getElem?_eq_some_iff.mp hc
        rw [List.drop_eq_getElem_cons hlt, List.cons_sublist_cons]
      · next hc =>
        refine ⟨fun h => ?_, fun h => h.cons c⟩
        rcases List.sublist_cons_iff.mp h with h | ⟨rest, hdrop, -⟩
        · exact h
        · exact absurd (by rw [← List.head?_drop, hdrop]; rfl) hc
    have hnext : (if substr[marker]? = some c then marker + 1 else marker) ≤ substr.length := by
      split
      · next hc => exact (List.getElem?_eq_some_iff.mp hc).1
      · exact hmarker
    rw [scanParts, hgreedy]
    generalize (if substr[marker]? = some c then marker + 1 else marker) = m at hnext
    split
    · next habort =>
      -- less is left of `s` than has still to be found in it
      refine iff_of_false Bool.false_ne_true fun h => ?_
      have hle := h.length_le
      rw [List.length_drop] at hle
      omega
    · exact ih hnext (by omega)

/-- **The scan**: it finds out whether the code units of a string are a subsequence. -/
theorem stringContainsParts_iff {s substr : String} :
    stringContainsParts s substr = true ↔ (utf16 substr).Sublist (utf16 s) := by
  rw [stringContainsParts]
  split
  · next hlt => exact iff_of_false Bool.false_ne_true fun h => absurd h.length_le (not_le.mpr hlt)
  · next hge => exact scanParts_iff (Nat.zero_le _) (by omega)

/-- No id is there twice. -/
def UniqueIds (nodes : List DiffableNode) : Prop := (nodes.map DiffableNode.id).Nodup

variable {nodes : List DiffableNode}

theorem entries_nodesById (h : UniqueIds nodes) :
    (nodesById nodes).entries = nodes.map fun node => (node.id, node) := by
  have hfold : nodesById nodes =
      (nodes.map fun node => (node.id, node)).foldl (fun acc e => acc.set e.1 e.2) Dict.empty := by
    rw [nodesById, List.foldl_map]
  have hkeys : (nodes.map fun node => (node.id, node)).map Prod.fst = nodes.map DiffableNode.id :=
    List.map_map
  rw [hfold, Dict.entries_foldl_set, Dict.entries_empty, List.nil_append]
  rw [Dict.entries_empty, List.nil_append, hkeys]
  exact h

theorem get?_nodesById (h : UniqueIds nodes) {id : String}
    {node : DiffableNode} :
    (nodesById nodes).get? id = some node ↔ node ∈ nodes ∧ node.id = id := by
  rw [← Dict.mem_entries_iff, entries_nodesById h, List.mem_map]
  constructor
  · rintro ⟨other, hmem, heq⟩
    obtain ⟨rfl, rfl⟩ := Prod.mk.inj heq
    exact ⟨hmem, rfl⟩
  · rintro ⟨hmem, rfl⟩
    exact ⟨node, hmem, rfl⟩

theorem has_nodesById (h : UniqueIds nodes) {id : String} :
    (nodesById nodes).has id = true ↔ ∃ node ∈ nodes, node.id = id := by
  rw [Dict.has, Option.isSome_iff_exists]
  exact exists_congr fun node => get?_nodesById h

/-- **The entries of a change set**: the nodes of the first version with their status, then those
that were added. -/
theorem entries_compareWorkflowsNodes {base target : List DiffableNode} (hbase : UniqueIds base)
    (htarget : UniqueIds target) : (compareWorkflowsNodes base target).entries =
      base.map (fun node => (node.id, compareWithTarget (nodesById target) node.id node)) ++
        (target.filter fun node => !(nodesById base).has node.id).map
          fun node => (node.id, ⟨.added, node⟩) := by
  have hstatus : ((nodesById base).entries.foldl
      (fun diff e => diff.set e.1 (compareWithTarget (nodesById target) e.1 e.2)) Dict.empty) =
      (base.map fun node => (node.id, compareWithTarget (nodesById target) node.id node)).foldl
        (fun diff e => diff.set e.1 e.2) Dict.empty := by
    rw [entries_nodesById hbase, List.foldl_map, List.foldl_map]
  have hadded : ∀ diff : Dict String NodeDiff, ((nodesById target).entries.foldl (fun diff e =>
      if (nodesById base).has e.1 then diff else diff.set e.1 ⟨.added, e.2⟩) diff) =
      ((target.filter fun node => !(nodesById base).has node.id).map
        fun node => (node.id, ⟨.added, node⟩)).foldl (fun diff e => diff.set e.1 e.2) diff := by
    intro diff
    rw [entries_nodesById htarget, List.foldl_map, List.foldl_map, List.foldl_filter]
    refine List.foldl_ext _ _ _ fun diff node _ => ?_
    cases (nodesById base).has node.id <;> rfl
  have hkeys : ∀ f : DiffableNode → NodeDiff, ∀ nodes : List DiffableNode,
      (nodes.map fun node => (node.id, f node)).map Prod.fst = nodes.map DiffableNode.id :=
    fun f nodes => List.map_map
  have hfirst := @Dict.entries_foldl_set _ _ _
    (base.map fun node => (node.id, compareWithTarget (nodesById target) node.id node)) Dict.empty
    (by rw [Dict.entries_empty, List.nil_append, hkeys]; exact hbase)
  rw [Dict.entries_empty, List.nil_append] at hfirst
  rw [compareWorkflowsNodes, hstatus, hadded, Dict.entries_foldl_set, hfirst]
  rw [hfirst, List.map_append, hkeys, hkeys, List.nodup_append']
  refine ⟨hbase, htarget.sublist (List.filter_sublist.map _), ?_⟩
  intro id hmem hnew
  obtain ⟨node, hnode, rfl⟩ := List.mem_map.mp hmem
  obtain ⟨other, hother, hid⟩ := List.mem_map.mp hnew
  have hnot := (List.mem_filter.mp hother).2
  rw [hid, (has_nodesById hbase).mpr ⟨node, hnode, rfl⟩] at hnot
  cases hnot

theorem isEqual_self {a : JsValue} (h : a.Distinct) : isEqual a a = true :=
  (JsValue.compare_iff (fun _ _ => beq_iff_eq) h h).mpr (.refl (fun _ => rfl) h)

variable {node base target : DiffableNode} {props : List String}

theorem mem_fields_pick {prop : String} {value : JsValue} :
    (prop, value) ∈ (pick node props).fields ↔
      prop ∈ props ∧ ∃ h : value.Distinct, node.get prop = some ⟨value, h⟩ := by
  rw [pick, JsValue.fields, List.mem_filterMap]
  constructor
  · rintro ⟨other, hmem, hget⟩
    obtain ⟨json, hjson, heq⟩ := Option.map_eq_some_iff.mp hget
    obtain ⟨rfl, rfl⟩ := Prod.mk.inj heq
    exact ⟨hmem, json.2, hjson⟩
  · rintro ⟨hmem, h, hget⟩
    exact ⟨prop, hmem, by rw [hget]; rfl⟩

theorem distinct_pick (h : props.Nodup) : (pick node props).Distinct := by
  refine ⟨?_, JsValue.distinctFields_iff.mpr fun f hf => ?_⟩
  · rw [List.map_filterMap]
    refine h.filterMap ?_
    have hkey : ∀ {prop key : String}, key ∈ (((node.get prop).map fun value =>
        (prop, value.1)).map Prod.fst) → key = prop := by
      intro prop key hkey
      obtain ⟨_, hget, rfl⟩ := Option.map_eq_some_iff.mp hkey
      obtain ⟨_, -, rfl⟩ := Option.map_eq_some_iff.mp hget
      rfl
    intro prop other key hprop hother
    exact (hkey hprop).symm.trans (hkey hother)
  · obtain ⟨-, hdistinct, -⟩ := mem_fields_pick.mp hf
    exact hdistinct

theorem compareNodes_self : compareNodes node node = true :=
  isEqual_self (distinct_pick (by decide))

/-- **The shortcut of the constructor** for one and the same version is what the comparison finds. -/
theorem changeSet_self {workflow : DiffableWorkflow} (h : UniqueIds workflow.nodes) :
    changeSet workflow workflow = {
      nodes := (workflow.nodes.map fun node => (node.id, ⟨.eq, node⟩)).foldl
        (fun map e => map.set e.1 e.2) Dict.empty
      connections := ⟨Dict.empty, Dict.empty⟩ } := by
  rw [changeSet, ConnectionsDiff.compareConnections_self]
  have hkeys : (workflow.nodes.map fun node => (node.id, (⟨.eq, node⟩ : NodeDiff))).map Prod.fst =
      workflow.nodes.map DiffableNode.id := List.map_map
  have hstatus : ∀ node ∈ workflow.nodes,
      (node.id, compareWithTarget (nodesById workflow.nodes) node.id node) =
        (node.id, (⟨.eq, node⟩ : NodeDiff)) := by
    intro node hnode
    rw [compareWithTarget, (get?_nodesById h).mpr ⟨hnode, rfl⟩]
    simp only [compareNodes_self, if_true]
  have hadded : (workflow.nodes.filter fun node => !(nodesById workflow.nodes).has node.id) = [] :=
    List.filter_eq_nil_iff.mpr fun node hnode => by
      simp [(has_nodesById h).mpr ⟨node, hnode, rfl⟩]
  congr 1
  apply Dict.ext_entries
  rw [entries_compareWorkflowsNodes h h, hadded, List.map_congr_left hstatus,
    Dict.entries_foldl_set]
  · simp
  · rw [Dict.entries_empty, List.nil_append, hkeys]
    exact h

/-- A node that leads back to itself. -/
def loopWorkflow : DiffableWorkflow where
  nodes := [{ id := "1", name := "Edit", parameters := ⟨.object [("mode", .string "raw")],
    by simp [JsValue.Distinct, JsValue.DistinctFields]⟩ }]
  connections := Dict.empty.set "Edit" (Dict.empty.set .main [some [⟨"Edit", .main, 0⟩]])

theorem changeSet_self_loop : changeSet loopWorkflow loopWorkflow = {
    nodes := (loopWorkflow.nodes.map fun node => (node.id, ⟨.eq, node⟩)).foldl
      (fun map e => map.set e.1 e.2) Dict.empty
    connections := ⟨Dict.empty, Dict.empty⟩ } :=
  changeSet_self (List.nodup_singleton "1")

end N8n.WorkflowDiff
