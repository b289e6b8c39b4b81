/-
The connections that one version of a workflow has and another one has not: `compareConnections`.

They are listed by node and by type in plain objects.  A name that every object inherits is found
in an object before it was written there, so that what is filed under it goes somewhere else.

* **`removedNames_eq_nil_iff`** — no node is listed with removed connections iff each connection is
  still there, but for those of nodes with an inherited name.
-/
import N8n.DirectedGraph
import N8n.JsSet

namespace N8n

namespace ConnectionsDiff

open DirectedGraph (inheritedNames)

structure ConnectionEntry where
  sourceIndex : ℕ
  index : ℕ
  connection : IConnection
  deriving DecidableEq

abbrev INodeConnectionsDiff := Dict NodeConnectionType (List ConnectionEntry)

end ConnectionsDiff

structure ConnectionsDiff where
  added : Dict String ConnectionsDiff.INodeConnectionsDiff
  removed : Dict String ConnectionsDiff.INodeConnectionsDiff

namespace ConnectionsDiff

open DirectedGraph (inheritedNames)

def removedNames (diff : ConnectionsDiff) : List String := diff.removed.objectKeys

/-- The push, with the objects and the array made where they are missing.  `record[nodeName]` of an
inherited name is never missing, and the entry ends up in a property of the inherited value. -/
def push (record : Dict String INodeConnectionsDiff) (nodeName : String)
    (inputName : NodeConnectionType) (entry : ConnectionEntry) : Dict String INodeConnectionsDiff :=
  if nodeName ∈ inheritedNames then record
  else
    let byInput := (record.get? nodeName).getD Dict.empty
    record.set nodeName (byInput.set inputName ((byInput.get? inputName).getD [] ++ [entry]))

/-- The map from the connections to their last place.  Its keys are their JSON texts, which are the
same for the same connections. -/
def positions (connections : List IConnection) : Dict IConnection ℕ :=
  connections.zipIdx.foldl (fun map c => map.set c.1 c.2) Dict.empty

/-- The loop that files those of one map that are not in the other one. -/
def fileMissing (nodeName : String) (inputName : NodeConnectionType) (sourceIndex : ℕ)
    (these others : Dict IConnection ℕ) (record : Dict String INodeConnectionsDiff) :
    Dict String INodeConnectionsDiff :=
  these.entries.foldl (fun record e =>
    if others.has e.1 then record
    else push record nodeName inputName ⟨sourceIndex, e.2, e.1⟩) record

def slotAt (slots : NodeInputConnections) (sourceIndex : ℕ) : List IConnection :=
  (slots[sourceIndex]?).join.getD []

def compareSlot (nodeName : String) (inputName : NodeConnectionType)
    (prevInputConnections nextInputConnections : NodeInputConnections) (diff : ConnectionsDiff)
    (sourceIndex : ℕ) : ConnectionsDiff :=
  let prevMap := positions (slotAt prevInputConnections sourceIndex)
  let nextMap := positions (slotAt nextInputConnections sourceIndex)
  { added := fileMissing nodeName inputName sourceIndex nextMap prevMap diff.added
    removed := fileMissing nodeName inputName sourceIndex prevMap nextMap diff.removed }

def compareInput (nodeName : String) (prevNodeConnections nextNodeConnections : INodeConnections)
    (diff : ConnectionsDiff) (inputName : NodeConnectionType) : ConnectionsDiff :=
  let prevInputConnections := (prevNodeConnections.get? inputName).getD []
  let nextInputConnections := (nextNodeConnections.get? inputName).getD []
  (List.range (max prevInputConnections.length nextInputConnections.length)).foldl
    (compareSlot nodeName inputName prevInputConnections nextInputConnections) diff

def compareNode (prev next : IConnections) (diff : ConnectionsDiff) (nodeName : String) :
    ConnectionsDiff :=
  let prevNodeConnections := (prev.get? nodeName).getD Dict.empty
  let nextNodeConnections := (next.get? nodeName).getD Dict.empty
  (JsSet.ofList (prevNodeConnections.keys ++ nextNodeConnections.keys)).elems.foldl
    (compareInput nodeName prevNodeConnections nextNodeConnections) diff

def compareConnections (prev next : IConnections) : ConnectionsDiff :=
  (JsSet.ofList (prev.objectKeys ++ next.objectKeys)).elems.foldl (compareNode prev next)
    ⟨Dict.empty, Dict.empty⟩

variable {nodeName : String} {inputName : NodeConnectionType} {prev next : IConnections}

theorem keys_foldl_eq_nil {σ α : Type} (keys : σ → List String) {f : σ → α → σ} {P : α → Prop}
    (h : ∀ s a, keys (f s a) = [] ↔ keys s = [] ∧ P a) {as : List α} {s : σ} :
    keys (as.foldl f s) = [] ↔ keys s = [] ∧ ∀ a ∈ as, P a := by
  induction as generalizing s with
  | nil => simp
  | cons a as ih => rw [List.foldl_cons, ih, h, List.forall_mem_cons, and_assoc]

variable {record : Dict String INodeConnectionsDiff}

theorem keys_push_eq_nil {entry : ConnectionEntry} :
    (push record nodeName inputName entry).keys = [] ↔
      record.keys = [] ∧ nodeName ∈ inheritedNames := by
  rw [push]
  split
  · next h => exact (and_iff_left h).symm
  · next h =>
    refine iff_of_false (fun hnil => ?_) (fun hboth => h hboth.2)
    exact List.ne_nil_of_mem (Dict.mem_keys_set.mpr (.inl rfl)) hnil

variable {c : IConnection}

theorem mem_keys_positions {connections : List IConnection} :
    c ∈ (positions connections).keys ↔ c ∈ connections := by
  have key : ∀ (cs : List (IConnection × ℕ)) (map : Dict IConnection ℕ),
      c ∈ (cs.foldl (fun map c => map.set c.1 c.2) map).keys ↔
        c ∈ map.keys ∨ c ∈ cs.map Prod.fst := by
    intro cs
    induction cs with
    | nil => simp
    | cons e cs ih =>
      intro map
      rw [List.foldl_cons, ih, Dict.mem_keys_set, List.map_cons, List.mem_cons, or_assoc,
        or_left_comm]
  rw [positions, key, Dict.keys_empty, List.zipIdx_map_fst]
  simp

theorem keys_fileMissing_eq_nil {sourceIndex : ℕ} {these others : List IConnection} :
    (fileMissing nodeName inputName sourceIndex (positions these) (positions others) record).keys =
      [] ↔ record.keys = [] ∧ ∀ c ∈ these, nodeName ∉ inheritedNames → c ∈ others := by
  have hround : ∀ (record : Dict String INodeConnectionsDiff) (e : IConnection × ℕ),
      (if (positions others).has e.1 then record
        else push record nodeName inputName ⟨sourceIndex, e.2, e.1⟩).keys = [] ↔
      record.keys = [] ∧ (nodeName ∉ inheritedNames → e.1 ∈ others) := by
    intro record e
    split
    · next h =>
      rw [Dict.has_iff, mem_keys_positions] at h
      simp [h]
    · next h =>
      rw [Dict.has_iff, mem_keys_positions] at h
      rw [keys_push_eq_nil]
      simp [h]
  rw [fileMissing, keys_foldl_eq_nil Dict.keys hround]
  refine and_congr_right fun _ => ?_
  have hkeys : ∀ c, c ∈ these ↔ ∃ e ∈ (positions these).entries, e.1 = c := fun c => by
    rw [← mem_keys_positions, Dict.keys, List.mem_map]
  constructor
  · intro h c hc
    obtain ⟨e, he, rfl⟩ := (hkeys c).mp hc
    exact h e he
  · exact fun h e he => h e.1 ((hkeys e.1).mpr ⟨e, he, rfl⟩)

theorem mem_links_iff_slotAt {connections : IConnections} {l : Link} : l ∈ links connections ↔
    l.connection ∈ slotAt ((((connections.get? l.node).getD Dict.empty).get? l.type).getD [])
      l.index := by
  rw [mem_links, slotAt]
  constructor
  · rintro ⟨byType, slots, cs, hnode, htype, hslot, hmem⟩
    simpa [hnode, htype, hslot] using hmem
  · intro hmem
    rcases hnode : connections.get? l.node with _ | byType
    · simp [hnode] at hmem
    · rcases htype : byType.get? l.type with _ | slots
      · simp [hnode, htype] at hmem
      · rcases hslot : slots[l.index]? with _ | _ | cs
        · simp [hnode, htype, hslot] at hmem
        · simp [hnode, htype, hslot] at hmem
        · exact ⟨byType, slots, cs, rfl, htype, hslot, by simpa [hnode, htype, hslot] using hmem⟩

theorem lt_length_of_mem_slotAt {slots : NodeInputConnections} {i : ℕ}
    (h : c ∈ slotAt slots i) : i < slots.length := by
  by_contra hge
  rw [slotAt, List.getElem?_eq_none (not_lt.mp hge)] at h
  cases h

theorem removedNames_eq_nil {diff : ConnectionsDiff} :
    diff.removedNames = [] ↔ diff.removed.keys = [] := by
  rw [removedNames, List.eq_nil_iff_forall_not_mem, List.eq_nil_iff_forall_not_mem]
  simp only [Dict.mem_objectKeys]

theorem removedNames_compareSlot (nodeName : String) (inputName : NodeConnectionType)
    (prevSlots nextSlots : NodeInputConnections) (diff : ConnectionsDiff) (i : ℕ) :
    (compareSlot nodeName inputName prevSlots nextSlots diff i).removedNames = [] ↔
      diff.removedNames = [] ∧
        ∀ c ∈ slotAt prevSlots i, nodeName ∉ inheritedNames → c ∈ slotAt nextSlots i := by
  rw [removedNames_eq_nil, removedNames_eq_nil]
  exact keys_fileMissing_eq_nil

theorem removedNames_compareInput (nodeName : String) (prevNode nextNode : INodeConnections)
    (diff : ConnectionsDiff) (inputName : NodeConnectionType) :
    (compareInput nodeName prevNode nextNode diff inputName).removedNames = [] ↔
      diff.removedNames = [] ∧ ∀ i, ∀ c ∈ slotAt ((prevNode.get? inputName).getD []) i,
        nodeName ∉ inheritedNames → c ∈ slotAt ((nextNode.get? inputName).getD []) i := by
  rw [compareInput, keys_foldl_eq_nil removedNames (removedNames_compareSlot nodeName inputName
    ((prevNode.get? inputName).getD []) ((nextNode.get? inputName).getD []))]
  refine and_congr_right fun _ => ⟨fun h i c hc => h i ?_ c hc, fun h i _ => h i⟩
  exact List.mem_range.mpr ((lt_length_of_mem_slotAt hc).trans_le (Nat.le_max_left _ _))

theorem removedNames_compareNode (prev next : IConnections) (diff : ConnectionsDiff)
    (nodeName : String) :
    (compareNode prev next diff nodeName).removedNames = [] ↔ diff.removedNames = [] ∧
      ∀ l ∈ links prev, l.node = nodeName → nodeName ∉ inheritedNames → l ∈ links next := by
  rw [compareNode, keys_foldl_eq_nil removedNames (removedNames_compareInput nodeName
    ((prev.get? nodeName).getD Dict.empty) ((next.get? nodeName).getD Dict.empty))]
  refine and_congr_right fun _ => ⟨fun h l hl hnode hown => ?_, fun h type _ i c hc hown => ?_⟩
  · subst hnode
    rw [mem_links_iff_slotAt] at hl ⊢
    refine h l.type ?_ l.index l.connection hl hown
    refine JsSet.mem_ofList.mpr (List.mem_append_left _ ?_)
    by_contra hnot
    rw [Dict.get?_eq_none_iff.mpr hnot] at hl
    cases hl
  · exact mem_links_iff_slotAt.mp
      (h ⟨nodeName, type, i, c⟩ (mem_links_iff_slotAt.mpr hc) rfl hown)

/-- **No connection is listed as removed** iff each one is still there, but for those that are
hidden by the name of their node. -/
theorem removedNames_eq_nil_iff : (compareConnections prev next).removedNames = [] ↔
    ∀ l ∈ links prev, l.node ∉ inheritedNames → l ∈ links next := by
  rw [compareConnections, keys_foldl_eq_nil removedNames (removedNames_compareNode prev next),
    and_iff_right (removedNames_eq_nil.mpr Dict.keys_empty)]
  constructor
  · intro h l hl hown
    refine h l.node (JsSet.mem_ofList.mpr (List.mem_append_left _ ?_)) l hl rfl hown
    obtain ⟨byType, _, _, hnode, -⟩ := mem_links.mp hl
    exact Dict.mem_objectKeys.mpr (Dict.mem_keys_iff.mpr ⟨byType, hnode⟩)
  · intro h nodeName _ l hl hnode hown
    exact h l hl (hnode ▸ hown)

theorem compareConnections_self (connections : IConnections) :
    compareConnections connections connections = ⟨Dict.empty, Dict.empty⟩ := by
  have hfile : ∀ nodeName inputName i record (these : Dict IConnection ℕ),
      fileMissing nodeName inputName i these these record = record := by
    intro nodeName inputName i record these
    have hall : ∀ e ∈ these.entries, these.has e.1 = true := fun e he =>
      Dict.has_iff.mpr (List.mem_map.mpr ⟨e, he, rfl⟩)
    rw [fileMissing, List.foldl_ext _ (fun record _ => record) _ fun record e he => if_pos (hall e he)]
    exact List.foldl_fixed _
  have hslot : ∀ nodeName inputName slots (diff : ConnectionsDiff) i,
      compareSlot nodeName inputName slots slots diff i = diff := by
    intro nodeName inputName slots diff i
    rw [compareSlot, hfile, hfile]
  have hinput : ∀ nodeName byInput (diff : ConnectionsDiff) inputName,
      compareInput nodeName byInput byInput diff inputName = diff := fun _ _ diff _ =>
    List.foldl_fixed' (hslot _ _ _ diff) _
  have hnode : ∀ (diff : ConnectionsDiff) nodeName,
      compareNode connections connections diff nodeName = diff := fun diff _ =>
    List.foldl_fixed' (hinput _ _ diff) _
  exact List.foldl_fixed' (hnode _) _

end ConnectionsDiff

end N8n
