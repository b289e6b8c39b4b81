/-
The two connection maps of a workflow.

A workflow stores who a node feeds (`connectionsBySourceNode`), and derives
from it who feeds a node (`connectionsByDestinationNode`) with
`mapConnectionsByDestination`.  Both have the same nested shape; `links` lists
what such a map says, one `Link` for each connection, and `Link.flip` is the
same connection read from its other end.

* `links_mapConnectionsByDestination` — **the derived map is the inverse**: it
  lists the flipped links of the given map, each as often as the given map
  does.
-/
import N8n.Interfaces

namespace N8n

/-- One entry of a connection map: the node and type it is filed under, the
index in the array of that type, and the connection found there. -/
structure Link where
  node : String
  type : NodeConnectionType
  index : ℕ
  connection : IConnection
  deriving DecidableEq, Repr

/-- The same connection, filed under its other end. -/
def Link.flip (l : Link) : Link where
  node := l.connection.node
  type := l.connection.type
  index := l.connection.index
  connection := ⟨l.node, l.type, l.index⟩

@[simp] theorem Link.flip_flip (l : Link) : l.flip.flip = l := rfl

def linksOfArray (node : String) (type : NodeConnectionType) (slots : NodeInputConnections) :
    List Link :=
  slots.zipIdx.flatMap fun s => (s.1.getD []).map fun c => ⟨node, type, s.2, c⟩

def linksOfNode (node : String) (byType : INodeConnections) : List Link :=
  byType.entries.flatMap fun e => linksOfArray node e.1 e.2

variable (connections : IConnections)

/-- Every connection of a map, in the order in which the nested loops over
nodes, types, indexes and connections meet it. -/
def links : List Link :=
  connections.objectKeys.flatMap fun node =>
    linksOfNode node ((connections.get? node).getD Dict.empty)

/-- `returnConnection[node][type]` grown to `index + 1` entries, as the loop
from `maxIndex` to `index` pushes empty arrays. -/
def padTo (slots : NodeInputConnections) (index : ℕ) : NodeInputConnections :=
  slots ++ List.replicate (index + 1 - slots.length) (some [])

def pushAt (slots : NodeInputConnections) (index : ℕ) (c : IConnection) : NodeInputConnections :=
  slots.modify index (fun slot => slot.map (fun cs => cs ++ [c]))

/-- The body of the innermost loop of `mapConnectionsByDestination`. -/
def addLink (returnConnection : IConnections) (l : Link) : IConnections :=
  let byType := (returnConnection.get? l.connection.node).getD Dict.empty
  let slots := (byType.get? l.connection.type).getD []
  returnConnection.set l.connection.node
    (byType.set l.connection.type
      (pushAt (padTo slots l.connection.index) l.connection.index ⟨l.node, l.type, l.index⟩))

def mapConnectionsByDestination : IConnections :=
  (links connections).foldl addLink Dict.empty

variable {l : Link}

theorem mem_linksOfArray {node : String} {type : NodeConnectionType}
    {slots : NodeInputConnections} :
    l ∈ linksOfArray node type slots ↔ l.node = node ∧ l.type = type ∧
      ∃ cs, slots[l.index]? = some (some cs) ∧ l.connection ∈ cs := by
  simp only [linksOfArray, List.mem_flatMap, List.mem_map, Prod.exists, List.mk_mem_zipIdx_iff_getElem?]
  constructor
  · rintro ⟨slot, i, hi, c, hc, rfl⟩
    cases slot with
    | none => simp at hc
    | some cs => exact ⟨rfl, rfl, cs, hi, hc⟩
  · rintro ⟨rfl, rfl, cs, hi, hc⟩
    exact ⟨some cs, l.index, hi, l.connection, hc, rfl⟩

theorem mem_links {connections : IConnections} :
    l ∈ links connections ↔ ∃ byType slots cs,
      connections.get? l.node = some byType ∧ byType.get? l.type = some slots ∧
      slots[l.index]? = some (some cs) ∧ l.connection ∈ cs := by
  simp only [links, linksOfNode, List.mem_flatMap, Dict.mem_objectKeys, mem_linksOfArray,
    Prod.exists]
  constructor
  · rintro ⟨node, hnode, type, slots, hslots, rfl, rfl, cs, hi, hc⟩
    obtain ⟨byType, hb⟩ := Dict.mem_keys_iff.mp hnode
    rw [hb, Option.getD_some, Dict.mem_entries_iff] at hslots
    exact ⟨byType, slots, cs, hb, hslots, hi, hc⟩
  · rintro ⟨byType, slots, cs, hb, hslots, hi, hc⟩
    refine ⟨l.node, Dict.mem_keys_iff.mpr ⟨byType, hb⟩, l.type, slots, ?_, rfl, rfl, cs, hi, hc⟩
    rw [hb, Option.getD_some, Dict.mem_entries_iff]
    exact hslots

def NoNull : Prop :=
  ∀ node byType type slots, connections.get? node = some byType →
    byType.get? type = some slots → none ∉ slots

theorem noNull_empty : NoNull Dict.empty := by
  intro node byType type slots h
  simp at h

theorem none_not_mem_padTo {slots : NodeInputConnections} (h : none ∉ slots) (i : ℕ) :
    none ∉ padTo slots i := by
  rw [padTo, List.mem_append, not_or]
  exact ⟨h, fun hr => absurd (List.eq_of_mem_replicate hr) (by simp)⟩

theorem none_not_mem_pushAt {slots : NodeInputConnections} (h : none ∉ slots) (i : ℕ)
    (c : IConnection) : none ∉ pushAt slots i c := by
  rw [pushAt, List.mem_iff_getElem?]
  rintro ⟨j, hj⟩
  rw [List.getElem?_modify] at hj
  obtain ⟨slot, hs, hn⟩ := Option.map_eq_some_iff.mp hj
  have hslot : slot = none := by
    by_cases hij : i = j
    · simpa [hij] using hn
    · simpa [hij] using hn
  exact h (List.mem_iff_getElem?.mpr ⟨j, hslot ▸ hs⟩)

variable {r : IConnections}

theorem NoNull.slots (h : NoNull r) (node : String)
    (type : NodeConnectionType) :
    none ∉ (((r.get? node).getD Dict.empty).get? type).getD [] := by
  rcases hb : r.get? node with _ | byType
  · simp
  · rcases hs : byType.get? type with _ | slots
    · simp [hs]
    · rw [Option.getD_some, hs, Option.getD_some]
      exact h node byType type slots hb hs

theorem noNull_addLink (h : NoNull r) (l : Link) : NoNull (addLink r l) := by
  intro node byType type slots hb hs
  rw [addLink, Dict.get?_set] at hb
  by_cases hn : node = l.connection.node
  · rw [if_pos hn, Option.some_inj] at hb
    rw [← hb, Dict.get?_set] at hs
    by_cases ht : type = l.connection.type
    · rw [if_pos ht, Option.some_inj] at hs
      rw [← hs]
      exact none_not_mem_pushAt (none_not_mem_padTo (h.slots _ _) _) _ _
    · rw [if_neg ht] at hs
      have hnot := h.slots l.connection.node type
      rw [hs, Option.getD_some] at hnot
      exact hnot
  · rw [if_neg hn] at hb
    exact h node byType type slots hb hs

theorem linksOfArray_padTo (node : String) (type : NodeConnectionType)
    (slots : NodeInputConnections) (i : ℕ) :
    linksOfArray node type (padTo slots i) = linksOfArray node type slots := by
  have hpad : ∀ n k, ((List.replicate n (some ([] : List IConnection))).zipIdx k).flatMap
      (fun s => (s.1.getD []).map fun c => (⟨node, type, s.2, c⟩ : Link)) = [] := by
    intro n k
    rw [List.flatMap_eq_nil_iff]
    rintro ⟨slot, j⟩ hs
    have hslot := List.eq_of_mem_replicate (List.fst_mem_of_mem_zipIdx hs)
    rw [hslot]
    rfl
  rw [linksOfArray, padTo, List.zipIdx_append, List.flatMap_append, hpad, List.append_nil,
    linksOfArray]

theorem linksOfArray_pushAt (node : String) (type : NodeConnectionType)
    {slots : NodeInputConnections} {i : ℕ} (hi : i < slots.length) (hnull : none ∉ slots)
    (c : IConnection) :
    (linksOfArray node type (pushAt slots i c)).Perm
      (⟨node, type, i, c⟩ :: linksOfArray node type slots) := by
  have key : ∀ (slots : NodeInputConnections) (i k : ℕ), i < slots.length → none ∉ slots →
      ((((pushAt slots i c).zipIdx k).flatMap
          (fun s => (s.1.getD []).map fun c => (⟨node, type, s.2, c⟩ : Link))).Perm
        (⟨node, type, k + i, c⟩ :: (slots.zipIdx k).flatMap
          (fun s => (s.1.getD []).map fun c => (⟨node, type, s.2, c⟩ : Link)))) := by
    intro slots
    induction slots with
    | nil =>
      intro i k hi
      simp at hi
    | cons slot slots ih =>
      intro i k hi hnull
      rw [List.mem_cons, not_or] at hnull
      rcases i with _ | i
      · obtain ⟨cs, rfl⟩ := Option.ne_none_iff_exists'.mp (Ne.symm hnull.1)
        simp only [pushAt, List.modify_zero_cons, List.zipIdx_cons, List.flatMap_cons,
          Option.map_some, Option.getD_some, List.map_append, List.map_cons, List.map_nil,
          Nat.add_zero, List.append_assoc, List.singleton_append]
        exact List.perm_middle
      · have hrest := ih i (k + 1) (by simpa using hi) hnull.2
        rw [show k + 1 + i = k + (i + 1) by omega] at hrest
        simp only [pushAt, List.modify_succ_cons, List.zipIdx_cons, List.flatMap_cons] at hrest ⊢
        exact (hrest.append_left _).trans List.perm_middle
  have h := key slots i 0 hi hnull
  rw [Nat.zero_add] at h
  exact h

theorem links_perm_entries : (links connections).Perm
      (connections.entries.flatMap fun e => linksOfNode e.1 e.2) := by
  have h : connections.entries.flatMap (fun e => linksOfNode e.1 e.2)
      = connections.keys.flatMap
          (fun node => linksOfNode node ((connections.get? node).getD Dict.empty)) := by
    rw [Dict.keys, List.flatMap_map]
    refine List.flatMap_congr fun e he => ?_
    rw [Dict.mem_entries_iff.mp he, Option.getD_some]
  rw [h]
  exact (Dict.perm_objectKeys connections).flatMap_right _

/-- Step lemma: filing a link by its other end adds its flip and nothing else. -/
theorem links_addLink (h : NoNull r) (l : Link) :
    (links (addLink r l)).Perm (l.flip :: links r) := by
  set byType := (r.get? l.connection.node).getD Dict.empty with hbyType
  set slots := (byType.get? l.connection.type).getD [] with hslots
  have hlen : l.connection.index < (padTo slots l.connection.index).length := by
    rw [padTo, List.length_append, List.length_replicate]
    omega
  have harray := linksOfArray_pushAt l.connection.node l.connection.type hlen
    (none_not_mem_padTo (h.slots l.connection.node l.connection.type) l.connection.index)
    ⟨l.node, l.type, l.index⟩
  rw [linksOfArray_padTo] at harray
  -- one more link in the array of the type, hence in the node, hence in the map
  have hnode : (linksOfNode l.connection.node
      (byType.set l.connection.type (pushAt (padTo slots l.connection.index)
        l.connection.index ⟨l.node, l.type, l.index⟩))).Perm
      (l.flip :: linksOfNode l.connection.node byType) := by
    refine Dict.flatMap_set_perm_cons (linksOfArray l.connection.node) byType ?_
    refine harray.trans ?_
    rw [hslots]
    cases byType.get? l.connection.type <;> exact List.Perm.refl _
  refine (links_perm_entries _).trans ((?_ : List.Perm _ _).trans
    ((links_perm_entries r).symm.cons _))
  refine Dict.flatMap_set_perm_cons linksOfNode r (hnode.trans ?_)
  rw [hbyType]
  cases r.get? l.connection.node <;> exact List.Perm.refl _

/-- **`mapConnectionsByDestination` returns the inverse relation**: the links
of its result are the links of its argument, each filed under its other end. -/
theorem links_mapConnectionsByDestination : (links (mapConnectionsByDestination connections)).Perm
      ((links connections).map Link.flip) := by
  -- induction on the links still to be filed; the invariant is `NoNull`
  have key : ∀ (ls : List Link) (r : IConnections), NoNull r →
      (links (ls.foldl addLink r)).Perm (ls.map Link.flip ++ links r) := by
    intro ls
    induction ls with
    | nil => exact fun r _ => List.Perm.refl _
    | cons l ls ih =>
      intro r hr
      have hstep := ih (addLink r l) (noNull_addLink hr l)
      exact hstep.trans (((links_addLink hr l).append_left _).trans List.perm_middle)
  have h := key (links connections) Dict.empty noNull_empty
  have hempty : links (Dict.empty : IConnections) = [] := rfl
  rw [hempty, List.append_nil] at h
  exact h

theorem mem_links_mapConnectionsByDestination {connections : IConnections} :
    l ∈ links (mapConnectionsByDestination connections) ↔ l.flip ∈ links connections := by
  rw [(links_mapConnectionsByDestination connections).mem_iff, List.mem_map]
  constructor
  · rintro ⟨l', hl', rfl⟩
    exact hl'
  · intro h
    exact ⟨l.flip, h, rfl⟩

end N8n
