/-
The search for the nodes an input depends on.

`getHighestNode` goes up the main connections from one input of a node.  The names it has
checked are shared by all its calls, so which nodes it returns depends on the order of the
connections; whether it returns any does not.

* `exists_getHighestNode` — **it returns a node iff an enabled one feeds the input, directly or
  through other nodes than the one it started from**.
-/
import N8n.ExecutionLoop
import Mathlib.Data.List.Perm.Subperm

namespace N8n.Workflow
variable (w : Workflow)

def connectionsTo (nodeName : String) (input : Option ℕ) : List IConnection :=
  (((w.mainInputs nodeName).getD []).zipIdx.filter fun slot => input.all (· = slot.2)).flatMap
    fun slot => slot.1.getD []

/-- A node of the workflow feeds an input. -/
def Feeds (nodeName : String) (input : Option ℕ) (parent : String) : Prop :=
  w.getNode parent ≠ none ∧ ∃ connection ∈ w.connectionsTo nodeName input, connection.node = parent

def Enabled (nodeName : String) : Prop :=
  ∃ node, w.getNode nodeName = some node ∧ node.disabled ≠ some true

/-- `b` is upstream of `a`, and the way up does not lead through `N`. -/
def Upstream (N : String) : String → String → Prop :=
  Relation.ReflTransGen fun a b => w.Feeds a none b ∧ b ≠ N

/-- An enabled node feeds the input, directly or through others. -/
def EnabledUpstream (nodeName : String) (input : ℕ) : Prop :=
  ∃ parent name, w.Feeds nodeName (some input) parent ∧ parent ≠ nodeName ∧
    w.Upstream nodeName parent name ∧ w.Enabled name

def searchConnection (search : String → List String → Except JsError (List String × List String))
    (state : List String × List String) (connection : IConnection) :
    Except JsError (List String × List String) :=
  if connection.node ∈ state.2 then .ok state
  else match w.getNode connection.node with
    | none => .ok state
    | some parent => do
      let (addNodes, checkedNodes) ← search connection.node state.2
      let addNodes := if addNodes = [] ∧ parent.disabled ≠ some true then
        [connection.node] else addNodes
      return (state.1 ++ addNodes.filter (· ∉ state.1), checkedNodes)

theorem highestNodes_of_mainInputs {w : Workflow} {nodeName : String} {node : INode}
    {slots : NodeInputConnections} {checkedNodes : List String} (depth : ℕ) (input : Option ℕ)
    (hnode : w.getNode nodeName = some node) (hslots : w.mainInputs nodeName = some slots)
    (hnew : nodeName ∉ checkedNodes) :
    w.highestNodes (depth + 1) nodeName input checkedNodes =
      (w.connectionsTo nodeName input).foldlM
        (w.searchConnection fun name checked => w.highestNodes depth name none checked)
        ([], nodeName :: checkedNodes) := by
  rw [highestNodes, hnode, connectionsTo, hslots]
  simp only [if_neg hnew]
  rfl

/-- A search that found nothing has nothing to find at the node any more. -/
def Exhausted (checkedNodes : List String) (name : String) : Prop :=
  name ∈ checkedNodes ∨ ¬ w.Enabled name ∧ w.mainInputs name = none

/-- The names checked by a search; what it checked is disabled if nothing was found. -/
structure Searched (checked found checked' : List String) : Prop where
  nodup : checked'.Nodup
  keys : checked' ⊆ w.connectionsByDestinationNode.keys
  grows : checked ⊆ checked'
  closed : found = [] → ∀ a ∈ checked', a ∉ checked →
    ¬ w.Enabled a ∧ ∀ b, w.Feeds a none b → w.Exhausted checked' b

section

variable {w : Workflow} {N : String} {checked checked' : List String} {name : String}

theorem Exhausted.mono (h : w.Exhausted checked name) (hsub : checked ⊆ checked') :
    w.Exhausted checked' name := h.imp_left fun hmem => hsub hmem

variable {slots : NodeInputConnections}

theorem mem_keys_of_mainInputs
    (h : w.mainInputs name = some slots) : name ∈ w.connectionsByDestinationNode.keys := by
  by_contra hnot
  rw [mainInputs, Dict.get?_eq_none_iff.mpr hnot] at h
  cases h

/-- What a search finds at a node: enabled nodes upstream of it, or nothing for good. -/
structure SearchedNode (w : Workflow) (N name : String) (checked found checked' : List String) :
    Prop extends Searched w checked found checked' where
  sound : ∀ m ∈ found, w.Enabled m ∧ w.Upstream N name m
  exhausted : found = [] → w.Exhausted checked' name

/-- What the loop over some connections finds, from `names` on. -/
structure SearchedConnections (w : Workflow) (N : String) (connections : List IConnection)
    (names checked names' checked' : List String) : Prop
    extends Searched w checked names' checked' where
  kept : names ⊆ names'
  sound : ∀ m ∈ names', m ∈ names ∨ w.Enabled m ∧ ∃ connection ∈ connections,
    w.getNode connection.node ≠ none ∧ connection.node ≠ N ∧ w.Upstream N connection.node m
  exhausted : names' = [] → ∀ connection ∈ connections, w.getNode connection.node ≠ none →
    w.Exhausted checked' connection.node

/-- The node itself is added where nothing was found above it. -/
def withSelf (node : INode) (name : String) (addNodes : List String) : List String :=
  if addNodes = [] ∧ node.disabled ≠ some true then [name] else addNodes

variable {node : INode} {addNodes : List String}

theorem withSelf_eq_nil
    (h : withSelf node name addNodes = []) : addNodes = [] ∧ node.disabled = some true := by
  rw [withSelf] at h
  split at h
  · cases h
  · next hnot => exact ⟨h, not_not.mp fun hne => hnot ⟨h, hne⟩⟩

theorem mem_withSelf {m : String}
    (h : m ∈ withSelf node name addNodes) :
    m = name ∧ node.disabled ≠ some true ∨ m ∈ addNodes := by
  rw [withSelf] at h
  split at h
  · next hcond => exact .inl ⟨List.mem_singleton.mp h, hcond.2⟩
  · exact .inr h

theorem exists_searchConnections {depth : ℕ}
    (ih : ∀ {name : String} {node : INode} {checked : List String}, w.getNode name = some node →
      name ∉ checked → N ∈ checked → checked.Nodup →
      checked ⊆ w.connectionsByDestinationNode.keys →
      w.connectionsByDestinationNode.keys.length + 2 ≤ depth + checked.length →
      ∃ addNodes checked', w.highestNodes depth name none checked = .ok (addNodes, checked') ∧
        SearchedNode w N name checked (withSelf node name addNodes) checked')
    (connections : List IConnection) :
    ∀ (names : List String) {checked : List String}, N ∈ checked → checked.Nodup →
      checked ⊆ w.connectionsByDestinationNode.keys →
      w.connectionsByDestinationNode.keys.length + 2 ≤ depth + checked.length →
      ∃ names' checked', connections.foldlM
          (w.searchConnection fun name checked => w.highestNodes depth name none checked)
          (names, checked) = .ok (names', checked') ∧
        SearchedConnections w N connections names checked names' checked' := by
  induction connections with
  | nil =>
    intro names checked _ hnodup hkeys _
    exact ⟨names, checked, rfl, ⟨hnodup, hkeys, fun _ h => h, fun _ a ha hnot => absurd ha hnot⟩,
      fun _ h => h, fun _ hm => .inl hm, fun _ _ h => by cases h⟩
  | cons connection connections ihrest =>
    intro names checked hN hnodup hkeys hroom
    rw [List.foldlM_cons, searchConnection]
    by_cases hmem : connection.node ∈ checked
    · -- checked before
      obtain ⟨names', checked', hrest, h⟩ := ihrest names hN hnodup hkeys hroom
      rw [if_pos hmem]
      refine ⟨names', checked', hrest, h.toSearched, h.kept, fun m hm => ?_,
        fun hnil c hc hex => ?_⟩
      · exact (h.sound m hm).imp_right fun ⟨hen, c, hc, hup⟩ =>
          ⟨hen, c, List.mem_cons_of_mem _ hc, hup⟩
      · rcases List.mem_cons.mp hc with rfl | hc
        · exact .inl (h.grows hmem)
        · exact h.exhausted hnil c hc hex
    · rw [if_neg hmem]
      rcases hnode : w.getNode connection.node with _ | node
      · -- not a node of the workflow
        obtain ⟨names', checked', hrest, h⟩ := ihrest names hN hnodup hkeys hroom
        refine ⟨names', checked', hrest, h.toSearched, h.kept, fun m hm => ?_,
          fun hnil c hc hex => ?_⟩
        · exact (h.sound m hm).imp_right fun ⟨hen, c, hc, hup⟩ =>
            ⟨hen, c, List.mem_cons_of_mem _ hc, hup⟩
        · rcases List.mem_cons.mp hc with rfl | hc
          · exact absurd hnode hex
          · exact h.exhausted hnil c hc hex
      · obtain ⟨addNodes, mid, hsearch, hmid⟩ := ih hnode hmem hN hnodup hkeys hroom
        set found := withSelf node connection.node addNodes with hfound
        have hlen := (List.subperm_of_subset hnodup hmid.grows).length_le
        obtain ⟨names', checked', hrest, h⟩ := ihrest
          (names ++ found.filter (· ∉ names)) (hmid.grows hN) hmid.nodup hmid.keys
          (by omega)
        -- nothing is found in the end only if nothing was found here
        have hnil' : names' = [] → found = [] := by
          intro hnil
          have hempty := List.eq_nil_of_subset_nil (hnil ▸ h.kept)
          obtain ⟨hnames, hfilter⟩ := List.append_eq_nil_iff.mp hempty
          rw [hnames] at hfilter
          simpa using hfilter
        refine ⟨names', checked', ?_, ⟨h.nodup, h.keys, fun a ha => h.grows (hmid.grows ha),
          fun hnil a ha hnot => ?_⟩, fun m hm => h.kept (List.mem_append_left _ hm), fun m hm => ?_,
          fun hnil c hc hex => ?_⟩
        · simp only [hsearch]
          exact hrest
        · by_cases hamid : a ∈ mid
          · obtain ⟨hdis, hfed⟩ := hmid.closed (hnil' hnil) a hamid hnot
            exact ⟨hdis, fun b hb => (hfed b hb).mono h.grows⟩
          · exact h.closed hnil a ha hamid
        · rcases h.sound m hm with hm | ⟨hen, c, hc, hup⟩
          · rcases List.mem_append.mp hm with hm | hm
            · exact .inl hm
            · obtain ⟨hen, hup⟩ := hmid.sound m (List.mem_filter.mp hm).1
              refine .inr ⟨hen, connection, List.mem_cons_self, ?_, fun heq => hmem (heq ▸ hN), hup⟩
              rw [hnode]
              exact Option.some_ne_none node
          · exact .inr ⟨hen, c, List.mem_cons_of_mem _ hc, hup⟩
        · rcases List.mem_cons.mp hc with rfl | hc
          · exact (hmid.exhausted (hnil' hnil)).mono h.grows
          · exact h.exhausted hnil c hc hex

theorem not_enabled (hnode : w.getNode name = some node)
    (hdisabled : node.disabled = some true) : ¬ w.Enabled name := by
  rintro ⟨node', hnode', hne⟩
  rw [hnode] at hnode'
  exact hne (Option.some_inj.mp hnode' ▸ hdisabled)

theorem exists_highestNodes (depth : ℕ) :
    ∀ {name : String} {node : INode} {checked : List String}, w.getNode name = some node →
      name ∉ checked → N ∈ checked → checked.Nodup →
      checked ⊆ w.connectionsByDestinationNode.keys →
      w.connectionsByDestinationNode.keys.length + 2 ≤ depth + checked.length →
      ∃ addNodes checked', w.highestNodes depth name none checked = .ok (addNodes, checked') ∧
        SearchedNode w N name checked (withSelf node name addNodes) checked' := by
  induction depth with
  | zero =>
    intro name node checked _ _ _ hnodup hkeys hroom
    have hlen := (List.subperm_of_subset hnodup hkeys).length_le
    omega
  | succ depth ih =>
    intro name node checked hnode hnew hN hnodup hkeys hroom
    rcases hslots : w.mainInputs name with _ | slots
    · -- nothing above the node
      refine ⟨if node.disabled = some false then [name] else [], checked, ?_,
        ⟨hnodup, hkeys, fun _ h => h, fun _ a ha hnot => absurd ha hnot⟩, fun m hm => ?_,
        fun hnil => .inr ⟨not_enabled hnode (withSelf_eq_nil hnil).2, hslots⟩⟩
      · rw [highestNodes, hnode, hslots]
      · have hself : m = name ∧ node.disabled ≠ some true := by
          rcases mem_withSelf hm with hself | hm
          · exact hself
          · split at hm
            · next hdisabled =>
              exact ⟨List.mem_singleton.mp hm, by rw [hdisabled]; exact fun h => by cases h⟩
            · cases hm
        rw [hself.1]
        exact ⟨⟨node, hnode, hself.2⟩, .refl⟩
    · obtain ⟨names', checked', hloop, h⟩ := exists_searchConnections ih
        (w.connectionsTo name none) [] (List.mem_cons_of_mem name hN)
        (List.nodup_cons.mpr ⟨hnew, hnodup⟩)
        (List.cons_subset.mpr ⟨mem_keys_of_mainInputs hslots, hkeys⟩) (by
          rw [List.length_cons]
          omega)
      have hname : name ∈ checked' := h.grows List.mem_cons_self
      refine ⟨names', checked', ?_, ⟨h.nodup, h.keys,
        fun a ha => h.grows (List.mem_cons_of_mem _ ha), fun hnil a ha hnot => ?_⟩, fun m hm => ?_,
        fun _ => .inl hname⟩
      · rw [highestNodes_of_mainInputs depth none hnode hslots hnew]
        exact hloop
      · obtain ⟨hnil, hdisabled⟩ := withSelf_eq_nil hnil
        by_cases hself : a = name
        · rw [hself]
          refine ⟨not_enabled hnode hdisabled, ?_⟩
          rintro b ⟨hex, connection, hconnection, rfl⟩
          exact h.exhausted hnil connection hconnection hex
        · exact h.closed hnil a ha fun hin => (List.mem_cons.mp hin).elim hself hnot
      · rcases mem_withSelf hm with ⟨rfl, hne⟩ | hm
        · exact ⟨⟨node, hnode, hne⟩, .refl⟩
        · obtain ⟨hen, connection, hconnection, hex, hne, hup⟩ :=
            (h.sound m hm).resolve_left List.not_mem_nil
          exact ⟨hen, .head ⟨⟨hex, connection, hconnection, rfl⟩, hne⟩ hup⟩

/-- **What `getHighestNode` says of an input.** -/
theorem exists_getHighestNode {nodeName : String}
    (hnode : w.getNode nodeName = some node) (hslots : w.mainInputs nodeName = some slots)
    (input : ℕ) :
    ∃ names, w.getHighestNode nodeName (some input) = .ok names ∧
      (names ≠ [] ↔ w.EnabledUpstream nodeName input) := by
  obtain ⟨names, checked, hloop, h⟩ := exists_searchConnections (N := nodeName)
    (exists_highestNodes (w.connectionsByDestinationNode.keys.length + 1))
    (w.connectionsTo nodeName (some input)) [] (List.mem_singleton_self nodeName)
    (List.nodup_singleton nodeName)
    (List.cons_subset.mpr ⟨mem_keys_of_mainInputs hslots, List.nil_subset _⟩) (by simp)
  refine ⟨names, ?_, ?_, ?_⟩
  · rw [getHighestNode, highestNodes_of_mainInputs _ _ hnode hslots List.not_mem_nil, hloop]
    rfl
  · intro hne
    obtain ⟨m, hm⟩ := List.exists_mem_of_ne_nil names hne
    obtain ⟨hen, connection, hconnection, hex, hother, hup⟩ :=
      (h.sound m hm).resolve_left List.not_mem_nil
    exact ⟨connection.node, m, ⟨hex, connection, hconnection, rfl⟩, hother, hup, hen⟩
  · rintro ⟨parent, name, ⟨hex, connection, hconnection, rfl⟩, hother, hup, hen⟩ hnil
    -- all that is upstream was checked, or is a disabled node without inputs
    have hclosed : ∀ m, w.Upstream nodeName connection.node m →
        m ≠ nodeName ∧ w.Exhausted checked m := by
      intro m hm
      induction hm with
      | refl => exact ⟨hother, h.exhausted hnil connection hconnection hex⟩
      | @tail a b _ hstep iha =>
        obtain ⟨hfeeds, hne⟩ := hstep
        refine ⟨hne, ?_⟩
        rcases iha.2 with hmem | ⟨-, hleaf⟩
        · exact (h.closed hnil a hmem fun hin => iha.1 (List.mem_singleton.mp hin)).2 b hfeeds
        · obtain ⟨-, c, hc, -⟩ := hfeeds
          rw [connectionsTo, hleaf] at hc
          cases hc
    obtain ⟨hne, hmem | ⟨hdisabled, -⟩⟩ := hclosed name hup
    · exact (h.closed hnil name hmem fun hin => hne (List.mem_singleton.mp hin)).1 hen
    · exact hdisabled hen

end

end N8n.Workflow
