/-
`getConnectedNodes` in full: any connection map, any choice of types, any depth.

The search of `ConnectedNodes` is that for one type in a map that is a dictionary.  Here the
types to follow are read off the map, the depth is counted down, and the method
`hasOwnProperty` is called on the map, where a node of that name hides it.

* `connectedWell_iff` — **the other nodes that can be reached are returned, each once, and
  in reverse topological order if there are no cycles**, if and only if no connection of the
  start leads to where an earlier one leads: the code puts a direct neighbour into the list
  without the check that it makes for the others.
-/
import N8n.ConnectedNodes
import N8n.Runs

namespace N8n.GetConnectedNodes

/-- The parameter `connectionType`. -/
inductive ConnectionType where
  | type (type : NodeConnectionType)
  | ALL
  | ALL_NON_MAIN
  deriving DecidableEq

/-- The types to follow from a node. -/
def ConnectionType.types (connectionType : ConnectionType) (byType : INodeConnections) :
    List NodeConnectionType :=
  match connectionType with
  | type t => [t]
  | ALL => byType.keys
  | ALL_NON_MAIN => byType.keys.filter (· ≠ .main)

/-- The body of the innermost loop: a neighbour, and what the search finds from there. -/
def searchConnection (checkedNodes : List String)
    (search : String → Except (Stopped JsError) (List String)) (returnNodes : List String)
    (connection : IConnection) : Except (Stopped JsError) (List String) :=
  if connection.node ∈ checkedNodes then .ok returnNodes
  else do
    let addNodes ← search connection.node
    return moveToFront addNodes (connection.node :: returnNodes)

def searchType (byType : INodeConnections) (nodeName : String) (checkedNodesIncoming : List String)
    (search : List String → String → Except (Stopped JsError) (List String))
    (returnNodes : List String) (type : NodeConnectionType) :
    Except (Stopped JsError) (List String) :=
  match byType.get? type with
  | none => .ok returnNodes
  | some slots =>
    if nodeName ∈ checkedNodesIncoming then .ok returnNodes
    else
      let checkedNodes := nodeName :: checkedNodesIncoming
      (slots.flatMap (·.getD [])).foldlM (searchConnection checkedNodes (search checkedNodes))
        returnNodes

/-- `getConnectedNodes`, with its calls at most so many deep.  `depth` is `none` for `-1`; the
order in `checkedNodes` is of no account. -/
def connectedNodes (connections : IConnections) (connectionType : ConnectionType) :
    ℕ → Option ℕ → String → List String → Except (Stopped JsError) (List String)
  | 0, _, _, _ => .error .unfinished
  | calls + 1, depth, nodeName, checkedNodesIncoming =>
    if depth = some 0 then .ok []
    else if connections.has "hasOwnProperty" then .error (.threw .typeError)
    else match connections.get? nodeName with
      | none => .ok []
      | some byType =>
        (connectionType.types byType).foldlM
          (searchType byType nodeName checkedNodesIncoming fun checkedNodes name =>
            connectedNodes connections connectionType calls (depth.map (· - 1)) name checkedNodes)
          []

/-- Each level of calls checks one more key of the map, which bounds their depth. -/
def getConnectedNodes (connections : IConnections) (nodeName : String)
    (connectionType : ConnectionType) (depth : Option ℕ) :
    Except (Stopped JsError) (List String) :=
  connectedNodes connections connectionType (connections.keys.length + 1) depth nodeName []

/-- The connections that the inner loops meet for a type. -/
def connectionsIn (byType : INodeConnections) (type : NodeConnectionType) : List IConnection :=
  ((byType.get? type).getD []).flatMap (·.getD [])

/-- The nodes that the connections of a node lead to, in the order in which they are met. -/
def neighbours (connections : IConnections) (connectionType : ConnectionType) (a : String) :
    List String :=
  match connections.get? a with
  | none => []
  | some byType => ((connectionType.types byType).flatMap (connectionsIn byType)).map (·.node)

variable {a : String}

theorem mem_keys_of_neighbours {connections : IConnections} {connectionType : ConnectionType} (h : neighbours connections connectionType a ≠ []) : a ∈ connections.keys := by
  rw [neighbours] at h
  rcases hget : connections.get? a with _ | byType
  · rw [hget] at h
    exact absurd rfl h
  · exact Dict.mem_keys_iff.mpr ⟨byType, hget⟩

variable {connections : IConnections} {connectionType : ConnectionType}

theorem searchType_eq (byType : INodeConnections) (type : NodeConnectionType)
    {path : List String} (search : List String → String → Except (Stopped JsError) (List String))
    {found : String → List String} (ha : a ∉ path)
    (h : ∀ c ∈ connectionsIn byType type, c.node ∉ a :: path →
      search (a :: path) c.node = .ok (found c.node)) (returnNodes : List String) :
    searchType byType a path search returnNodes type =
      .ok ((connectionsIn byType type).foldl (fun returnNodes c =>
        if c.node ∈ a :: path then returnNodes
        else moveToFront (found c.node) (c.node :: returnNodes)) returnNodes) := by
  rw [searchType]
  rw [connectionsIn] at h ⊢
  rcases hget : byType.get? type with _ | slots
  · rfl
  · rw [hget, Option.getD_some] at h
    simp only [if_neg ha]
    refine foldlM_eq_ok (I := fun _ => True) (fun returnNodes _ c hc => ⟨?_, trivial⟩) trivial
    rw [searchConnection]
    split
    · rfl
    · next hnew =>
      rw [h c hc hnew]
      rfl

/-- **The calls end, and are a search that avoids its path.** -/
theorem connectedNodes_eq (hkey : "hasOwnProperty" ∉ connections.keys) (calls : ℕ) :
    ∀ {a : String} {path : List String}, a ∉ path →
      (connections.keys.filter (· ∉ path)).length < calls →
      connectedNodes connections connectionType calls none a path =
        .ok (PathSearch.collect (neighbours connections connectionType) calls path a) := by
  induction calls with
  | zero => exact fun _ h => absurd h (Nat.not_lt_zero _)
  | succ calls ih =>
    intro a path ha hlen
    rw [connectedNodes, if_neg (by simp), if_neg fun h => hkey (Dict.has_iff.mp h),
      PathSearch.collect, if_neg ha, neighbours]
    rcases hget : connections.get? a with _ | byType
    · rfl
    · have hless := PathSearch.length_filter_lt (Dict.mem_keys_iff.mpr ⟨byType, hget⟩) ha
      have htype := fun type returnNodes => searchType_eq byType type
        (fun path name => connectedNodes connections connectionType calls
          ((none : Option ℕ).map (· - 1)) name path)
        ha (fun c _ hnew => ih hnew (by omega)) returnNodes
      simp only [List.foldl_map, List.foldl_flatMap]
      exact foldlM_eq_ok (I := fun _ => True) (fun returnNodes _ type _ =>
        ⟨htype type returnNodes, trivial⟩) trivial

def LeadsTo (connections : IConnections) (connectionType : ConnectionType) (a b : String) : Prop :=
  b ∈ neighbours connections connectionType a

structure ConnectedWell (connections : IConnections) (nodeName : String)
    (connectionType : ConnectionType) (result : List String) : Prop where
  nodes : ∀ m, m ∈ result ↔ m ≠ nodeName ∧
    Relation.TransGen (LeadsTo connections connectionType) nodeName m
  once : result.Nodup
  order : (∀ a, ¬ Relation.TransGen (LeadsTo connections connectionType) a a) →
    ∀ a ∈ result, ∀ b ∈ result, Relation.TransGen (LeadsTo connections connectionType) a b →
      [b, a].Sublist result

/-- There is a way from one node to the other that does not come to the start. -/
def LeadsAround (connections : IConnections) (connectionType : ConnectionType)
    (nodeName : String) : String → String → Prop :=
  Relation.ReflTransGen fun a b => LeadsTo connections connectionType a b ∧ b ≠ nodeName

theorem around_nil : PathSearch.Around (neighbours connections connectionType) [] =
    LeadsTo connections connectionType := by
  funext a b
  rw [PathSearch.Around, eq_iff_iff]
  exact and_iff_left List.not_mem_nil

theorem leadsAround_eq (nodeName : String) : LeadsAround connections connectionType nodeName =
    Relation.ReflTransGen
      (PathSearch.Around (neighbours connections connectionType) [nodeName]) := by
  have hstep : (fun a b => LeadsTo connections connectionType a b ∧ b ≠ nodeName) =
      PathSearch.Around (neighbours connections connectionType) [nodeName] := by
    funext a b
    rw [PathSearch.Around, List.mem_singleton]
    rfl
  rw [LeadsAround, hstep]

/-- **When the list is right**, for every map, start and choice of types. -/
theorem connectedWell_iff (connections : IConnections) (nodeName : String)
    (connectionType : ConnectionType) :
    (∃ result, getConnectedNodes connections nodeName connectionType none = .ok result ∧
        ConnectedWell connections nodeName connectionType result) ↔
      "hasOwnProperty" ∉ connections.keys ∧
        ((neighbours connections connectionType nodeName).filter (· ≠ nodeName)).Pairwise
          fun b c => ¬ LeadsAround connections connectionType nodeName b c := by
  have hkeys : ∀ a, neighbours connections connectionType a ≠ [] → a ∈ connections.keys :=
    fun _ => mem_keys_of_neighbours
  have hlen : (connections.keys.filter (· ∉ ([] : List String))).length ≤
      connections.keys.length := List.length_filter_le _ _
  by_cases hkey : "hasOwnProperty" ∈ connections.keys
  · refine iff_of_false ?_ fun h => h.1 hkey
    rintro ⟨result, hresult, -⟩
    rw [getConnectedNodes, connectedNodes, if_neg (by simp), if_pos (Dict.has_iff.mpr hkey)]
      at hresult
    cases hresult
  · have hrun : getConnectedNodes connections nodeName connectionType none =
        .ok (PathSearch.collect (neighbours connections connectionType)
          (connections.keys.length + 1) [] nodeName) :=
      connectedNodes_eq hkey _ List.not_mem_nil (Nat.lt_succ_of_le hlen)
    have hnodup := PathSearch.nodup_collect hkeys (a := nodeName) List.not_mem_nil
      (Nat.le_succ_of_le hlen)
    have hfilter : (neighbours connections connectionType nodeName).filter (· ∉ [nodeName]) =
        (neighbours connections connectionType nodeName).filter (· ≠ nodeName) :=
      List.filter_congr fun b _ => by simp
    rw [hfilter, ← leadsAround_eq] at hnodup
    rw [hrun, and_iff_right hkey, ← hnodup]
    constructor
    · rintro ⟨result, hresult, h⟩
      cases hresult
      exact h.once
    · intro honce
      refine ⟨_, rfl, fun m => ?_, honce, fun hacyclic a ha b hb hab => ?_⟩
      · rw [PathSearch.mem_collect hkeys List.not_mem_nil (Nat.le_succ_of_le hlen), around_nil]
        refine and_congr_right fun hne => ?_
        rw [Relation.reflTransGen_iff_eq_or_transGen, or_iff_right hne]
      · exact (PathSearch.ordered_collect hkeys hacyclic (fun _ hp => by cases hp)
          (Nat.le_succ_of_le hlen) a ha b hab).sublist ha

def doubleEdge : IConnections :=
  Dict.empty.set "Trigger"
    (Dict.empty.set .main [some [⟨"Merge", .main, 0⟩, ⟨"Merge", .main, 1⟩]])

theorem not_connectedWell_doubleEdge :
    ¬ ∃ result, getConnectedNodes doubleEdge "Trigger" (.type .main) none = .ok result ∧
      ConnectedWell doubleEdge "Trigger" (.type .main) result := by
  rintro ⟨result, hresult, h⟩
  have hrun : getConnectedNodes doubleEdge "Trigger" (.type .main) none =
      .ok ["Merge", "Merge"] := by
    decide +kernel
  rw [hrun] at hresult
  cases hresult
  exact absurd h.once (by decide)

end N8n.GetConnectedNodes
