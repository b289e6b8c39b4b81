/-
The ancestors and descendants of a node: `getConnectedNodes`.

The source walks a connection map depth first and keeps the nodes of the
current path in `checkedNodes`, so that it stops at a cycle.  Every call adds a
key of the map to the path, which bounds the depth of the recursion by the
number of keys; `getConnectedNodes` counts that depth down.
-/
import N8n.Connections
import N8n.PathSearch

namespace N8n

def connectionsOf (connections : IConnections) (type : NodeConnectionType) (nodeName : String) :
    List IConnection :=
  match (connections.get? nodeName).bind (·.get? type) with
  | some slots => slots.flatMap (·.getD [])
  | none => []

/-- The inner loop over `addNodes`: each of them, last first, is moved to the
front of `returnNodes`. -/
def moveToFront (addNodes returnNodes : List String) : List String :=
  addNodes.foldr (fun parentNodeName found => parentNodeName :: found.erase parentNodeName)
    returnNodes

/-- `getConnectedNodes` with the depth of the recursion bounded. -/
def connectedNodesWithin (connections : IConnections) (type : NodeConnectionType) :
    ℕ → String → List String → List String
  | 0, _, _ => []
  | depth + 1, nodeName, checkedNodes =>
    if nodeName ∈ checkedNodes then []
    else (connectionsOf connections type nodeName).foldl (fun returnNodes connection =>
      if connection.node ∈ nodeName :: checkedNodes then returnNodes
      else moveToFront
        (connectedNodesWithin connections type depth connection.node (nodeName :: checkedNodes))
        (connection.node :: returnNodes)) []

/-- `getConnectedNodes` for one connection type and without a depth limit. -/
def getConnectedNodes (connections : IConnections) (nodeName : String)
    (type : NodeConnectionType) : List String :=
  connectedNodesWithin connections type (connections.keys.length + 1) nodeName []

/-- A connection of the type leads from one node to the other. -/
def Feeds (connections : IConnections) (type : NodeConnectionType) (a b : String) : Prop :=
  ∃ c ∈ connectionsOf connections type a, c.node = b

theorem mem_keys_of_feeds {connections : IConnections} {type : NodeConnectionType}
    {a b : String} (h : Feeds connections type a b) : a ∈ connections.keys := by
  obtain ⟨c, hc, -⟩ := h
  rcases hget : connections.get? a with _ | byType
  · simp [connectionsOf, hget] at hc
  · exact Dict.mem_keys_iff.mpr ⟨byType, hget⟩

end N8n
