/-
The nodes around a node, by their distance: `searchNodesBFS`.

The search goes level by level.  Each connection of a node that is met for the first time
puts an entry on the queue of the next level, and an entry for a node that was met before only
adds its index to the object that was made then, and that may be in the result already.

* `breadthFirst_iff` — **the search ends and returns the nodes within the depth, in the order
  of their distances, with the indexes of the connections from the nodes before the last
  level**, if and only if none of them, the source included, has a name that every object
  inherits, and no node with connections is named `hasOwnProperty`.
-/
import N8n.ConnectedNodes
import N8n.DirectedGraph
import N8n.Distance
import N8n.JsSet

namespace N8n

open DirectedGraph (inheritedNames)

namespace SearchNodesBFS

structure IConnectedNode where
  name : String
  indicies : List ℕ
  depth : ℕ
  deriving DecidableEq, Repr

/-- `returnConns` holds objects that are also in `visited`, here their names. -/
structure State where
  visited : Dict String IConnectedNode := Dict.empty
  returnConns : List String := []
  queue : List IConnectedNode := []

def dedupe (arr : List ℕ) : List ℕ := (JsSet.ofList arr).elems

/-- The body of `toAdd.forEach`.  The value that `visited` inherits under a name like
`toString` is no entry, so that it has no `indicies` to extend. -/
def visit (connections : IConnections) (sourceNode : String) (depth : ℕ) (s : State)
    (curr : IConnectedNode) : Except (Stopped JsError) State :=
  match s.visited.get? curr.name with
  | some node => .ok { s with
      visited := s.visited.set curr.name
        { node with indicies := dedupe (node.indicies ++ curr.indicies) } }
  | none =>
    if curr.name ∈ inheritedNames then .error (.threw .typeError)
    else if connections.has "hasOwnProperty" then .error (.threw .typeError)
    else .ok {
      visited := s.visited.set curr.name curr
      returnConns := if curr.name ≠ sourceNode then s.returnConns ++ [curr.name]
        else s.returnConns
      queue := s.queue ++ (connectionsOf connections .main curr.name).map fun connection =>
        ⟨connection.node, [connection.index], depth⟩ }

/-- The loop over the levels, at most so many; `none` is the `maxDepth` of `-1`. -/
def searchRounds (connections : IConnections) (sourceNode : String) (maxDepth : Option ℕ) :
    ℕ → ℕ → State → Except (Stopped JsError) State
  | 0, _, _ => .error .unfinished
  | rounds + 1, depth, s =>
    if s.queue = [] then .ok s
    else if maxDepth.any (· < depth) then .ok s
    else do
      let s' ← s.queue.foldlM (visit connections sourceNode (depth + 1)) { s with queue := [] }
      searchRounds connections sourceNode maxDepth rounds (depth + 1) s'

/-- Each level with a successor meets a new key of the map, which bounds their number. -/
def searchNodesBFS (connections : IConnections) (sourceNode : String) (maxDepth : Option ℕ) :
    Except (Stopped JsError) (List IConnectedNode) := do
  let s ← searchRounds connections sourceNode maxDepth (connections.keys.length + 2) 0
    { queue := [⟨sourceNode, [], 0⟩] }
  return s.returnConns.filterMap s.visited.get?

section

variable (connections : IConnections) (sourceNode : String)

def MainEdge (a b : String) : Prop := ∃ c ∈ connectionsOf connections .main a, c.node = b

/-- The number of main connections from the source to a node. -/
def DistanceIs (k : ℕ) (a : String) : Prop := AtDistance (MainEdge connections) sourceNode k a

/-- The entries of a level: the source, or the connections of the nodes one nearer. -/
inductive Entry : ℕ → IConnectedNode → Prop
  | source : Entry 0 ⟨sourceNode, [], 0⟩
  | connection {k a c} : DistanceIs connections sourceNode k a →
      c ∈ connectionsOf connections .main a → Entry (k + 1) ⟨c.node, [c.index], k + 1⟩

/-- The search gets as far as the node. -/
def Near (maxDepth : Option ℕ) (a : String) : Prop :=
  ∃ k, DistanceIs connections sourceNode k a ∧ ∀ m, maxDepth = some m → k ≤ m

/-- What `searchNodesBFS` should return. -/
structure BreadthFirst (maxDepth : Option ℕ) (result : List IConnectedNode) : Prop where
  nodes : ∀ v, v ∈ result.map (·.name) ↔ v ≠ sourceNode ∧ Near connections sourceNode maxDepth v
  once : (result.map (·.name)).Nodup
  sorted : result.Pairwise fun n m => n.depth ≤ m.depth
  depth : ∀ n ∈ result, DistanceIs connections sourceNode n.depth n.name
  indicies : ∀ n ∈ result, n.indicies.Nodup ∧ ∀ i, i ∈ n.indicies ↔
    ∃ a k, DistanceIs connections sourceNode k a ∧ (∀ m, maxDepth = some m → k < m) ∧
      ∃ c ∈ connectionsOf connections .main a, c.node = n.name ∧ c.index = i

end

variable {connections : IConnections} {sourceNode : String}

section

variable {k : ℕ} {e : IConnectedNode} (h : Entry connections sourceNode k e)
include h

theorem Entry.walk :
    Walk (MainEdge connections) sourceNode k e.name := by
  cases h with
  | source => exact .start
  | @connection k a c ha hc => exact ha.1.step ⟨c, hc, rfl⟩

theorem Entry.depth_eq :
    e.depth = k := by
  cases h <;> rfl

theorem Entry.nodup :
    e.indicies.Nodup := by
  cases h
  · exact List.nodup_nil
  · exact List.nodup_singleton _

end

variable {k : ℕ}

theorem exists_entry {a : String} (h : DistanceIs connections sourceNode k a) :
    ∃ e, Entry connections sourceNode k e ∧ e.name = a := by
  rcases k with _ | k
  · exact ⟨_, .source, (atDistance_zero_iff.mp h).symm⟩
  · obtain ⟨b, hb, c, hc, rfl⟩ := h.exists_prev
    exact ⟨_, .connection hb hc, rfl⟩

/-- A visited node, after the entries of which `P` holds, in the level `k`. -/
structure Visited (connections : IConnections) (sourceNode : String) (P : IConnectedNode → Prop)
    (k : ℕ) (v : String) (node : IConnectedNode) : Prop where
  name : node.name = v
  distance : DistanceIs connections sourceNode node.depth v
  le : node.depth ≤ k
  nodup : node.indicies.Nodup
  indicies : ∀ i, i ∈ node.indicies ↔ ∃ e, P e ∧ e.name = v ∧ i ∈ e.indicies
  own : v ∉ inheritedNames
  callable : connections.has "hasOwnProperty" = false

/-- The search in the level `k`, after the entries of which `P` holds. -/
structure Searched (connections : IConnections) (sourceNode : String) (P : IConnectedNode → Prop)
    (k : ℕ) (s : State) : Prop where
  visited : ∀ v, (∃ node, s.visited.get? v = some node) ↔ ∃ e, P e ∧ e.name = v
  facts : ∀ v node, s.visited.get? v = some node → Visited connections sourceNode P k v node
  returned : ∀ v, v ∈ s.returnConns ↔ v ≠ sourceNode ∧ ∃ node, s.visited.get? v = some node
  once : s.returnConns.Nodup
  sorted : s.returnConns.Pairwise fun v w => ∀ n m, s.visited.get? v = some n →
    s.visited.get? w = some m → n.depth ≤ m.depth
  queue : ∀ e, e ∈ s.queue ↔ ∃ v node, s.visited.get? v = some node ∧ node.depth = k ∧
    ∃ c ∈ connectionsOf connections .main v, e = ⟨c.node, [c.index], k + 1⟩

theorem mem_dedupe {arr : List ℕ} {i : ℕ} : i ∈ dedupe arr ↔ i ∈ arr := JsSet.mem_ofList

variable {s : State} {s' : State} {curr : IConnectedNode}

theorem visit_cases
    (h : visit connections sourceNode (k + 1) s curr = .ok s') :
    (∃ node, s.visited.get? curr.name = some node ∧ s' = { s with
      visited := s.visited.set curr.name
        { node with indicies := dedupe (node.indicies ++ curr.indicies) } }) ∨
    s.visited.get? curr.name = none ∧ curr.name ∉ inheritedNames ∧
      connections.has "hasOwnProperty" = false ∧ s' = {
        visited := s.visited.set curr.name curr
        returnConns := if curr.name ≠ sourceNode then s.returnConns ++ [curr.name]
          else s.returnConns
        queue := s.queue ++ (connectionsOf connections .main curr.name).map fun connection =>
          ⟨connection.node, [connection.index], k + 1⟩ } := by
  rw [visit] at h
  rcases hget : s.visited.get? curr.name with _ | node
  · simp only [hget] at h
    refine .inr ⟨rfl, ?_⟩
    split at h
    · cases h
    · next hown =>
      split at h
      · cases h
      · next hhas =>
        cases h
        exact ⟨hown, Bool.eq_false_iff.mpr hhas, rfl⟩
  · simp only [hget] at h
    cases h
    exact .inl ⟨node, rfl, rfl⟩

variable {P : IConnectedNode → Prop}

theorem Searched.extend
    (h : Searched connections sourceNode P k s) {node : IConnectedNode}
    (hget : s.visited.get? curr.name = some node) :
    Searched connections sourceNode (fun e => P e ∨ e = curr) k { s with
      visited := s.visited.set curr.name
        { node with indicies := dedupe (node.indicies ++ curr.indicies) } } := by
  set node' : IConnectedNode :=
    { node with indicies := dedupe (node.indicies ++ curr.indicies) } with hnode'
  -- nothing but the indexes of the node changes
  have hsome : ∀ v n, (s.visited.set curr.name node').get? v = some n →
      ∃ m, s.visited.get? v = some m ∧ m.depth = n.depth := by
    intro v n hn
    rw [Dict.get?_set] at hn
    split at hn
    · next heq =>
      cases hn
      exact ⟨node, heq ▸ hget, rfl⟩
    · exact ⟨n, hn, rfl⟩
  have hsome' : ∀ v m, s.visited.get? v = some m →
      ∃ n, (s.visited.set curr.name node').get? v = some n ∧ n.depth = m.depth := by
    intro v m hm
    rw [Dict.get?_set]
    by_cases heq : v = curr.name
    · rw [if_pos heq]
      rw [heq, hget] at hm
      cases hm
      exact ⟨node', rfl, rfl⟩
    · rw [if_neg heq]
      exact ⟨m, hm, rfl⟩
  have hiff : ∀ v, (∃ n, (s.visited.set curr.name node').get? v = some n) ↔
      ∃ m, s.visited.get? v = some m := fun v =>
    ⟨fun hn => hn.elim fun n hn => (hsome v n hn).imp fun _ => And.left,
      fun hm => hm.elim fun m hm => (hsome' v m hm).imp fun _ => And.left⟩
  refine ⟨fun v => ?_, fun v n hn => ?_, fun v => ?_, h.once, ?_, fun e => ?_⟩
  · rw [hiff, h.visited]
    refine ⟨fun ⟨e, he, hname⟩ => ⟨e, .inl he, hname⟩, ?_⟩
    rintro ⟨e, he | rfl, hname⟩
    · exact ⟨e, he, hname⟩
    · exact (h.visited v).mp ⟨node, hname ▸ hget⟩
  · rw [Dict.get?_set] at hn
    split at hn
    · next heq =>
      cases hn
      have hfacts := h.facts curr.name node hget
      rw [heq]
      refine ⟨hfacts.name, hfacts.distance, hfacts.le, (JsSet.ofList _).nodup, fun i => ?_,
        hfacts.own, hfacts.callable⟩
      rw [hnode', mem_dedupe, List.mem_append, hfacts.indicies]
      constructor
      · rintro (⟨e, he, hname, hi⟩ | hi)
        · exact ⟨e, .inl he, hname, hi⟩
        · exact ⟨curr, .inr rfl, rfl, hi⟩
      · rintro ⟨e, he | rfl, hname, hi⟩
        · exact .inl ⟨e, he, hname, hi⟩
        · exact .inr hi
    · next hne =>
      have hfacts := h.facts v n hn
      refine ⟨hfacts.name, hfacts.distance, hfacts.le, hfacts.nodup, fun i => ?_, hfacts.own,
        hfacts.callable⟩
      rw [hfacts.indicies]
      refine ⟨fun ⟨e, he, hi⟩ => ⟨e, .inl he, hi⟩, ?_⟩
      rintro ⟨e, he | rfl, hname, hi⟩
      · exact ⟨e, he, hname, hi⟩
      · exact absurd hname.symm hne
  · rw [hiff]
    exact h.returned v
  · refine h.sorted.imp fun hvw n m hn hm => ?_
    obtain ⟨n', hn', hdn⟩ := hsome _ n hn
    obtain ⟨m', hm', hdm⟩ := hsome _ m hm
    rw [← hdn, ← hdm]
    exact hvw n' m' hn' hm'
  · rw [h.queue]
    constructor
    · rintro ⟨v, m, hm, hdepth, hc⟩
      obtain ⟨n, hn, hdn⟩ := hsome' v m hm
      exact ⟨v, n, hn, hdn.trans hdepth, hc⟩
    · rintro ⟨v, n, hn, hdepth, hc⟩
      obtain ⟨m, hm, hdm⟩ := hsome v n hn
      exact ⟨v, m, hm, hdm.trans hdepth, hc⟩

theorem Searched.meet
    (h : Searched connections sourceNode P k s)
    (hget : s.visited.get? curr.name = none) (hdepth : curr.depth = k)
    (hdistance : DistanceIs connections sourceNode k curr.name) (hnodup : curr.indicies.Nodup)
    (hown : curr.name ∉ inheritedNames) (hhas : connections.has "hasOwnProperty" = false) :
    Searched connections sourceNode (fun e => P e ∨ e = curr) k {
      visited := s.visited.set curr.name curr
      returnConns := if curr.name ≠ sourceNode then s.returnConns ++ [curr.name]
        else s.returnConns
      queue := s.queue ++ (connectionsOf connections .main curr.name).map fun connection =>
        ⟨connection.node, [connection.index], k + 1⟩ } := by
  have hother : ∀ v n, v ≠ curr.name → ((s.visited.set curr.name curr).get? v = some n ↔
      s.visited.get? v = some n) := fun v n hne => by rw [Dict.get?_set, if_neg hne]
  have hself : (s.visited.set curr.name curr).get? curr.name = some curr := by
    rw [Dict.get?_set, if_pos rfl]
  have hold : ∀ v n, s.visited.get? v = some n → v ≠ curr.name := by
    rintro v n hn rfl
    rw [hget] at hn
    cases hn
  have hnone : ∀ e, P e → e.name ≠ curr.name := by
    intro e he hname
    obtain ⟨n, hn⟩ := (h.visited curr.name).mpr ⟨e, he, hname⟩
    exact hold curr.name n hn rfl
  have hiff : ∀ v, (∃ n, (s.visited.set curr.name curr).get? v = some n) ↔
      (∃ n, s.visited.get? v = some n) ∨ v = curr.name := by
    intro v
    by_cases hv : v = curr.name
    · exact iff_of_true ⟨curr, hv ▸ hself⟩ (.inr hv)
    · rw [or_iff_left hv]
      exact exists_congr fun n => hother v n hv
  refine ⟨fun v => ?_, fun v n hn => ?_, fun v => ?_, ?_, ?_, fun e => ?_⟩
  · rw [hiff, h.visited]
    constructor
    · rintro (⟨e, he, hname⟩ | rfl)
      · exact ⟨e, .inl he, hname⟩
      · exact ⟨curr, .inr rfl, rfl⟩
    · rintro ⟨e, he | rfl, hname⟩
      · exact .inl ⟨e, he, hname⟩
      · exact .inr hname.symm
  · by_cases hv : v = curr.name
    · rw [hv, hself] at hn
      cases hn
      rw [hv]
      refine ⟨rfl, hdepth ▸ hdistance, hdepth.le, hnodup,
        fun i => ⟨fun hi => ⟨curr, .inr rfl, rfl, hi⟩, ?_⟩, hown, hhas⟩
      rintro ⟨e, he | rfl, hname, hi⟩
      · exact absurd hname (hnone e he)
      · exact hi
    · have hfacts := h.facts v n ((hother v n hv).mp hn)
      refine ⟨hfacts.name, hfacts.distance, hfacts.le, hfacts.nodup, fun i => ?_, hfacts.own,
        hfacts.callable⟩
      rw [hfacts.indicies]
      refine ⟨fun ⟨e, he, hi⟩ => ⟨e, .inl he, hi⟩, ?_⟩
      rintro ⟨e, he | rfl, hname, hi⟩
      · exact ⟨e, he, hname, hi⟩
      · exact absurd hname.symm hv
  · rw [hiff]
    by_cases hsource : curr.name = sourceNode
    · rw [if_neg (not_not.mpr hsource), h.returned]
      exact and_congr_right fun hne => (or_iff_left fun hv => hne (hv.trans hsource)).symm
    · rw [if_pos hsource, List.mem_append, List.mem_singleton, h.returned]
      constructor
      · rintro (⟨hne, hn⟩ | rfl)
        · exact ⟨hne, .inl hn⟩
        · exact ⟨hsource, .inr rfl⟩
      · rintro ⟨hne, hn | rfl⟩
        · exact .inl ⟨hne, hn⟩
        · exact .inr rfl
  · have hnew : curr.name ∉ s.returnConns := fun hmem => by
      obtain ⟨-, n, hn⟩ := (h.returned curr.name).mp hmem
      exact hold curr.name n hn rfl
    split
    · exact List.nodup_append'.mpr ⟨h.once, List.nodup_singleton _, fun v hv hv' =>
        hnew (List.mem_singleton.mp hv' ▸ hv)⟩
    · exact h.once
  · have hkept : s.returnConns.Pairwise fun v w => ∀ n m,
        (s.visited.set curr.name curr).get? v = some n →
        (s.visited.set curr.name curr).get? w = some m → n.depth ≤ m.depth := by
      refine h.sorted.imp_of_mem fun {v w} hv hw hvw n m hn hm => ?_
      obtain ⟨-, n', hn'⟩ := (h.returned v).mp hv
      obtain ⟨-, m', hm'⟩ := (h.returned w).mp hw
      exact hvw n m ((hother v n (hold v n' hn')).mp hn) ((hother w m (hold w m' hm')).mp hm)
    split
    · refine List.pairwise_append.mpr ⟨hkept, List.pairwise_singleton _ _, ?_⟩
      intro v hv w hw n m hn hm
      rw [List.mem_singleton.mp hw, hself] at hm
      cases hm
      obtain ⟨-, n', hn'⟩ := (h.returned v).mp hv
      rw [hdepth]
      exact (h.facts v n ((hother v n (hold v n' hn')).mp hn)).le
    · exact hkept
  · rw [List.mem_append, h.queue, List.mem_map]
    constructor
    · rintro (⟨v, n, hn, hnk, hc⟩ | ⟨c, hc, rfl⟩)
      · exact ⟨v, n, (hother v n (hold v n hn)).mpr hn, hnk, hc⟩
      · exact ⟨curr.name, curr, hself, hdepth, c, hc, rfl⟩
    · rintro ⟨v, n, hn, hnk, c, hc, rfl⟩
      by_cases hv : v = curr.name
      · exact .inr ⟨c, hv ▸ hc, rfl⟩
      · exact .inl ⟨v, n, (hother v n hv).mp hn, hnk, c, hc, rfl⟩

/-- **What one entry adds**, once all that is nearer was visited. -/
theorem Searched.visit (h : Searched connections sourceNode P k s)
    (hnearer : ∀ j < k, ∀ v, Walk (MainEdge connections) sourceNode j v → ∃ e, P e ∧ e.name = v) (hcurr : Entry connections sourceNode k curr)
    (hvisit : visit connections sourceNode (k + 1) s curr = .ok s') :
    Searched connections sourceNode (fun e => P e ∨ e = curr) k s' := by
  rcases visit_cases hvisit with ⟨node, hget, rfl⟩ | ⟨hget, hown, hhas, rfl⟩
  · exact h.extend hget
  · refine h.meet hget hcurr.depth_eq ⟨hcurr.walk, fun j hj hwalk => ?_⟩ hcurr.nodup hown hhas
    obtain ⟨node, hnode⟩ := (h.visited curr.name).mpr (hnearer j hj curr.name hwalk)
    rw [hget] at hnode
    cases hnode

theorem Searched.visitAll (h : Searched connections sourceNode P k s)
    (hnearer : ∀ j < k, ∀ v, Walk (MainEdge connections) sourceNode j v → ∃ e, P e ∧ e.name = v)
    {es : List IConnectedNode} (hes : ∀ e ∈ es, Entry connections sourceNode k e)
    (hfold : es.foldlM (SearchNodesBFS.visit connections sourceNode (k + 1)) s = .ok s') :
    Searched connections sourceNode (fun e => P e ∨ e ∈ es) k s' := by
  induction es generalizing P s with
  | nil =>
    cases hfold
    simpa using h
  | cons e es ih =>
    rw [List.foldlM_cons] at hfold
    obtain ⟨t, ht, hrest⟩ := exists_of_bind_eq_ok hfold
    have hall := ih (h.visit hnearer (hes e List.mem_cons_self) ht)
      (fun j hj v hv => (hnearer j hj v hv).imp fun _ hx => ⟨.inl hx.1, hx.2⟩)
      (fun e' he' => hes e' (List.mem_cons_of_mem _ he')) hrest
    simpa only [List.mem_cons, or_assoc] using hall

structure Round (connections : IConnections) (sourceNode : String) (k : ℕ) (s : State) : Prop where
  searched : Searched connections sourceNode (fun e => ∃ j < k, Entry connections sourceNode j e) k
    { s with queue := [] }
  fresh : ∀ v node, s.visited.get? v = some node → node.depth < k
  queue : ∀ e, e ∈ s.queue ↔ Entry connections sourceNode k e

theorem round_zero : Round connections sourceNode 0 { queue := [⟨sourceNode, [], 0⟩] } := by
  refine ⟨⟨fun v => ?_, fun v node h => ?_, fun v => ?_, List.nodup_nil, List.Pairwise.nil,
    fun e => ?_⟩, fun v node h => ?_, fun e => ?_⟩
  · simp
  · simp at h
  · simp
  · simp
  · simp at h
  · rw [List.mem_singleton]
    constructor
    · rintro rfl
      exact .source
    · intro h
      cases h
      rfl

theorem exists_entry_of_walk {j : ℕ} {v : String} (hj : j < k)
    (h : Walk (MainEdge connections) sourceNode j v) :
    ∃ e, (∃ i < k, Entry connections sourceNode i e) ∧ e.name = v := by
  obtain ⟨i, hi, hv⟩ := h.exists_atDistance
  obtain ⟨e, he, hname⟩ := exists_entry hv
  exact ⟨e, ⟨i, hi.trans_lt hj, he⟩, hname⟩

/-- **A level without errors leaves the entries of the next one on the queue.** -/
theorem Round.next (h : Round connections sourceNode k s)
    (hfold : s.queue.foldlM (visit connections sourceNode (k + 1)) { s with queue := [] } =
      .ok s') : Round connections sourceNode (k + 1) s' := by
  have hdone := h.searched.visitAll (fun j hj v hv => exists_entry_of_walk hj hv)
    (fun e he => (h.queue e).mp he) hfold
  have hP : (fun e => (∃ j < k, Entry connections sourceNode j e) ∨ e ∈ s.queue) =
      fun e => ∃ j < k + 1, Entry connections sourceNode j e := by
    funext e
    rw [h.queue, eq_iff_iff]
    constructor
    · rintro (⟨j, hj, he⟩ | he)
      · exact ⟨j, Nat.lt_succ_of_lt hj, he⟩
      · exact ⟨k, Nat.lt_succ_self k, he⟩
    · rintro ⟨j, hj, he⟩
      rcases Nat.lt_succ_iff_lt_or_eq.mp hj with hj | rfl
      · exact .inl ⟨j, hj, he⟩
      · exact .inr he
  rw [hP] at hdone
  refine ⟨⟨hdone.visited, fun v node hnode => ?_, hdone.returned, hdone.once, hdone.sorted,
    fun e => ?_⟩, fun v node hnode => Nat.lt_succ_of_le (hdone.facts v node hnode).le,
    fun e => ?_⟩
  · have hfacts := hdone.facts v node hnode
    exact { hfacts with le := Nat.le_succ_of_le hfacts.le }
  · refine iff_of_false List.not_mem_nil ?_
    rintro ⟨v, node, hnode, hdepth, -⟩
    have hle := (hdone.facts v node hnode).le
    omega
  · rw [hdone.queue]
    constructor
    · rintro ⟨v, node, hnode, hdepth, c, hc, rfl⟩
      exact .connection (hdepth ▸ (hdone.facts v node hnode).distance) hc
    · intro he
      cases he with
      | @connection k a c ha hc =>
        obtain ⟨node, hnode⟩ := (hdone.visited a).mpr
          (exists_entry_of_walk (Nat.lt_succ_self k) ha.1)
        exact ⟨a, node, hnode, (hdone.facts a node hnode).distance.unique ha, c, hc, rfl⟩

theorem Round.not_distanceIs (h : Round connections sourceNode k s)
    (hqueue : s.queue = []) (a : String) : ¬ DistanceIs connections sourceNode k a := by
  intro ha
  obtain ⟨e, he, -⟩ := exists_entry ha
  have hmem := (h.queue e).mpr he
  rw [hqueue] at hmem
  cases hmem

/-- The search after the last level. -/
structure Ended (connections : IConnections) (sourceNode : String) (maxDepth : Option ℕ) (k : ℕ)
    (s : State) : Prop where
  round : Round connections sourceNode k s
  le : ∀ m, maxDepth = some m → k ≤ m + 1
  last : s.queue = [] ∨ ∃ m, maxDepth = some m ∧ m < k

theorem exists_ended {maxDepth : Option ℕ} (rounds : ℕ) :
    ∀ {k : ℕ} {s s' : State}, Round connections sourceNode k s →
      (∀ m, maxDepth = some m → k ≤ m + 1) →
      searchRounds connections sourceNode maxDepth rounds k s = .ok s' →
      ∃ k', Ended connections sourceNode maxDepth k' s' := by
  induction rounds with
  | zero =>
    intro k s s' _ _ h
    cases h
  | succ rounds ih =>
    intro k s s' hround hle h
    rw [searchRounds] at h
    split at h
    · next hqueue =>
      cases h
      exact ⟨k, hround, hle, .inl hqueue⟩
    · split at h
      · next hdepth =>
        cases h
        refine ⟨k, hround, hle, .inr ?_⟩
        rcases maxDepth with _ | m
        · cases hdepth
        · exact ⟨m, rfl, of_decide_eq_true hdepth⟩
      · next hdepth =>
        obtain ⟨t, ht, hrest⟩ := exists_of_bind_eq_ok h
        refine ih (hround.next ht) (fun m hm => ?_) hrest
        rw [hm] at hdepth
        simp only [Option.any_some, decide_eq_true_eq, not_lt] at hdepth
        omega

theorem map_name_filterMap {visited : Dict String IConnectedNode} {names : List String}
    (h : ∀ v ∈ names, ∃ node, visited.get? v = some node ∧ node.name = v) :
    (names.filterMap visited.get?).map (·.name) = names := by
  induction names with
  | nil => rfl
  | cons v names ih =>
    obtain ⟨node, hnode, hname⟩ := h v List.mem_cons_self
    rw [List.filterMap_cons_some hnode, List.map_cons, hname,
      ih fun w hw => h w (List.mem_cons_of_mem _ hw)]

section

variable {maxDepth : Option ℕ} {k : ℕ} {s : State}

theorem Ended.near_iff (h : Ended connections sourceNode maxDepth k s) (v : String) :
    (∃ node, s.visited.get? v = some node) ↔ Near connections sourceNode maxDepth v := by
  rw [show s.visited = ({ s with queue := [] } : State).visited from rfl,
    h.round.searched.visited v]
  constructor
  · rintro ⟨e, ⟨j, hj, he⟩, rfl⟩
    obtain ⟨d, hd, hdistance⟩ := he.walk.exists_atDistance
    refine ⟨d, hdistance, fun m hm => ?_⟩
    have hle := h.le m hm
    omega
  · rintro ⟨d, hdistance, hd⟩
    rcases h.last with hqueue | ⟨m, hm, hlt⟩
    · -- no entry is left, so that nothing is further away
      have hnone := h.round.not_distanceIs hqueue
      obtain ⟨i, hi, hwalk⟩ := hdistance.1.lt_of_none hnone
      exact exists_entry_of_walk hi hwalk
    · exact exists_entry_of_walk ((hd m hm).trans_lt hlt) hdistance.1

theorem Ended.entry_lt_iff (h : Ended connections sourceNode maxDepth k s) {d : ℕ}
    {e : IConnectedNode} (he : Entry connections sourceNode (d + 1) e) :
    d + 1 < k ↔ ∀ m, maxDepth = some m → d < m := by
  constructor
  · intro hlt m hm
    have hle := h.le m hm
    omega
  · intro hd
    rcases h.last with hqueue | ⟨m, hm, hlt⟩
    · by_contra hnot
      have hnone := h.round.not_distanceIs hqueue
      cases he with
      | @connection d a c ha hc =>
        have hdk : d < k := Nat.lt_of_not_le fun hle => not_atDistance_of_le hnone hle a ha
        have hkd : k = d + 1 := by omega
        have hmem := (h.round.queue _).mpr (hkd ▸ Entry.connection ha hc)
        rw [hqueue] at hmem
        cases hmem
    · have := hd m hm
      omega

theorem Ended.breadthFirst (h : Ended connections sourceNode maxDepth k s) :
    BreadthFirst connections sourceNode maxDepth (s.returnConns.filterMap s.visited.get?) := by
  have hsearched := h.round.searched
  have hnames : (s.returnConns.filterMap s.visited.get?).map (·.name) = s.returnConns := by
    refine map_name_filterMap fun v hv => ?_
    obtain ⟨-, node, hnode⟩ := (hsearched.returned v).mp hv
    exact ⟨node, hnode, (hsearched.facts v node hnode).name⟩
  refine ⟨fun v => ?_, ?_, ?_, fun n hn => ?_, fun n hn => ?_⟩
  · rw [hnames]
    exact (hsearched.returned v).trans (and_congr_right fun _ => h.near_iff v)
  · rw [hnames]
    exact hsearched.once
  · exact List.pairwise_filterMap.mpr (hsearched.sorted.imp fun hvw n hn m hm => hvw n m hn hm)
  · obtain ⟨v, -, hv⟩ := List.mem_filterMap.mp hn
    have hfacts := hsearched.facts v n hv
    rw [hfacts.name]
    exact hfacts.distance
  · obtain ⟨v, -, hv⟩ := List.mem_filterMap.mp hn
    have hfacts := hsearched.facts v n hv
    refine ⟨hfacts.nodup, fun i => ?_⟩
    rw [hfacts.indicies, hfacts.name]
    constructor
    · rintro ⟨e, ⟨j, hj, he⟩, hname, hi⟩
      cases he with
      | source => cases hi
      | @connection d a c ha hc =>
        exact ⟨a, d, ha, (h.entry_lt_iff (.connection ha hc)).mp hj, c, hc, hname,
          (List.mem_singleton.mp hi).symm⟩
    · rintro ⟨a, d, ha, hd, c, hc, hname, rfl⟩
      have he := Entry.connection ha hc
      exact ⟨_, ⟨d + 1, (h.entry_lt_iff he).mpr hd, he⟩, hname, List.mem_singleton_self _⟩

end

def unvisited (connections : IConnections) (s : State) : ℕ :=
  (connections.keys.filter fun v => (s.visited.get? v).isNone).length

theorem exists_visit (sourceNode : String) (k : ℕ) (s : State)
    (hown : curr.name ∉ inheritedNames) (hkey : "hasOwnProperty" ∉ connections.keys) :
    ∃ s', visit connections sourceNode (k + 1) s curr = .ok s' := by
  rw [visit]
  split
  · exact ⟨_, rfl⟩
  · rw [if_neg hown, if_neg fun h => hkey (Dict.has_iff.mp h)]
    exact ⟨_, rfl⟩

theorem exists_visitAll (sourceNode : String) (k : ℕ) (hkey : "hasOwnProperty" ∉ connections.keys)
    {es : List IConnectedNode} (hown : ∀ e ∈ es, e.name ∉ inheritedNames) :
    ∀ s, ∃ s', es.foldlM (visit connections sourceNode (k + 1)) s = .ok s' := by
  induction es with
  | nil => exact fun s => ⟨s, rfl⟩
  | cons e es ih =>
    intro s
    obtain ⟨t, ht⟩ := exists_visit sourceNode k s (hown e List.mem_cons_self) hkey
    obtain ⟨s', hs'⟩ := ih (fun e he => hown e (List.mem_cons_of_mem _ he)) t
    rw [List.foldlM_cons, ht]
    exact ⟨s', hs'⟩

theorem Round.unvisited_lt {k : ℕ} {s t : State} (h : Round connections sourceNode k s)
    (ht : Round connections sourceNode (k + 1) t) (hqueue : t.queue ≠ []) :
    unvisited connections t < unvisited connections s := by
  have hgrows : ∀ v, (t.visited.get? v).isNone → (s.visited.get? v).isNone := by
    intro v hv
    rw [Option.isNone_iff_eq_none] at hv ⊢
    rcases hs : s.visited.get? v with _ | node
    · rfl
    · obtain ⟨e, ⟨j, hj, he⟩, hname⟩ := (h.searched.visited v).mp ⟨node, hs⟩
      obtain ⟨node', hnode'⟩ := (ht.searched.visited v).mpr
        ⟨e, ⟨j, Nat.lt_succ_of_lt hj, he⟩, hname⟩
      exact absurd (hv.symm.trans hnode') (by simp)
  have hfilter : connections.keys.filter (fun v => (t.visited.get? v).isNone) =
      (connections.keys.filter fun v => (s.visited.get? v).isNone).filter
        fun v => (t.visited.get? v).isNone := by
    rw [List.filter_filter]
    refine List.filter_congr fun v _ => ?_
    rw [Bool.eq_iff_iff, Bool.and_eq_true]
    exact ⟨fun hv => ⟨hv, hgrows v hv⟩, And.left⟩
  obtain ⟨e, he⟩ := List.exists_mem_of_ne_nil _ hqueue
  have hentry := (ht.queue e).mp he
  cases hentry with
  | @connection k a c ha hc =>
    rw [unvisited, hfilter, unvisited, List.length_filter_lt_length_iff_exists]
    refine ⟨a, List.mem_filter.mpr ⟨mem_keys_of_feeds ⟨c, hc, rfl⟩, ?_⟩, ?_⟩
    · rw [Option.isNone_iff_eq_none]
      rcases hs : s.visited.get? a with _ | node
      · rfl
      · have hlt := h.fresh a node hs
        rw [(h.searched.facts a node hs).distance.unique ha] at hlt
        exact absurd hlt (Nat.lt_irrefl k)
    · obtain ⟨node, hnode⟩ := (ht.searched.visited a).mpr
        (exists_entry_of_walk (Nat.lt_succ_self k) ha.1)
      rw [show t.visited.get? a = some node from hnode]
      simp

theorem exists_searchRounds {maxDepth : Option ℕ} (hkey : "hasOwnProperty" ∉ connections.keys)
    (hown : ∀ v, Near connections sourceNode maxDepth v → v ∉ inheritedNames) (rounds : ℕ) :
    ∀ {k : ℕ} {s : State}, Round connections sourceNode k s → 0 < rounds →
      (s.queue ≠ [] → unvisited connections s + 1 < rounds) →
      ∃ s', searchRounds connections sourceNode maxDepth rounds k s = .ok s' := by
  induction rounds with
  | zero => exact fun _ h => absurd h (Nat.lt_irrefl 0)
  | succ rounds ih =>
    intro k s hround _ hroom
    rw [searchRounds]
    split
    · exact ⟨s, rfl⟩
    · next hqueue =>
      split
      · exact ⟨s, rfl⟩
      · next hdepth =>
        have hnear : ∀ e ∈ s.queue, e.name ∉ inheritedNames := by
          intro e he
          obtain ⟨d, hd, hdistance⟩ := ((hround.queue e).mp he).walk.exists_atDistance
          refine hown e.name ⟨d, hdistance, fun m hm => ?_⟩
          rw [hm] at hdepth
          simp only [Option.any_some, decide_eq_true_eq, not_lt] at hdepth
          omega
        obtain ⟨t, ht⟩ := exists_visitAll sourceNode k hkey hnear
          { s with queue := [] }
        have hnext := hround.next ht
        have hleft := hroom hqueue
        rw [ht]
        refine ih hnext (by omega) fun hnil => ?_
        have hless := hround.unvisited_lt hnext hnil
        omega

/-- **The maps, sources and depths for which the search does what it should.** -/
theorem breadthFirst_iff (connections : IConnections) (sourceNode : String)
    (maxDepth : Option ℕ) :
    (∃ result, searchNodesBFS connections sourceNode maxDepth = .ok result ∧
        BreadthFirst connections sourceNode maxDepth result) ↔
      "hasOwnProperty" ∉ connections.keys ∧
        ∀ v, Near connections sourceNode maxDepth v → v ∉ inheritedNames := by
  constructor
  · rintro ⟨result, hresult, -⟩
    obtain ⟨s, hs, -⟩ := exists_of_bind_eq_ok hresult
    obtain ⟨k, hended⟩ := exists_ended _ round_zero (fun _ _ => Nat.zero_le _) hs
    -- the checks were passed for each node that was visited
    have hfacts : ∀ v, Near connections sourceNode maxDepth v →
        v ∉ inheritedNames ∧ connections.has "hasOwnProperty" = false := by
      intro v hv
      obtain ⟨node, hnode⟩ := (hended.near_iff v).mpr hv
      have hfacts := hended.round.searched.facts v node hnode
      exact ⟨hfacts.own, hfacts.callable⟩
    have hsource : Near connections sourceNode maxDepth sourceNode :=
      ⟨0, atDistance_zero_iff.mpr rfl, fun m _ => Nat.zero_le m⟩
    exact ⟨Dict.not_mem_keys_of_has (hfacts sourceNode hsource).2, fun v hv => (hfacts v hv).1⟩
  · rintro ⟨hkey, hown⟩
    obtain ⟨s, hs⟩ := exists_searchRounds hkey hown (connections.keys.length + 2) round_zero
      (Nat.succ_pos _) fun _ => by
        have hle : unvisited connections { queue := [⟨sourceNode, [], 0⟩] } ≤
          connections.keys.length := List.length_filter_le _ _
        omega
    obtain ⟨k, hended⟩ := exists_ended _ round_zero (fun _ _ => Nat.zero_le _) hs
    refine ⟨s.returnConns.filterMap s.visited.get?, ?_, hended.breadthFirst⟩
    rw [searchNodesBFS, hs]
    rfl

def toConstructor : IConnections :=
  Dict.empty.set "Trigger" (Dict.empty.set .main [some [⟨"constructor", .main, 0⟩]])

theorem not_breadthFirst_toConstructor :
    ¬ ∃ result, searchNodesBFS toConstructor "Trigger" none = .ok result ∧
      BreadthFirst toConstructor "Trigger" none result := by
  rintro ⟨result, hresult, -⟩
  have hthrows : searchNodesBFS toConstructor "Trigger" none = .error (.threw .typeError) := by
    decide +kernel
  rw [hthrows] at hresult
  cases hresult

end SearchNodesBFS

end N8n
