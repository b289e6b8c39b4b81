/-
Which selections of nodes can be extracted into a workflow of their own:
`parseExtractableSubgraphSelection`.

The main edges that enter a selection must all end in one node, one without an edge from
inside unless there is no such node, and those that leave it must all begin in one node, in
the same way.  Where there are both, a path must lead from the one node to the other.

* `extractable_iff` — **a selection is accepted exactly as described, and its start and end
  are these nodes**, if and only if no unconnected start or end has an empty name: the code
  tests the names instead of their presence before it looks for the path.
-/
import N8n.Interfaces
import N8n.JsSet
import Mathlib.Logic.Relation

namespace N8n.GraphUtils

/-- The connections of a node are a `Set` of objects, so that two of them can look alike. -/
abbrev IConnectionAdjacencyList := Dict String (List IConnection)

inductive ExtractableErrorResult where
  | multipleInputNodes (nodes : JsSet String)
  | multipleOutputNodes (nodes : JsSet String)
  | inputEdgeToNonRootNode (node : String)
  | outputEdgeFromNonLeafNode (node : String)
  | noContinuousPathFromRootToLeaf (start stop : String)
  deriving DecidableEq

def ExtractableErrorResult.errorCode : ExtractableErrorResult → String
  | multipleInputNodes _ => "Multiple Input Nodes"
  | multipleOutputNodes _ => "Multiple Output Nodes"
  | inputEdgeToNonRootNode _ => "Input Edge To Non-Root Node"
  | outputEdgeFromNonLeafNode _ => "Output Edge From Non-Leaf Node"
  | noContinuousPathFromRootToLeaf _ _ => "No Continuous Path From Root To Leaf In Selection"

/-- `end` of the source is `stop` here. -/
structure ExtractableSubgraphData where
  start : Option String := none
  stop : Option String := none
  deriving DecidableEq

variable (graphIds : JsSet String) (adjacencyList : IConnectionAdjacencyList)

def getInputEdges : List (String × IConnection) :=
  adjacencyList.entries.flatMap fun entry =>
    if entry.1 ∈ graphIds then []
    else (entry.2.filter (·.node ∈ graphIds)).map (entry.1, ·)

def getOutputEdges : List (String × IConnection) :=
  adjacencyList.entries.flatMap fun entry =>
    if entry.1 ∉ graphIds then []
    else (entry.2.filter (·.node ∉ graphIds)).map (entry.1, ·)

def mainTargets (nodeId : String) : List String :=
  (((adjacencyList.get? nodeId).getD []).filter (·.type = .main)).map (·.node)

def otherMainTargets (nodeId : String) : List String :=
  (((adjacencyList.get? nodeId).getD []).filter
    fun x => x.type = .main ∧ x.node ≠ nodeId).map (·.node)

def getRootNodes : JsSet String :=
  graphIds.difference (graphIds.elems.foldl (fun innerNodes nodeId =>
    innerNodes.union (JsSet.ofList (otherMainTargets adjacencyList nodeId))) JsSet.empty)

def getLeafNodes : JsSet String :=
  graphIds.elems.foldl (fun result nodeId =>
    if ((JsSet.ofList (otherMainTargets adjacencyList nodeId)).intersection graphIds).size = 0
    then result.add nodeId else result) JsSet.empty

/-- The rounds of the loop of `hasPath`, at most so many; the last node of `paths` stands
first. -/
def hasPathRounds (stop : String) (adjacencyList : IConnectionAdjacencyList) :
    ℕ → JsSet String → List String → Option Bool
  | 0, _, _ => none
  | rounds + 1, seen, paths =>
    match paths with
    | [] => some false
    | next :: paths =>
      if next = stop then some true
      else
        let seen := seen.add next
        hasPathRounds stop adjacencyList rounds seen
          (((JsSet.ofList (mainTargets adjacencyList next)).difference seen).elems.reverse ++
            paths)

def edgeCount : ℕ :=
  adjacencyList.values.flatten.length

/-- Enough rounds: each new node may be pushed by each of its connections, twice. -/
def maxRounds : ℕ :=
  (edgeCount adjacencyList + 1) * (2 * edgeCount adjacencyList + 2) + 2

def hasPath (start stop : String) (adjacencyList : IConnectionAdjacencyList) : Option Bool :=
  hasPathRounds stop adjacencyList (maxRounds adjacencyList) JsSet.empty [start]

/-- Without a root (leaf), the one node with an edge from (to) outside counts as one. -/
def tolerated (nodes edgeNodes : JsSet String) : JsSet String :=
  if nodes.size = 0 ∧ edgeNodes.size = 1 then edgeNodes else nodes

/-- The errors for one end of the selection. -/
def endErrors (notAtEnd : String → ExtractableErrorResult)
    (multiple : JsSet String → ExtractableErrorResult) (nodes edgeNodes : JsSet String) :
    List ExtractableErrorResult :=
  (edgeNodes.difference nodes).elems.map notAtEnd ++
    if (nodes.intersection edgeNodes).size > 1 then [multiple (nodes.intersection edgeNodes)]
    else []

def inputNodes : JsSet String :=
  JsSet.ofList (((getInputEdges graphIds adjacencyList).filter (·.2.type = .main)).map (·.2.node))

def outputNodes : JsSet String :=
  JsSet.ofList (((getOutputEdges graphIds adjacencyList).filter (·.2.type = .main)).map (·.1))

/-- `start && end && !hasPath(start, end, adjacencyList)`; an empty string is no condition. -/
def pathErrors (start stop : Option String) (adjacencyList : IConnectionAdjacencyList) :
    Option (List ExtractableErrorResult) :=
  match start, stop with
  | some start, some stop =>
    if start ≠ "" ∧ stop ≠ "" then
      (hasPath start stop adjacencyList).map fun found =>
        if found then [] else [.noContinuousPathFromRootToLeaf start stop]
    else some []
  | _, _ => some []

def parseExtractableSubgraphSelection :
    Option (Except (List ExtractableErrorResult) ExtractableSubgraphData) := do
  let inputNodes := inputNodes graphIds adjacencyList
  let rootNodes := tolerated (getRootNodes graphIds adjacencyList) inputNodes
  let inputErrors := endErrors .inputEdgeToNonRootNode .multipleInputNodes rootNodes inputNodes
  let outputNodes := outputNodes graphIds adjacencyList
  let leafNodes := tolerated (getLeafNodes graphIds adjacencyList) outputNodes
  let outputErrors := endErrors .outputEdgeFromNonLeafNode .multipleOutputNodes leafNodes
    outputNodes
  let start := (rootNodes.intersection inputNodes).first?
  let stop := (leafNodes.intersection outputNodes).first?
  let errors := inputErrors ++ outputErrors ++ (← pathErrors start stop adjacencyList)
  return if errors.length > 0 then .error errors else .ok ⟨start, stop⟩

def MainEdge (a b : String) : Prop :=
  b ∈ mainTargets adjacencyList a

def IsRoot (a : String) : Prop :=
  a ∈ graphIds ∧ ∀ b ∈ graphIds, b ≠ a → ¬ MainEdge adjacencyList b a

def IsLeaf (a : String) : Prop :=
  a ∈ graphIds ∧ ∀ b ∈ graphIds, b ≠ a → ¬ MainEdge adjacencyList a b

def IsEntered (a : String) : Prop :=
  a ∈ graphIds ∧ ∃ b, b ∉ graphIds ∧ MainEdge adjacencyList b a

def IsLeft (a : String) : Prop :=
  a ∈ graphIds ∧ ∃ b, b ∉ graphIds ∧ MainEdge adjacencyList a b

variable {graphIds : JsSet String} {adjacencyList : IConnectionAdjacencyList} {a : String}
  {b : String}

theorem mainEdge_iff : MainEdge adjacencyList a b ↔
    ∃ tos, adjacencyList.get? a = some tos ∧ ∃ x ∈ tos, x.type = .main ∧ x.node = b := by
  rw [MainEdge, mainTargets]
  rcases h : adjacencyList.get? a with _ | tos
  · simp
  · simp [and_assoc]

theorem mem_otherMainTargets :
    b ∈ otherMainTargets adjacencyList a ↔ MainEdge adjacencyList a b ∧ b ≠ a := by
  simp only [otherMainTargets, MainEdge, mainTargets, List.mem_map, List.mem_filter,
    decide_eq_true_eq]
  constructor
  · rintro ⟨x, ⟨hx, htype, hne⟩, rfl⟩
    exact ⟨⟨x, ⟨hx, htype⟩, rfl⟩, hne⟩
  · rintro ⟨⟨x, ⟨hx, htype⟩, rfl⟩, hne⟩
    exact ⟨x, ⟨hx, htype, hne⟩, rfl⟩

theorem mem_inputNodes :
    a ∈ inputNodes graphIds adjacencyList ↔ IsEntered graphIds adjacencyList a := by
  simp only [inputNodes, getInputEdges, JsSet.mem_ofList, List.mem_map, List.mem_filter,
    List.mem_flatMap, Prod.exists, Dict.mem_entries_iff, decide_eq_true_eq, IsEntered,
    mainEdge_iff]
  constructor
  · rintro ⟨b, x, ⟨⟨b', tos, hget, hmem⟩, htype⟩, rfl⟩
    split at hmem
    · cases hmem
    · next hout =>
      obtain ⟨y, hy, heq⟩ := List.mem_map.mp hmem
      cases heq
      obtain ⟨hx, hin⟩ := List.mem_filter.mp hy
      exact ⟨of_decide_eq_true hin, _, hout, tos, hget, x, hx, htype, rfl⟩
  · rintro ⟨hin, b, hout, tos, hget, x, hx, htype, rfl⟩
    refine ⟨b, x, ⟨⟨b, tos, hget, ?_⟩, htype⟩, rfl⟩
    rw [if_neg hout]
    exact List.mem_map_of_mem (List.mem_filter.mpr ⟨hx, decide_eq_true hin⟩)

theorem mem_outputNodes :
    a ∈ outputNodes graphIds adjacencyList ↔ IsLeft graphIds adjacencyList a := by
  simp only [outputNodes, getOutputEdges, JsSet.mem_ofList, List.mem_map, List.mem_filter,
    List.mem_flatMap, Prod.exists, Dict.mem_entries_iff, decide_eq_true_eq, IsLeft,
    mainEdge_iff]
  constructor
  · rintro ⟨b, x, ⟨⟨b', tos, hget, hmem⟩, htype⟩, rfl⟩
    split at hmem
    · cases hmem
    · next hin =>
      obtain ⟨y, hy, heq⟩ := List.mem_map.mp hmem
      cases heq
      obtain ⟨hx, hout⟩ := List.mem_filter.mp hy
      exact ⟨not_not.mp hin, x.node, of_decide_eq_true hout, tos, hget, x, hx, htype, rfl⟩
  · rintro ⟨hin, b, hout, tos, hget, x, hx, htype, rfl⟩
    refine ⟨a, x, ⟨⟨a, tos, hget, ?_⟩, htype⟩, rfl⟩
    rw [if_neg (not_not.mpr hin)]
    exact List.mem_map_of_mem (List.mem_filter.mpr ⟨hx, decide_eq_true hout⟩)

theorem mem_getRootNodes :
    a ∈ getRootNodes graphIds adjacencyList ↔ IsRoot graphIds adjacencyList a := by
  have hinner : ∀ (ids : List String) (inner : JsSet String),
      a ∈ ids.foldl (fun innerNodes nodeId => innerNodes.union
        (JsSet.ofList (otherMainTargets adjacencyList nodeId))) inner ↔
      a ∈ inner ∨ ∃ b ∈ ids, MainEdge adjacencyList b a ∧ a ≠ b := by
    intro ids
    induction ids with
    | nil => simp
    | cons id ids ih =>
      intro inner
      rw [List.foldl_cons, ih, JsSet.mem_union, JsSet.mem_ofList, mem_otherMainTargets]
      simp only [List.mem_cons, exists_eq_or_imp, or_assoc]
  rw [getRootNodes, JsSet.mem_difference, hinner, IsRoot]
  refine and_congr_right fun _ => ⟨fun h b hb hne hedge => h (.inr ⟨b, hb, hedge, hne.symm⟩), ?_⟩
  rintro h (hempty | ⟨b, hb, hedge, hne⟩)
  · exact JsSet.not_mem_empty a hempty
  · exact h b hb hne.symm hedge

theorem mem_getLeafNodes :
    a ∈ getLeafNodes graphIds adjacencyList ↔ IsLeaf graphIds adjacencyList a := by
  have hleaf : ∀ (ids : List String) (result : JsSet String),
      a ∈ ids.foldl (fun result nodeId =>
        if ((JsSet.ofList (otherMainTargets adjacencyList nodeId)).intersection graphIds).size = 0
        then result.add nodeId else result) result ↔
      a ∈ result ∨ a ∈ ids ∧ ∀ b ∈ graphIds, b ≠ a → ¬ MainEdge adjacencyList a b := by
    intro ids
    induction ids with
    | nil => simp
    | cons id ids ih =>
      intro result
      have hsize : ((JsSet.ofList (otherMainTargets adjacencyList id)).intersection
          graphIds).size = 0 ↔ ∀ b ∈ graphIds, b ≠ id → ¬ MainEdge adjacencyList id b := by
        rw [JsSet.size_eq_zero_iff]
        simp only [JsSet.mem_intersection, JsSet.mem_ofList, mem_otherMainTargets]
        exact forall_congr' fun b => ⟨fun h hb hne hedge => h ⟨⟨hedge, hne⟩, hb⟩,
          fun h hb => h hb.2 hb.1.2 hb.1.1⟩
      rw [List.foldl_cons, ih, List.mem_cons]
      by_cases hcond : ∀ b ∈ graphIds, b ≠ id → ¬ MainEdge adjacencyList id b
      · rw [if_pos (hsize.mpr hcond), JsSet.mem_add]
        constructor
        · rintro ((h | rfl) | ⟨hin, h⟩)
          · exact .inl h
          · exact .inr ⟨.inl rfl, hcond⟩
          · exact .inr ⟨.inr hin, h⟩
        · rintro (h | ⟨rfl | hin, h⟩)
          · exact .inl (.inl h)
          · exact .inl (.inr rfl)
          · exact .inr ⟨hin, h⟩
      · rw [if_neg fun h => hcond (hsize.mp h)]
        constructor
        · rintro (h | ⟨hin, h⟩)
          · exact .inl h
          · exact .inr ⟨.inr hin, h⟩
        · rintro (h | ⟨rfl | hin, h⟩)
          · exact .inl h
          · exact absurd h hcond
          · exact .inr ⟨hin, h⟩
  rw [getLeafNodes, hleaf, IsLeaf]
  exact or_iff_right (JsSet.not_mem_empty a)

/-- A path of main edges. -/
def MainPath (adjacencyList : IConnectionAdjacencyList) : String → String → Prop :=
  Relation.ReflTransGen (MainEdge adjacencyList)

def allNodes (start : String) (adjacencyList : IConnectionAdjacencyList) : List String :=
  start :: adjacencyList.values.flatten.map (·.node)

theorem length_allNodes (start : String) :
    (allNodes start adjacencyList).length = edgeCount adjacencyList + 1 := by
  rw [allNodes, List.length_cons, List.length_map, edgeCount]

theorem mem_allNodes_of_mainEdge (start : String)
    (h : MainEdge adjacencyList a b) : b ∈ allNodes start adjacencyList := by
  obtain ⟨tos, hget, x, hx, -, rfl⟩ := mainEdge_iff.mp h
  exact List.mem_cons_of_mem _ (List.mem_map_of_mem
    (List.mem_flatten.mpr ⟨tos, Dict.mem_values_of_get? hget, hx⟩))

theorem length_mainTargets_le (a : String) :
    (mainTargets adjacencyList a).length ≤ edgeCount adjacencyList := by
  rw [mainTargets, List.length_map]
  refine (List.length_filter_le _ _).trans ?_
  rcases h : adjacencyList.get? a with _ | tos
  · exact Nat.zero_le _
  · exact (List.sublist_flatten_of_mem (Dict.mem_values_of_get? h)).length_le

def pushed (adjacencyList : IConnectionAdjacencyList) (next : String) (seen : JsSet String) :
    List String :=
  ((JsSet.ofList (mainTargets adjacencyList next)).difference seen).elems.reverse

variable {seen : JsSet String}

theorem mem_pushed {next : String} :
    b ∈ pushed adjacencyList next seen ↔ MainEdge adjacencyList next b ∧ b ∉ seen := by
  rw [pushed, List.mem_reverse, ← JsSet.mem_def, JsSet.mem_difference, JsSet.mem_ofList]
  exact Iff.rfl

theorem length_pushed_le (next : String) (seen : JsSet String) :
    (pushed adjacencyList next seen).length ≤ edgeCount adjacencyList := by
  rw [pushed, List.length_reverse]
  exact (JsSet.size_filter_le _ _).trans
    ((JsSet.size_ofList_le _).trans (length_mainTargets_le next))

def unseen (start : String) (adjacencyList : IConnectionAdjacencyList) (seen : JsSet String) : ℕ :=
  ((allNodes start adjacencyList).filter (· ∉ seen)).length

/-- Each round uses some of this up: it sees a new node, or finds one that it has seen on
top, and then pushes new ones or none. -/
def potential (start : String) (adjacencyList : IConnectionAdjacencyList) (seen : JsSet String)
    (paths : List String) : ℕ :=
  unseen start adjacencyList seen * (2 * edgeCount adjacencyList + 2) +
    (if paths.head?.any (· ∈ seen) then edgeCount adjacencyList + 1 else 0) + paths.length

structure Searching (adjacencyList : IConnectionAdjacencyList) (start stop : String)
    (seen : JsSet String) (paths : List String) : Prop where
  reached : ∀ a, a ∈ seen ∨ a ∈ paths → MainPath adjacencyList start a
  known : ∀ a ∈ paths, a ∈ allNodes start adjacencyList
  closed : ∀ a ∈ seen, ∀ b, MainEdge adjacencyList a b → b ∈ seen ∨ b ∈ paths
  started : start ∈ seen ∨ start ∈ paths
  avoids : stop ∉ seen

variable {paths : List String}

theorem Searching.push {start stop next : String}
    (h : Searching adjacencyList start stop seen (next :: paths)) (hne : next ≠ stop) :
    Searching adjacencyList start stop (seen.add next)
      (pushed adjacencyList next (seen.add next) ++ paths) where
  reached a ha := by
    rw [JsSet.mem_add, List.mem_append, mem_pushed] at ha
    rcases ha with (ha | rfl) | ⟨hedge, -⟩ | ha
    · exact h.reached a (.inl ha)
    · exact h.reached a (.inr List.mem_cons_self)
    · exact (h.reached next (.inr List.mem_cons_self)).tail hedge
    · exact h.reached a (.inr (List.mem_cons_of_mem _ ha))
  known a ha := by
    rw [List.mem_append, mem_pushed] at ha
    rcases ha with ⟨hedge, -⟩ | ha
    · exact mem_allNodes_of_mainEdge start hedge
    · exact h.known a (List.mem_cons_of_mem _ ha)
  closed a ha b hedge := by
    rw [List.mem_append, mem_pushed]
    by_cases hb : b ∈ seen.add next
    · exact .inl hb
    · rcases JsSet.mem_add.mp ha with ha | rfl
      · rcases h.closed a ha b hedge with hseen | hpaths
        · exact .inl (JsSet.mem_add.mpr (.inl hseen))
        · rcases List.mem_cons.mp hpaths with rfl | hpaths
          · exact .inl (JsSet.mem_add.mpr (.inr rfl))
          · exact .inr (.inr hpaths)
      · exact .inr (.inl ⟨hedge, hb⟩)
  started := by
    rcases h.started with hseen | hpaths
    · exact .inl (JsSet.mem_add.mpr (.inl hseen))
    · rcases List.mem_cons.mp hpaths with rfl | hpaths
      · exact .inl (JsSet.mem_add.mpr (.inr rfl))
      · exact .inr (List.mem_append_right _ hpaths)
  avoids hstop := by
    rcases JsSet.mem_add.mp hstop with hstop | heq
    · exact h.avoids hstop
    · exact hne heq.symm

theorem unseen_add_le (adjacencyList : IConnectionAdjacencyList) (start next : String)
    (seen : JsSet String) :
    unseen start adjacencyList (seen.add next) ≤ unseen start adjacencyList seen := by
  refine (List.monotone_filter_right _ fun a ha => ?_).length_le
  simp only [JsSet.mem_add, not_or, decide_eq_true_eq] at ha ⊢
  exact ha.1

theorem unseen_add_lt {start next : String} (hnew : next ∉ seen)
    (hknown : next ∈ allNodes start adjacencyList) :
    unseen start adjacencyList (seen.add next) < unseen start adjacencyList seen := by
  have hsplit : (allNodes start adjacencyList).filter (· ∉ seen.add next) =
      ((allNodes start adjacencyList).filter (· ∉ seen)).filter (· ≠ next) := by
    rw [List.filter_filter]
    refine List.filter_congr fun a _ => ?_
    simp only [JsSet.mem_add, not_or, ne_eq, Bool.decide_and, Bool.and_comm]
  rw [unseen, hsplit, unseen, List.length_filter_lt_length_iff_exists]
  exact ⟨next, List.mem_filter.mpr ⟨hknown, decide_eq_true hnew⟩, by simp⟩

theorem potential_push {start stop next : String}
    (h : Searching adjacencyList start stop seen (next :: paths)) :
    potential start adjacencyList (seen.add next)
      (pushed adjacencyList next (seen.add next) ++ paths) <
      potential start adjacencyList seen (next :: paths) := by
  set count := edgeCount adjacencyList with hcount
  have hpushed : (pushed adjacencyList next (seen.add next)).length ≤ count :=
    length_pushed_le next _
  have htop : (if (pushed adjacencyList next (seen.add next) ++ paths).head?.any
      (· ∈ seen.add next) then count + 1 else 0) ≤ count + 1 := by
    split
    · exact Nat.le_refl _
    · exact Nat.zero_le _
  simp only [potential, List.length_append, List.length_cons, ← hcount]
  by_cases hseen : next ∈ seen
  · -- a node that was seen: what it pushes is new, and stands on top
    have hsame := Nat.mul_le_mul_right (2 * count + 2)
      (unseen_add_le adjacencyList start next seen)
    have hbefore : (next :: paths).head?.any (· ∈ seen) = true := by
      rw [List.head?_cons, Option.any_some, decide_eq_true hseen]
    rw [if_pos hbefore]
    rcases hnew : pushed adjacencyList next (seen.add next) with _ | ⟨b, bs⟩
    · rw [hnew] at htop
      rw [List.length_nil]
      omega
    · have hb : b ∉ seen.add next :=
        (mem_pushed.mp (hnew ▸ List.mem_cons_self : b ∈ pushed adjacencyList next _)).2
      have hafter : (b :: bs ++ paths).head?.any (· ∈ seen.add next) = false := by
        rw [List.cons_append, List.head?_cons, Option.any_some, decide_eq_false hb]
      rw [hnew] at hpushed
      rw [hafter, if_neg Bool.false_ne_true]
      omega
  · have hless := Nat.mul_le_mul_right (2 * count + 2)
      (unseen_add_lt hseen (h.known next List.mem_cons_self))
    rw [Nat.succ_mul] at hless
    omega

theorem exists_hasPathRounds {start stop : String} (rounds : ℕ) :
    ∀ {seen : JsSet String} {paths : List String},
      Searching adjacencyList start stop seen paths →
      potential start adjacencyList seen paths < rounds →
      ∃ found, hasPathRounds stop adjacencyList rounds seen paths = some found ∧
        (found = true ↔ MainPath adjacencyList start stop) := by
  induction rounds with
  | zero => exact fun _ h => absurd h (Nat.not_lt_zero _)
  | succ rounds ih =>
    intro seen paths h hlt
    rcases paths with _ | ⟨next, paths⟩
    · -- all that can be reached was seen
      refine ⟨false, rfl, Bool.false_ne_true.elim, fun hpath => ?_⟩
      have hseen : ∀ a, MainPath adjacencyList start a → a ∈ seen := by
        intro a ha
        induction ha with
        | refl => exact h.started.resolve_right List.not_mem_nil
        | tail _ hedge iha => exact (h.closed _ iha _ hedge).resolve_right List.not_mem_nil
      exact absurd (hseen stop hpath) h.avoids
    · rw [hasPathRounds]
      by_cases hstop : next = stop
      · rw [if_pos hstop]
        exact ⟨true, rfl, iff_of_true rfl (hstop ▸ h.reached next (.inr List.mem_cons_self))⟩
      · rw [if_neg hstop]
        exact ih (h.push hstop)
          (Nat.lt_of_lt_of_le (potential_push h) (Nat.le_of_lt_succ hlt))

/-- **The search for a path ends, with the answer.** -/
theorem hasPath_eq (start stop : String) (adjacencyList : IConnectionAdjacencyList) :
    ∃ found, hasPath start stop adjacencyList = some found ∧
      (found = true ↔ MainPath adjacencyList start stop) := by
  refine exists_hasPathRounds (maxRounds adjacencyList) ⟨fun a ha => ?_, fun a ha => ?_,
    fun a ha => absurd ha (JsSet.not_mem_empty a), .inr (List.mem_singleton_self start),
    JsSet.not_mem_empty stop⟩ ?_
  · rcases ha with ha | ha
    · exact absurd ha (JsSet.not_mem_empty a)
    · rw [List.mem_singleton.mp ha]
      exact .refl
  · rw [List.mem_singleton.mp ha]
    exact List.mem_cons_self
  · have hunseen : unseen start adjacencyList JsSet.empty ≤ edgeCount adjacencyList + 1 := by
      rw [← length_allNodes start]
      exact List.length_filter_le _ _
    have hmul := Nat.mul_le_mul_right (2 * edgeCount adjacencyList + 2) hunseen
    have htop : [start].head?.any (· ∈ (JsSet.empty : JsSet String)) = false := by
      rw [List.head?_cons, Option.any_some, decide_eq_false (JsSet.not_mem_empty start)]
    rw [potential, htop, maxRounds, if_neg Bool.false_ne_true, List.length_singleton]
    omega

theorem exists_inside {α : Type*} {R : α → α → Prop} {S : α → Prop} {a stop : α}
    (hleave : ∀ x y, S x → R x y → ¬ S y → x = stop) (h : Relation.ReflTransGen R a stop)
    (ha : S a) : Relation.ReflTransGen (fun x y => R x y ∧ S x ∧ S y) a stop := by
  induction h using Relation.ReflTransGen.head_induction_on with
  | refl => exact .refl
  | @head x y hedge _ ih =>
    by_cases hy : S y
    · exact .head ⟨hedge, ha, hy⟩ (ih hy)
    · rw [hleave x y ha hedge hy]

/-- The node in which all edges from (to) outside end (begin): one at the end of the
selection, unless the selection has no such node. -/
def SoleEnd (IsEnd HasEdge : String → Prop) : Option String → Prop
  | none => ∀ a, ¬ HasEdge a
  | some node => HasEdge node ∧ (∀ a, HasEdge a → a = node) ∧ (IsEnd node ∨ ∀ a, ¬ IsEnd a)

theorem endErrors_eq_nil_iff {notAtEnd : String → ExtractableErrorResult}
    {multiple : JsSet String → ExtractableErrorResult} {nodes edgeNodes : JsSet String} :
    endErrors notAtEnd multiple nodes edgeNodes = [] ↔
      (∀ a ∈ edgeNodes, a ∈ nodes) ∧ ∀ a ∈ edgeNodes, ∀ b ∈ edgeNodes, a = b := by
  have hat : ((edgeNodes.difference nodes).elems.map notAtEnd = []) ↔
      ∀ a ∈ edgeNodes, a ∈ nodes := by
    rw [List.map_eq_nil_iff, ← List.length_eq_zero_iff]
    refine JsSet.size_eq_zero_iff.trans (forall_congr' fun a => ?_)
    rw [JsSet.mem_difference, not_and, not_not]
  have hone : ((if (nodes.intersection edgeNodes).size > 1 then
      [multiple (nodes.intersection edgeNodes)] else []) = []) ↔
      ∀ a ∈ nodes.intersection edgeNodes, ∀ b ∈ nodes.intersection edgeNodes, a = b := by
    rw [← JsSet.size_le_one_iff]
    split
    · next h => exact ⟨fun hnil => (List.cons_ne_nil _ _ hnil).elim, fun hle => by omega⟩
    · next h => exact iff_of_true rfl (Nat.le_of_not_lt h)
  rw [endErrors, List.append_eq_nil_iff, hat, hone]
  refine and_congr_right fun hin => ⟨fun h a ha b hb => ?_, fun h a ha b hb => ?_⟩
  · exact h a (JsSet.mem_intersection.mpr ⟨hin a ha, ha⟩) b
      (JsSet.mem_intersection.mpr ⟨hin b hb, hb⟩)
  · exact h a (JsSet.mem_intersection.mp ha).2 b (JsSet.mem_intersection.mp hb).2

theorem forall_mem_tolerated {nodes edgeNodes : JsSet String}
    (hone : ∀ a ∈ edgeNodes, ∀ b ∈ edgeNodes, a = b) :
    (∀ a ∈ edgeNodes, a ∈ tolerated nodes edgeNodes) ↔
      ∀ a ∈ edgeNodes, a ∈ nodes ∨ ∀ b, b ∉ nodes := by
  rw [tolerated]
  split
  · next h =>
    exact iff_of_true (fun a ha => ha) fun a _ => .inr (JsSet.size_eq_zero_iff.mp h.1)
  · next h =>
    refine forall_congr' fun a => forall_congr' fun ha => (or_iff_left fun hnone => h ?_).symm
    have hsize : edgeNodes.size ≠ 0 := fun h0 => JsSet.size_eq_zero_iff.mp h0 a ha
    have hle := JsSet.size_le_one_iff.mpr hone
    exact ⟨JsSet.size_eq_zero_iff.mpr hnone, by omega⟩

theorem soleEnd_iff (notAtEnd : String → ExtractableErrorResult)
    (multiple : JsSet String → ExtractableErrorResult) {nodes edgeNodes : JsSet String}
    {IsEnd HasEdge : String → Prop} (hnodes : ∀ a, a ∈ nodes ↔ IsEnd a)
    (hedges : ∀ a, a ∈ edgeNodes ↔ HasEdge a) (node : Option String) :
    SoleEnd IsEnd HasEdge node ↔
      endErrors notAtEnd multiple (tolerated nodes edgeNodes) edgeNodes = [] ∧
        ((tolerated nodes edgeNodes).intersection edgeNodes).first? = node := by
  rw [endErrors_eq_nil_iff]
  constructor
  · intro h
    rcases node with _ | node
    · have hnone : ∀ a, a ∉ edgeNodes := fun a ha => h a ((hedges a).mp ha)
      exact ⟨⟨fun a ha => absurd ha (hnone a), fun a ha => absurd ha (hnone a)⟩,
        JsSet.first?_eq_none_iff.mpr fun a ha => hnone a (JsSet.mem_intersection.mp ha).2⟩
    · obtain ⟨hedge, hsole, hend⟩ := h
      have hall : ∀ a ∈ edgeNodes, a = node := fun a ha => hsole a ((hedges a).mp ha)
      have hone : ∀ a ∈ edgeNodes, ∀ b ∈ edgeNodes, a = b := fun a ha b hb =>
        (hall a ha).trans (hall b hb).symm
      have hin : ∀ a ∈ edgeNodes, a ∈ tolerated nodes edgeNodes := by
        refine (forall_mem_tolerated hone).mpr fun a ha => ?_
        rw [hall a ha, hnodes]
        exact hend.imp_right fun hnone b hb => hnone b ((hnodes b).mp hb)
      have hnode := (hedges node).mpr hedge
      exact ⟨⟨hin, hone⟩, JsSet.first?_eq_some
        (JsSet.mem_intersection.mpr ⟨hin node hnode, hnode⟩)
        fun b hb => hall b (JsSet.mem_intersection.mp hb).2⟩
  · rintro ⟨⟨hin, hone⟩, hfirst⟩
    rcases node with _ | node
    · intro a ha
      have ha := (hedges a).mpr ha
      exact JsSet.first?_eq_none_iff.mp hfirst a (JsSet.mem_intersection.mpr ⟨hin a ha, ha⟩)
    · have hnode := (JsSet.mem_intersection.mp (JsSet.first?_mem hfirst)).2
      refine ⟨(hedges node).mp hnode, fun a ha => hone a ((hedges a).mpr ha) node hnode, ?_⟩
      refine ((forall_mem_tolerated hone).mp hin node hnode).imp (hnodes node).mp ?_
      exact fun hnone a ha => hnone a ((hnodes a).mpr ha)

/-- **What an extractable selection is**, with its start and end. -/
structure Extractable (graphIds : JsSet String) (adjacencyList : IConnectionAdjacencyList)
    (data : ExtractableSubgraphData) : Prop where
  entry : SoleEnd (IsRoot graphIds adjacencyList) (IsEntered graphIds adjacencyList) data.start
  exit : SoleEnd (IsLeaf graphIds adjacencyList) (IsLeft graphIds adjacencyList) data.stop
  path : ∀ start stop, data.start = some start → data.stop = some stop →
    MainPath adjacencyList start stop

/-- What the parser should say of a selection. -/
structure ParsedWell (graphIds : JsSet String) (adjacencyList : IConnectionAdjacencyList) :
    Prop where
  searches : ∀ start stop, ∃ found, hasPath start stop adjacencyList = some found
  ends : ∃ result, parseExtractableSubgraphSelection graphIds adjacencyList = some result
  accepts : ∀ data, parseExtractableSubgraphSelection graphIds adjacencyList = some (.ok data) ↔
    Extractable graphIds adjacencyList data
  inside : ∀ start stop, parseExtractableSubgraphSelection graphIds adjacencyList =
      some (.ok ⟨some start, some stop⟩) →
    Relation.ReflTransGen (fun a b => MainEdge adjacencyList a b ∧ a ∈ graphIds ∧ b ∈ graphIds)
      start stop

/-- An empty name at both ends of the selection goes with a path. -/
def EmptyNamesJoined (graphIds : JsSet String) (adjacencyList : IConnectionAdjacencyList) : Prop :=
  ∀ start stop,
    SoleEnd (IsRoot graphIds adjacencyList) (IsEntered graphIds adjacencyList) (some start) →
    SoleEnd (IsLeaf graphIds adjacencyList) (IsLeft graphIds adjacencyList) (some stop) →
    start = "" ∨ stop = "" → MainPath adjacencyList start stop

theorem exists_pathErrors (start stop : Option String) (adjacencyList : IConnectionAdjacencyList) :
    ∃ errors, pathErrors start stop adjacencyList = some errors ∧
      (errors = [] ↔ ∀ a b, start = some a → stop = some b → a ≠ "" → b ≠ "" →
        MainPath adjacencyList a b) := by
  rcases start with _ | a
  · exact ⟨[], rfl, iff_of_true rfl fun _ _ h => by cases h⟩
  · rcases stop with _ | b
    · exact ⟨[], rfl, iff_of_true rfl fun _ _ _ h => by cases h⟩
    · by_cases hnames : a ≠ "" ∧ b ≠ ""
      · obtain ⟨found, hfound, hiff⟩ := hasPath_eq a b adjacencyList
        refine ⟨if found then [] else [.noContinuousPathFromRootToLeaf a b], ?_, ?_⟩
        · rw [pathErrors, if_pos hnames, hfound]
          rfl
        · have hpath : (∀ a' b', some a = some a' → some b = some b' → a' ≠ "" → b' ≠ "" →
              MainPath adjacencyList a' b') ↔ MainPath adjacencyList a b :=
            ⟨fun h => h a b rfl rfl hnames.1 hnames.2, fun h a' b' ha hb _ _ => by
              rwa [← Option.some.inj ha, ← Option.some.inj hb]⟩
          rw [hpath, ← hiff]
          cases found <;> simp
      · refine ⟨[], by rw [pathErrors, if_neg hnames], iff_of_true rfl ?_⟩
        intro a' b' ha hb ha' hb'
        cases ha
        cases hb
        exact absurd ⟨ha', hb'⟩ hnames

theorem exists_parse (graphIds : JsSet String) (adjacencyList : IConnectionAdjacencyList) :
    ∃ result, parseExtractableSubgraphSelection graphIds adjacencyList = some result ∧
      ∀ data, result = .ok data ↔
        SoleEnd (IsRoot graphIds adjacencyList) (IsEntered graphIds adjacencyList) data.start ∧
        SoleEnd (IsLeaf graphIds adjacencyList) (IsLeft graphIds adjacencyList) data.stop ∧
        ∀ a b, data.start = some a → data.stop = some b → a ≠ "" → b ≠ "" →
          MainPath adjacencyList a b := by
  obtain ⟨errors, herrors, hpath⟩ := exists_pathErrors
    ((tolerated (getRootNodes graphIds adjacencyList)
      (inputNodes graphIds adjacencyList)).intersection (inputNodes graphIds adjacencyList)).first?
    ((tolerated (getLeafNodes graphIds adjacencyList)
      (outputNodes graphIds adjacencyList)).intersection
        (outputNodes graphIds adjacencyList)).first? adjacencyList
  rw [parseExtractableSubgraphSelection, herrors]
  refine ⟨_, rfl, fun data => ?_⟩
  rw [soleEnd_iff .inputEdgeToNonRootNode .multipleInputNodes (fun _ => mem_getRootNodes)
      (fun _ => mem_inputNodes),
    soleEnd_iff .outputEdgeFromNonLeafNode .multipleOutputNodes (fun _ => mem_getLeafNodes)
      (fun _ => mem_outputNodes)]
  split
  · next hlen =>
    -- an error was found, at an end or on the way
    refine ⟨fun h => (by cases h), ?_⟩
    rintro ⟨⟨hin, hstart⟩, ⟨hout, hstop⟩, hmid⟩
    have hnil : errors = [] := hpath.mpr fun a b ha hb => hmid a b (hstart ▸ ha) (hstop ▸ hb)
    rw [hin, hout, hnil] at hlen
    exact absurd hlen (Nat.not_lt_zero _)
  · next hlen =>
    have hnil := List.eq_nil_of_length_eq_zero (Nat.eq_zero_of_not_pos hlen)
    obtain ⟨hends, hmid⟩ := List.append_eq_nil_iff.mp hnil
    obtain ⟨hin, hout⟩ := List.append_eq_nil_iff.mp hends
    constructor
    · intro h
      cases h
      exact ⟨⟨hin, rfl⟩, ⟨hout, rfl⟩, hpath.mp hmid⟩
    · rintro ⟨⟨-, hstart⟩, ⟨-, hstop⟩, -⟩
      rw [hstart, hstop]

/-- **The selections that the parser reads as described**, whatever the graph. -/
theorem extractable_iff (graphIds : JsSet String) (adjacencyList : IConnectionAdjacencyList) :
    ParsedWell graphIds adjacencyList ↔ EmptyNamesJoined graphIds adjacencyList := by
  obtain ⟨result, hparse, hok⟩ := exists_parse graphIds adjacencyList
  have hresult : ∀ data, parseExtractableSubgraphSelection graphIds adjacencyList =
      some (.ok data) ↔ result = .ok data := fun data => by rw [hparse, Option.some_inj]
  constructor
  · intro h start stop hentry hexit hempty
    have haccept : result = .ok ⟨some start, some stop⟩ := by
      refine (hok _).mpr ⟨hentry, hexit, fun a b ha hb hane hbne => ?_⟩
      cases ha
      cases hb
      exact hempty.elim (fun heq => absurd heq hane) fun heq => absurd heq hbne
    exact ((h.accepts _).mp ((hresult _).mpr haccept)).path start stop rfl rfl
  · intro h
    have haccepts : ∀ data, parseExtractableSubgraphSelection graphIds adjacencyList =
        some (.ok data) ↔ Extractable graphIds adjacencyList data := by
      intro data
      rw [hresult, hok]
      constructor
      · rintro ⟨hentry, hexit, hpath⟩
        refine ⟨hentry, hexit, fun start stop hstart hstop => ?_⟩
        by_cases hempty : start = "" ∨ stop = ""
        · exact h start stop (hstart ▸ hentry) (hstop ▸ hexit) hempty
        · rw [not_or] at hempty
          exact hpath start stop hstart hstop hempty.1 hempty.2
      · exact fun hdata => ⟨hdata.entry, hdata.exit, fun a b ha hb _ _ => hdata.path a b ha hb⟩
    refine ⟨fun start stop => ?_, ⟨result, hparse⟩, haccepts, fun start stop hparse => ?_⟩
    · obtain ⟨found, hfound, -⟩ := hasPath_eq start stop adjacencyList
      exact ⟨found, hfound⟩
    · have hdata := (haccepts _).mp hparse
      -- edges out of the selection begin at the end of the path only
      refine exists_inside (S := fun a => a ∈ graphIds) (fun a b ha hedge hb => ?_)
        (hdata.path start stop rfl rfl) hdata.entry.1.1
      exact hdata.exit.2.1 a ⟨ha, b, hb, hedge⟩

/-- A main connection into the selection, to a node with an empty name, and one out of it;
the two nodes are not connected. -/
def unnamedStart : IConnectionAdjacencyList :=
  (Dict.empty.set "Trigger" [⟨"", .main, 0⟩]).set "Set" [⟨"Slack", .main, 0⟩]

theorem not_parsedWell_unnamedStart :
    ¬ ParsedWell (JsSet.ofList ["", "Set"]) unnamedStart := by
  intro h
  have hparse : parseExtractableSubgraphSelection (JsSet.ofList ["", "Set"]) unnamedStart =
      some (.ok ⟨some "", some "Set"⟩) := by
    decide +kernel
  have hpath := ((h.accepts _).mp hparse).path "" "Set" rfl rfl
  obtain ⟨found, hfound, hiff⟩ := hasPath_eq "" "Set" unnamedStart
  have hnone : hasPath "" "Set" unnamedStart = some false := by decide +kernel
  rw [hnone] at hfound
  exact Bool.false_ne_true ((Option.some.inj hfound).trans (hiff.mpr hpath))

end N8n.GraphUtils
