/-
Start nodes inside loops.

`handleCycles` moves each start node that lies in a component of the graph to the node of the
component that a depth-first search from the trigger meets first.  The components are those
that `getStronglyConnectedComponents` finds, which may miss some of their nodes.

* `handleCycles_iff` — **every set of start nodes is moved to the first nodes of their components
  iff all nodes the trigger reaches are linked to the entries of their components**.
-/
import N8n.Collect
import N8n.StronglyConnectedComponents
import Mathlib.Data.List.Pairwise

namespace N8n

open DepthFirst

namespace DirectedGraph

/-- The loop over the children: the first node that a search from one of them finds. -/
def firstFound (search : String → List String → Except JsError (Option String × List String)) :
    List String → List String → Except JsError (Option String × List String)
  | [], seen => .ok (none, seen)
  | child :: children, seen => do
    let (found, seen) ← search child seen
    match found with
    | some node => .ok (some node, seen)
    | none => firstFound search children seen

/-- The search from a node, calls at most so many deep; `seen` is returned as it is left. -/
def depthFirstSearchRecursive (g : DirectedGraph) (fn : String → Bool) :
    ℕ → String → List String → Except JsError (Option String × List String)
  | 0, _, _ => .error (.raised "Maximum call stack size exceeded")
  | depth + 1, node, seen =>
    if node ∈ seen then .ok (none, seen)
    else if fn node then .ok (some node, node :: seen)
    else do
      let directChildren ← g.directChildren node
      firstFound (depthFirstSearchRecursive g fn depth) directChildren (node :: seen)

def depthFirstSearch (g : DirectedGraph) (node : String) (fn : String → Bool) :
    Except JsError (Option String) := do
  let (found, _) ← depthFirstSearchRecursive g fn (g.nodes.keys.length + 1) node []
  return found

/-- The nodes in the order of a depth-first search from the trigger, the last one first. -/
def preorder (g : DirectedGraph) (trigger : String) : List String :=
  (scan g.succ (g.nodes.keys.length + 1) {} trigger).visited

section

variable {g : DirectedGraph}
  {search : String → List String → Except JsError (Option String × List String)}

theorem firstFound_of_none
    {child : String} {children seen seen' : List String}
    (h : search child seen = .ok (none, seen')) :
    firstFound search (child :: children) seen = firstFound search children seen' := by
  rw [firstFound, h]
  rfl

theorem firstFound_of_some
    {child node : String} {children seen seen' : List String}
    (h : search child seen = .ok (some node, seen')) :
    firstFound search (child :: children) seen = .ok (some node, seen') := by
  rw [firstFound, h]
  rfl

/-- What the search returns after the visits from `w` to `w'`. -/
def SearchResult (fn : String → Bool) (w w' : Scan String) (r : Option String × List String) :
    Prop :=
  ∃ new, w'.visited = new ++ w.visited ∧ r.1 = new.reverse.find? fn ∧
    (r.1 = none → r.2 = w'.visited)

theorem depthFirstSearchRecursive_eq (hg : Closed g) (fn : String → Bool) (depth : ℕ) :
    ∀ {w : Scan String} {v : String}, w.visited.Nodup → w.visited ⊆ g.nodes.keys →
      v ∈ g.nodes.keys → g.nodes.keys.length < depth + w.visited.length →
      ∃ r, depthFirstSearchRecursive g fn depth v w.visited = .ok r ∧
        SearchResult fn w (scan g.succ depth w v) r := by
  have hK : ∀ a ∈ g.nodes.keys, ∀ b ∈ g.succ a, b ∈ g.nodes.keys := fun a _ b hb => hg.succ_mem hb
  induction depth with
  | zero =>
    intro w v hnodup hsub _ hdepth
    have hle := (List.subperm_of_subset hnodup hsub).length_le
    omega
  | succ depth ih =>
    intro w v hnodup hsub hv hdepth
    rw [depthFirstSearchRecursive, scan]
    by_cases hseen : v ∈ w.visited
    · rw [if_pos hseen, if_pos hseen]
      exact ⟨_, rfl, [], rfl, rfl, fun _ => rfl⟩
    rw [if_neg hseen, if_neg hseen]
    have hloop : ∀ (cs : List String) (w : Scan String), cs ⊆ g.nodes.keys → w.visited.Nodup →
        w.visited ⊆ g.nodes.keys → g.nodes.keys.length < depth + w.visited.length →
        ∃ r, firstFound (depthFirstSearchRecursive g fn depth) cs w.visited = .ok r ∧
          SearchResult fn w (scanEdges (scan g.succ depth) v w cs) r := by
      intro cs
      induction cs with
      | nil => exact fun w _ _ _ _ => ⟨_, rfl, [], rfl, rfl, fun _ => rfl⟩
      | cons c cs ihcs =>
        intro w hcs hnodup hsub hdepth
        obtain ⟨hc, hcs⟩ := List.cons_subset.mp hcs
        obtain ⟨r, hr, new, hnew, hfound, hseen⟩ := ih hnodup hsub hc hdepth
        obtain ⟨hvisits, -⟩ := visits_scan hK depth hnodup hsub hc hdepth
        have hlen := hvisits.length_le
        obtain ⟨-, -, hnodup', hsub', -⟩ := hvisits
        obtain ⟨r', hr', new', hnew', hfound', hseen'⟩ := ihcs ((scan g.succ depth w c).examine v c)
          hcs hnodup' hsub' (hdepth.trans_le (Nat.add_le_add_left hlen depth))
        have hboth : (scanEdges (scan g.succ depth) v w (c :: cs)).visited
            = (new' ++ new) ++ w.visited := by
          rw [List.append_assoc, ← hnew]
          exact hnew'
        obtain ⟨found, seen⟩ := r
        simp only at hfound hseen
        cases found with
        | none =>
          refine ⟨r', ?_, _, hboth, ?_, hseen'⟩
          · rw [firstFound_of_none hr, hseen rfl]
            exact hr'
          · rw [List.reverse_append, List.find?_append, ← hfound, Option.none_or]
            exact hfound'
        | some node =>
          refine ⟨_, firstFound_of_some hr, _, hboth, ?_, fun h => by cases h⟩
          rw [List.reverse_append, List.find?_append, ← hfound, Option.some_or]
    have hdepth' : g.nodes.keys.length < depth + (w.enter v).visited.length := by
      have hlen : (w.enter v).visited.length = w.visited.length + 1 := rfl
      omega
    obtain ⟨r, hr, new, hnew, hfound, hleft⟩ := hloop (g.succ v) (w.enter v) (hK v hv)
      (List.nodup_cons.mpr ⟨hseen, hnodup⟩) (List.cons_subset.mpr ⟨hv, hsub⟩) hdepth'
    have hboth : (scanEdges (scan g.succ depth) v (w.enter v) (g.succ v)).visited
        = (new ++ [v]) ++ w.visited := by
      rw [hnew]
      simp [Scan.enter]
    by_cases hv' : fn v = true
    · rw [if_pos hv']
      refine ⟨_, rfl, _, hboth, ?_, fun h => by cases h⟩
      rw [List.reverse_append, List.find?_append]
      simp [hv']
    · rw [if_neg hv', hg.directChildren hv]
      refine ⟨r, hr, _, hboth, ?_, hleft⟩
      rw [List.reverse_append, List.find?_append]
      simpa [hv'] using hfound

variable {trigger : String}

theorem depthFirstSearch_eq (hg : Closed g) (ht : trigger ∈ g.nodes.keys)
    (fn : String → Bool) :
    g.depthFirstSearch trigger fn = .ok ((g.preorder trigger).reverse.find? fn) := by
  obtain ⟨r, hr, new, hnew, hfound, -⟩ := depthFirstSearchRecursive_eq hg fn
    (g.nodes.keys.length + 1) (w := {}) List.nodup_nil (List.nil_subset _) ht (by simp)
  rw [depthFirstSearch, hr, preorder, hnew, List.append_nil]
  exact congrArg Except.ok hfound

theorem nodup_preorder (hg : Closed g) (ht : trigger ∈ g.nodes.keys) :
    (g.preorder trigger).Nodup ∧ g.preorder trigger ⊆ g.nodes.keys := by
  obtain ⟨⟨-, -, hnodup, hsub, -⟩, -⟩ := visits_scan (w := {}) (fun a _ b hb => hg.succ_mem hb)
    (g.nodes.keys.length + 1) List.nodup_nil (List.nil_subset _) ht (by simp)
  exact ⟨hnodup, hsub⟩

end

def moveStartNode (graph : DirectedGraph) (trigger startNode : String)
    (newStartNodes cycle : List String) : Except JsError (List String) :=
  if startNode ∈ cycle then do
    match ← graph.depthFirstSearch trigger (fun node => decide (node ∈ cycle)) with
    | some firstNode => .ok (setAdd (newStartNodes.erase startNode) firstNode)
    | none => .error .assertionError
  else .ok newStartNodes

def handleCycles (graph : DirectedGraph) (startNodes : List String) (trigger : String) :
    Except JsError (List String) := do
  let components ← graph.getStronglyConnectedComponents
  let cycles := components.filter fun cycle => decide (1 ≤ cycle.length)
  if cycles.length = 0 then return startNodes
  startNodes.foldlM (fun newStartNodes startNode =>
    cycles.foldlM (moveStartNode graph trigger startNode) newStartNodes) startNodes

/-- The node is the first one, in the order of a search from the trigger, that `startNode` and
it reach each other. -/
def IsFirst (g : DirectedGraph) (trigger startNode node : String) : Prop :=
  IsEntry g.succ (g.preorder trigger) node ∧ SameComponent g.succ node startNode

/-- The result is the set of the first nodes of the components the start nodes lie in. -/
def MovedToFirst (g : DirectedGraph) (trigger : String) (startNodes result : List String) : Prop :=
  result.Nodup ∧ ∀ node, node ∈ result ↔ ∃ startNode ∈ startNodes, IsFirst g trigger startNode node

/-- The first node of the preorder that was found in one set with the start node, or the start
node itself. -/
def replacement (g : DirectedGraph) (sets : List (List String)) (trigger startNode : String) :
    String :=
  ((g.preorder trigger).reverse.find? fun node =>
    decide (∃ set ∈ sets, startNode ∈ set ∧ node ∈ set)).getD startNode

section

variable {g : DirectedGraph} {sets : List (List String)} {trigger startNode : String}

theorem Found.eq_of_mem (h : Found g sets) {set set' : List String} (hset : set ∈ sets)
    (hset' : set' ∈ sets) {x : String} (hx : x ∈ set) (hx' : x ∈ set') : set = set' := by
  by_contra hne
  have hsymm : Std.Symm (List.Disjoint (α := String)) := ⟨fun _ _ h _ hb ha => h ha hb⟩
  exact (List.nodup_flatten.mp h.disjoint).2.forall hset hset' hne hx hx'

theorem replacement_of_not_mem (h : ∀ set ∈ sets, startNode ∉ set) :
    replacement g sets trigger startNode = startNode := by
  have hnone : ((g.preorder trigger).reverse.find? fun node =>
      decide (∃ set ∈ sets, startNode ∈ set ∧ node ∈ set)) = none := by
    refine List.find?_eq_none.mpr fun node _ => ?_
    rw [decide_eq_true_iff]
    rintro ⟨set, hset, hmem, -⟩
    exact h set hset hmem
  rw [replacement, hnone]
  rfl

theorem mem_preorder (hg : Closed g) (ht : trigger ∈ g.nodes.keys) {node : String}
    (h : Reaches g.succ trigger node) : node ∈ g.preorder trigger :=
  mem_scan_of_reaches (fun _ _ _ hb => hg.succ_mem hb) ht h

section

variable (hg : Closed g) (ht : trigger ∈ g.nodes.keys) (hfound : Found g sets)
include hg ht hfound

theorem replacement_spec {set : List String} (hset : set ∈ sets) (hmem : startNode ∈ set)
    (hreach : Reaches g.succ trigger startNode) :
    g.depthFirstSearch trigger (fun node => decide (node ∈ set))
        = .ok (some (replacement g sets trigger startNode)) ∧
      replacement g sets trigger startNode ∈ g.preorder trigger ∧
      replacement g sets trigger startNode ∈ set ∧
      ∀ x ∈ g.preorder trigger, x ∈ set →
        rank (g.preorder trigger) (replacement g sets trigger startNode)
          ≤ rank (g.preorder trigger) x := by
  have hpred : (fun node => decide (∃ set ∈ sets, startNode ∈ set ∧ node ∈ set))
      = fun node => decide (node ∈ set) := by
    funext node
    refine decide_eq_decide.mpr ⟨?_, fun h => ⟨set, hset, hmem, h⟩⟩
    rintro ⟨set', hset', hmem', hnode⟩
    rwa [hfound.eq_of_mem hset hset' hmem hmem']
  rcases hfirst : (g.preorder trigger).reverse.find? fun node => decide (node ∈ set) with _ | r
  · have hnone := List.find?_eq_none.mp hfirst startNode
      (List.mem_reverse.mpr (mem_preorder hg ht hreach))
    exact absurd (decide_eq_true hmem) hnone
  · have hr : replacement g sets trigger startNode = r := by
      rw [replacement, hpred, hfirst]
      rfl
    obtain ⟨hvisited, hin, hmin⟩ := (find?_reverse_eq_some (nodup_preorder hg ht).1).mp hfirst
    rw [hr, depthFirstSearch_eq hg ht, hfirst]
    exact ⟨rfl, hvisited, of_decide_eq_true hin, fun x hx hxset => hmin x hx (decide_eq_true hxset)⟩

theorem sameComponent_replacement (hreach : Reaches g.succ trigger startNode) :
    SameComponent g.succ (replacement g sets trigger startNode) startNode := by
  by_cases h : ∃ set ∈ sets, startNode ∈ set
  · obtain ⟨set, hset, hmem⟩ := h
    obtain ⟨-, -, hin, -⟩ := replacement_spec hg ht hfound hset hmem hreach
    exact (hfound.same set hset _ hin).2 _ hmem
  · rw [replacement_of_not_mem fun set hset hmem => h ⟨set, hset, hmem⟩]
    exact .refl _

theorem replacement_replacement (hreach : Reaches g.succ trigger startNode) :
    replacement g sets trigger (replacement g sets trigger startNode)
      = replacement g sets trigger startNode := by
  by_cases h : ∃ set ∈ sets, startNode ∈ set
  · obtain ⟨set, hset, hmem⟩ := h
    obtain ⟨hfirst, -, hin, -⟩ := replacement_spec hg ht hfound hset hmem hreach
    have hreach' := hreach.trans (sameComponent_replacement hg ht hfound hreach).2
    obtain ⟨hfirst', -⟩ := replacement_spec hg ht hfound hset hin hreach'
    rw [hfirst, Except.ok.injEq, Option.some.injEq] at hfirst'
    exact hfirst'.symm
  · have hself : replacement g sets trigger startNode = startNode :=
      replacement_of_not_mem fun set hset hmem => h ⟨set, hset, hmem⟩
    rw [hself, hself]

theorem movesToFirst_iff (hreach : Reaches g.succ trigger startNode) :
    IsFirst g trigger startNode (replacement g sets trigger startNode) ↔
      IsFirst g trigger startNode startNode ∨
        ∃ set ∈ sets, startNode ∈ set ∧ ∃ first ∈ set, IsFirst g trigger startNode first := by
  by_cases h : ∃ set ∈ sets, startNode ∈ set
  · obtain ⟨set, hset, hmem⟩ := h
    obtain ⟨-, hvisited, hin, hmin⟩ := replacement_spec hg ht hfound hset hmem hreach
    have hsame := sameComponent_replacement hg ht hfound hreach
    -- the first node of the set is the first node of the component if that is in the set
    have hfirst : ∀ first ∈ set, IsFirst g trigger startNode first →
        IsFirst g trigger startNode (replacement g sets trigger startNode) := by
      rintro first hmemFirst ⟨hentry, hsameFirst⟩
      have hge := hentry.2 _ hvisited (hsame.trans hsameFirst.symm)
      have hle := hmin first hentry.1 hmemFirst
      rw [rank_inj hvisited hentry.1 (le_antisymm hle hge)]
      exact ⟨hentry, hsameFirst⟩
    constructor
    · exact fun hr => .inr ⟨set, hset, hmem, _, hin, hr⟩
    · rintro (hself | ⟨set', hset', hmem', first, hmemFirst, hr⟩)
      · exact hfirst startNode hmem hself
      · rw [← hfound.eq_of_mem hset hset' hmem hmem'] at hmemFirst
        exact hfirst first hmemFirst hr
  · rw [replacement_of_not_mem fun set hset hmem => h ⟨set, hset, hmem⟩]
    refine ⟨.inl, fun hself => hself.resolve_right ?_⟩
    rintro ⟨set, hset, hmem, -⟩
    exact h ⟨set, hset, hmem⟩

end

theorem foldlM_moveStartNode_of_not_mem {cycles : List (List String)}
    (h : ∀ cycle ∈ cycles, startNode ∉ cycle) (newStartNodes : List String) :
    cycles.foldlM (moveStartNode g trigger startNode) newStartNodes = .ok newStartNodes := by
  induction cycles with
  | nil => rfl
  | cons cycle cycles ih =>
    obtain ⟨hcycle, h⟩ := List.forall_mem_cons.mp h
    rw [List.foldlM_cons, moveStartNode, if_neg hcycle]
    exact ih h

section

variable (hg : Closed g) (ht : trigger ∈ g.nodes.keys) (hfound : Found g sets)
include hg ht hfound

theorem foldlM_moveStartNode (hreach : Reaches g.succ trigger startNode)
    (newStartNodes : List String) :
    sets.foldlM (moveStartNode g trigger startNode) newStartNodes
      = .ok (if ∃ set ∈ sets, startNode ∈ set then
          setAdd (newStartNodes.erase startNode) (replacement g sets trigger startNode)
        else newStartNodes) := by
  by_cases h : ∃ set ∈ sets, startNode ∈ set
  · rw [if_pos h]
    obtain ⟨set, hset, hmem⟩ := h
    obtain ⟨pre, post, rfl⟩ := List.append_of_mem hset
    have hdisjoint := (List.nodup_flatten.mp hfound.disjoint).2
    rw [List.pairwise_append, List.pairwise_cons] at hdisjoint
    have hpre : ∀ cycle ∈ pre, startNode ∉ cycle := fun cycle hcycle hin =>
      hdisjoint.2.2 cycle hcycle set List.mem_cons_self hin hmem
    have hpost : ∀ cycle ∈ post, startNode ∉ cycle := fun cycle hcycle hin =>
      hdisjoint.2.1.1 cycle hcycle hmem hin
    obtain ⟨hfirst, -⟩ := replacement_spec hg ht hfound hset hmem hreach
    have hround : moveStartNode g trigger startNode newStartNodes set
        = .ok (setAdd (newStartNodes.erase startNode)
          (replacement g (pre ++ set :: post) trigger startNode)) := by
      rw [moveStartNode, if_pos hmem, hfirst]
      rfl
    rw [List.foldlM_append, foldlM_moveStartNode_of_not_mem hpre]
    show (set :: post).foldlM (moveStartNode g trigger startNode) newStartNodes = _
    rw [List.foldlM_cons, hround]
    exact foldlM_moveStartNode_of_not_mem hpost _
  · rw [if_neg h]
    exact foldlM_moveStartNode_of_not_mem (fun set hset hmem => h ⟨set, hset, hmem⟩) _

theorem foldlM_startNodes : ∀ (rest done newStartNodes : List String),
    (∀ s ∈ rest, Reaches g.succ trigger s) → (∀ s ∈ done, Reaches g.succ trigger s) → rest.Nodup →
    newStartNodes.Nodup →
    (∀ x, x ∈ newStartNodes ↔ (∃ s ∈ done, x = replacement g sets trigger s) ∨ x ∈ rest) →
    ∃ result, rest.foldlM (fun newStartNodes startNode =>
        sets.foldlM (moveStartNode g trigger startNode) newStartNodes) newStartNodes = .ok result ∧
      result.Nodup ∧
      ∀ x, x ∈ result ↔ ∃ s ∈ done ++ rest, x = replacement g sets trigger s := by
  intro rest
  induction rest with
  | nil =>
    intro done newStartNodes _ _ _ hnodup hmem
    refine ⟨newStartNodes, rfl, hnodup, fun x => ?_⟩
    rw [hmem, List.append_nil]
    exact or_iff_left List.not_mem_nil
  | cons s rest ih =>
    intro done newStartNodes hreach hdone hrest hnodup hmem
    obtain ⟨hs, hreach⟩ := List.forall_mem_cons.mp hreach
    obtain ⟨hnew, hrest⟩ := List.nodup_cons.mp hrest
    rw [List.foldlM_cons, foldlM_moveStartNode hg ht hfound hs]
    set moved := if ∃ set ∈ sets, s ∈ set then
        setAdd (newStartNodes.erase s) (replacement g sets trigger s)
      else newStartNodes with hmoved
    have hmovedNodup : moved.Nodup := by
      rw [hmoved]
      split
      · exact nodup_setAdd (hnodup.erase _) _
      · exact hnodup
    have hmovedMem : ∀ x, x ∈ moved ↔
        (∃ t ∈ done ++ [s], x = replacement g sets trigger t) ∨ x ∈ rest := by
      intro x
      have hsplit : (∃ t ∈ done ++ [s], x = replacement g sets trigger t) ↔
          (∃ t ∈ done, x = replacement g sets trigger t) ∨ x = replacement g sets trigger s := by
        simp only [List.mem_append, List.mem_singleton, or_and_right, exists_or, exists_eq_left]
      rw [hsplit, hmoved]
      split
      · rw [mem_setAdd, hnodup.mem_erase_iff, hmem, List.mem_cons]
        constructor
        · rintro (⟨hne, h | h⟩ | h)
          · exact .inl (.inl h)
          · exact .inr (h.resolve_left hne)
          · exact .inl (.inr h)
        · rintro ((⟨t, htd, hx⟩ | h) | h)
          · by_cases hxs : x = s
            · -- a start node that another one was moved to is moved to itself
              refine .inr ?_
              rw [← hxs, hx, replacement_replacement hg ht hfound (hdone t htd)]
            · exact .inl ⟨hxs, .inl ⟨t, htd, hx⟩⟩
          · exact .inr h
          · exact .inl ⟨fun heq => hnew (heq ▸ h), .inr (.inr h)⟩
      · rename_i hnot
        rw [replacement_of_not_mem fun set hset hin => hnot ⟨set, hset, hin⟩, hmem, List.mem_cons,
          or_assoc]
    obtain ⟨result, hfold, hresult, hiff⟩ := ih (done ++ [s]) moved hreach
      (List.forall_mem_append.mpr ⟨hdone, List.forall_mem_singleton.mpr hs⟩) hrest hmovedNodup
      hmovedMem
    refine ⟨result, hfold, hresult, fun x => ?_⟩
    rw [hiff, List.append_assoc]
    rfl

variable {startNodes : List String}

theorem exists_handleCycles (hsets : g.getStronglyConnectedComponents = .ok sets) (hnodup : startNodes.Nodup)
    (hreach : ∀ s ∈ startNodes, Reaches g.succ trigger s) :
    ∃ result, g.handleCycles startNodes trigger = .ok result ∧ result.Nodup ∧
      ∀ x, x ∈ result ↔ ∃ s ∈ startNodes, x = replacement g sets trigger s := by
  have hall : sets.filter (fun cycle => decide (1 ≤ cycle.length)) = sets := by
    refine List.filter_eq_self.mpr fun set hset => decide_eq_true ?_
    exact List.length_pos_of_ne_nil (hfound.nonempty set hset)
  rw [handleCycles, hsets]
  show ∃ result, (if (sets.filter fun cycle => decide (1 ≤ cycle.length)).length = 0
    then _ else _) = _ ∧ _
  rw [hall]
  split
  · rename_i hzero
    have hempty := List.eq_nil_of_length_eq_zero hzero
    refine ⟨startNodes, rfl, hnodup, fun x => ?_⟩
    have hself : ∀ s, replacement g sets trigger s = s := fun s =>
      replacement_of_not_mem fun set hset => by rw [hempty] at hset; cases hset
    simp only [hself, exists_eq_right']
  · exact foldlM_startNodes hg ht hfound startNodes [] startNodes hreach (fun s hs => by cases hs)
      hnodup hnodup fun x => by simp

theorem movedToFirst_iff (hsets : g.getStronglyConnectedComponents = .ok sets) (hnodup : startNodes.Nodup)
    (hreach : ∀ s ∈ startNodes, Reaches g.succ trigger s) :
    (∃ result, g.handleCycles startNodes trigger = .ok result ∧
        MovedToFirst g trigger startNodes result) ↔
      ∀ s ∈ startNodes, IsFirst g trigger s (replacement g sets trigger s) := by
  obtain ⟨result, hresult, hresultNodup, hmem⟩ :=
    exists_handleCycles hg ht hfound hsets hnodup hreach
  constructor
  · rintro ⟨result', hresult', -, hiff⟩ s hs
    rw [hresult, Except.ok.injEq] at hresult'
    subst hresult'
    obtain ⟨t, -, hentry, -⟩ := (hiff _).mp ((hmem _).mpr ⟨s, hs, rfl⟩)
    exact ⟨hentry, sameComponent_replacement hg ht hfound (hreach s hs)⟩
  · intro hall
    refine ⟨result, hresult, hresultNodup, fun x => (hmem x).trans ?_⟩
    refine exists_congr fun s => and_congr_right fun hs => ⟨?_, fun hx => ?_⟩
    · rintro rfl
      exact hall s hs
    · have hfirst := hall s hs
      exact hx.1.eq hfirst.1 (hx.2.trans hfirst.2.symm)

end

end

section

variable {g : DirectedGraph} {trigger : String}

/-- A start node that is the first node of its component, or was found in one set with it. -/
def FoundWithFirst (g : DirectedGraph) (sets : List (List String)) (trigger startNode : String) :
    Prop :=
  IsFirst g trigger startNode startNode ∨
    ∃ set ∈ sets, startNode ∈ set ∧ ∃ first ∈ set, IsFirst g trigger startNode first

/-- **When start nodes are moved to the first nodes of their components.**  The result is right
iff each start node is the first node of its component or was found in one set with it; it is
right for all sets of start nodes iff the nodes that the trigger reaches are linked to the
entries of their components. -/
theorem handleCycles_iff (hg : Closed g) (ht : trigger ∈ g.nodes.keys) :
    (∃ sets, g.getStronglyConnectedComponents = .ok sets ∧
      ∀ startNodes : List String, startNodes.Nodup →
        (∀ s ∈ startNodes, Reaches g.succ trigger s) →
        ((∃ result, g.handleCycles startNodes trigger = .ok result ∧
            MovedToFirst g trigger startNodes result) ↔
          ∀ s ∈ startNodes, FoundWithFirst g sets trigger s)) ∧
    ((∀ startNodes : List String, startNodes.Nodup →
        (∀ s ∈ startNodes, Reaches g.succ trigger s) →
        ∃ result, g.handleCycles startNodes trigger = .ok result ∧
          MovedToFirst g trigger startNodes result) ↔
      ∀ v, Reaches g.succ trigger v →
        LinkedToEntry g.succ (scanAll g.succ g.nodes.keys) v) := by
  obtain ⟨sets, hsets, hfound⟩ := exists_found hg
  have hone : ∀ startNodes : List String, startNodes.Nodup →
      (∀ s ∈ startNodes, Reaches g.succ trigger s) →
      ((∃ result, g.handleCycles startNodes trigger = .ok result ∧
          MovedToFirst g trigger startNodes result) ↔
        ∀ s ∈ startNodes, FoundWithFirst g sets trigger s) := by
    intro startNodes hnodup hreach
    rw [movedToFirst_iff hg ht hfound hsets hnodup hreach]
    exact forall₂_congr fun s hs => movesToFirst_iff hg ht hfound (hreach s hs)
  refine ⟨⟨sets, hsets, hone⟩, fun hall v hv => ?_, fun hlinked startNodes hnodup hreach => ?_⟩
  · -- the node, the entry of the search for components and the first node are in one set
    have hvk : v ∈ g.nodes.keys := hv.mem (P := (· ∈ g.nodes.keys))
      (fun _ _ _ hb => hg.succ_mem hb) ht
    obtain ⟨r, hentry, hsame⟩ := exists_entry g.succ ((mem_scanAll hg).mpr hvk)
    refine ⟨r, hentry, hsame, ?_⟩
    have hwith : ∀ s, Reaches g.succ trigger s → FoundWithFirst g sets trigger s := by
      intro s hs
      have hreach : ∀ t ∈ [s], Reaches g.succ trigger t := List.forall_mem_singleton.mpr hs
      have hmoved := (hone [s] (List.nodup_singleton s) hreach).mp
        (hall [s] (List.nodup_singleton s) hreach)
      exact hmoved s List.mem_cons_self
    obtain ⟨first, hfirst, hfirstSame⟩ := exists_entry g.succ (mem_preorder hg ht hv)
    have hunique : ∀ s, SameComponent g.succ s v → ∀ e, IsFirst g trigger s e → e = first := by
      rintro s hs e ⟨he, hes⟩
      exact he.eq hfirst ((hes.trans hs).trans hfirstSame.symm)
    have hset : ∀ s, SameComponent g.succ s v →
        s = first ∨ ∃ set ∈ sets, s ∈ set ∧ first ∈ set := by
      intro s hs
      rcases hwith s (hv.trans hs.2) with h | ⟨set, hset, hmem, e, he, h⟩
      · exact .inl (hunique s hs s h)
      · exact .inr ⟨set, hset, hmem, hunique s hs e h ▸ he⟩
    rcases hset v (.refl v) with rfl | ⟨set, hsetv, hvset, hfset⟩
    · rcases hset r hsame with rfl | ⟨set, hsetr, hrset, hfset⟩
      · exact Linked.refl _ _
      · exact hfound.linked set hsetr r hrset hentry v hfset
    · rcases hset r hsame with rfl | ⟨set', hsetr, hrset, hfset'⟩
      · exact hfound.linked set hsetv r hfset hentry v hvset
      · rw [hfound.eq_of_mem hsetr hsetv hfset' hfset] at hrset
        exact hfound.linked set hsetv r hrset hentry v hvset
  · rw [hone startNodes hnodup hreach]
    intro s hs
    have hsk : s ∈ g.nodes.keys := (hreach s hs).mem (P := (· ∈ g.nodes.keys))
      (fun _ _ _ hb => hg.succ_mem hb) ht
    obtain ⟨set, hset, hiff⟩ := hfound.whole (Reaches g.succ trigger)
      (fun a ha b hb => ha.trans (Reaches.edge hb)) (fun v _ hv => hlinked v hv) s hsk (hreach s hs)
    obtain ⟨first, hfirst, hsame⟩ := exists_entry g.succ (mem_preorder hg ht (hreach s hs))
    exact .inr ⟨set, hset, (hiff s).mpr (.refl s), first, (hiff first).mpr hsame.symm, hfirst, hsame⟩

end

/-- A start node in a ring is moved to the node the trigger enters it at. -/
theorem handleCycles_ring :
    ∃ result, ring.handleCycles ["c"] "a" = .ok result ∧ MovedToFirst ring "a" ["c"] result := by
  have hreach : Reaches ring.succ "a" "c" :=
    (Reaches.edge (by decide : "b" ∈ ring.succ "a")).trans (Reaches.edge (by decide))
  refine (handleCycles_iff closed_ring (by decide)).2.mpr (fun v hv => ?_) ["c"]
    (List.nodup_singleton _) (List.forall_mem_singleton.mpr hreach)
  have hvk : v ∈ ring.nodes.keys := hv.mem (P := (· ∈ ring.nodes.keys))
    (fun _ _ _ hb => closed_ring.succ_mem hb) (by decide)
  exact linkedToEntries_ring v ((mem_scanAll closed_ring).mpr hvk)

def twoLoops : DirectedGraph :=
  ofNames ["trigger", "a", "b", "c"]
    [("trigger", "a"), ("a", "b"), ("b", "c"), ("c", "b"), ("b", "a")]

/-- The start node stays inside of the loop that the trigger enters before it. -/
theorem not_movedToFirst_twoLoops : Closed twoLoops ∧ Reaches twoLoops.succ "trigger" "b" ∧
    ¬ ∃ result, twoLoops.handleCycles ["b"] "trigger" = .ok result ∧
      MovedToFirst twoLoops "trigger" ["b"] result := by
  have hab : Reaches twoLoops.succ "a" "b" := Reaches.edge (by decide)
  have hba : Reaches twoLoops.succ "b" "a" := Reaches.edge (by decide)
  refine ⟨⟨(valid_empty.addNodes _).putConnections _, by decide, by decide⟩,
    (Reaches.edge (by decide : "a" ∈ twoLoops.succ "trigger")).trans hab, ?_⟩
  rintro ⟨result, hresult, -, hmem⟩
  have hstays : twoLoops.handleCycles ["b"] "trigger" = .ok ["b"] := by decide
  rw [hstays, Except.ok.injEq] at hresult
  subst hresult
  obtain ⟨s, hs, ⟨-, hfirst⟩, -⟩ := (hmem "b").mp List.mem_cons_self
  exact absurd (hfirst "a" (by decide) ⟨hab, hba⟩) (by decide)

end DirectedGraph

end N8n
