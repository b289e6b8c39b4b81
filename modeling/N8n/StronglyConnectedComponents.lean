/-
The strongly connected components of a `DirectedGraph`.

`getStronglyConnectedComponents` is a depth-first search that keeps a low-link on every
node: the least id among the low-links its connections have led to.  When the search leaves
a node whose low-link is its own id, it pops from the stack while the low-link is that id.

* **`getStronglyConnectedComponents_iff`** — the result is the list of the components iff
  each node is linked to the entry of its component.
-/
import N8n.DepthFirst
import N8n.DirectedGraph

namespace N8n

open DepthFirst

namespace DirectedGraph

/-- The variables of the search; the top of the stack first. -/
structure SccState where
  id : ℕ := 0
  visited : List String := []
  ids : Dict String ℕ := .empty
  lowLinkValues : Dict String ℕ := .empty
  stack : List String := []
  stronglyConnectedComponents : List (List String) := []
  deriving DecidableEq

namespace SccState

/-- A node is visited for the first time. -/
def enter (s : SccState) (node : String) : SccState :=
  { s with
    visited := node :: s.visited
    lowLinkValues := s.lowLinkValues.set node s.id
    ids := s.ids.set node s.id
    id := s.id + 1
    stack := node :: s.stack }

/-- A child has been followed: if it is on the stack, the low-links are compared. -/
def minimise (s : SccState) (node child : String) : Except JsError SccState :=
  if child ∈ s.stack then
    match s.lowLinkValues.get? child, s.lowLinkValues.get? node with
    | some childLowLinkValue, some ownLowLinkValue =>
      .ok { s with
        lowLinkValues := s.lowLinkValues.set node (min childLowLinkValue ownLowLinkValue) }
    | _, _ => .error .assertionError
  else .ok s

/-- All children have been followed: the stack is popped until it is empty or a node has a
different low-link. -/
def pop (s : SccState) (node : String) : Except JsError SccState :=
  match s.ids.get? node, s.lowLinkValues.get? node with
  | some ownId, some ownLowLinkValue =>
    if ownId = ownLowLinkValue then
      let scc := s.stack.takeWhile fun next => decide (s.lowLinkValues.get? next = some ownId)
      let stack := s.stack.dropWhile fun next => decide (s.lowLinkValues.get? next = some ownId)
      .ok { s with
        stack
        stronglyConnectedComponents :=
          if 0 < scc.length then s.stronglyConnectedComponents ++ [scc]
          else s.stronglyConnectedComponents }
    else .ok s
  | _, _ => .error .assertionError

end SccState

/-- `getDirectChildConnections(node).map((c) => c.to)`, by the names of the nodes. -/
def directChildren (g : DirectedGraph) (node : String) : Except JsError (List String) :=
  match g.nodes.get? node with
  | some node => (g.getDirectChildConnections node).map fun cs => cs.map (·.toName)
  | none => .error .assertionError

def followNode (g : DirectedGraph) : ℕ → SccState → String → Except JsError SccState
  | 0, _, _ => .error (.raised "Maximum call stack size exceeded")
  | depth + 1, s, node =>
    if node ∈ s.visited then .ok s
    else do
      let directChildren ← g.directChildren node
      let s ← directChildren.foldlM (fun s child => do
        let s ← followNode g depth s child
        s.minimise node child) (s.enter node)
      s.pop node

def getStronglyConnectedComponents (g : DirectedGraph) : Except JsError (List (List String)) := do
  let s ← g.nodes.keys.foldlM (followNode g (g.nodes.keys.length + 1)) {}
  return s.stronglyConnectedComponents

/-- The nodes that the connections of a node lead to, in the order of the connections. -/
def succ (g : DirectedGraph) (node : String) : List String :=
  (g.getConnections.filter fun c => decide (c.fromName = node)).map (·.toName)

/-- The sets are a partition of the nodes into their strongly connected components. -/
structure AreComponents (g : DirectedGraph) (sets : List (List String)) : Prop where
  nonempty : ∀ set ∈ sets, set ≠ []
  partition : sets.flatten.Perm g.nodes.keys
  same : ∀ a ∈ g.nodes.keys, ∀ b ∈ g.nodes.keys,
    (∃ set ∈ sets, a ∈ set ∧ b ∈ set) ↔ Reaches g.succ a b ∧ Reaches g.succ b a

/-! ### The induction over the search -/

section Search

variable {g : DirectedGraph}

theorem Closed.directChildren (hg : Closed g) {node : String} (h : node ∈ g.nodes.keys) :
    g.directChildren node = .ok (g.succ node) := by
  obtain ⟨n, hn⟩ := Dict.mem_keys_iff.mp h
  have hname := hg.valid.node node n hn
  rw [DirectedGraph.directChildren, hn]
  simp only [getDirectChildConnections]
  rw [hname, if_pos hn]
  rfl

theorem Closed.succ_mem (hg : Closed g) {node child : String} (h : child ∈ g.succ node) :
    child ∈ g.nodes.keys := by
  obtain ⟨c, hc, rfl⟩ := List.mem_map.mp h
  exact hg.toName c (List.mem_filter.mp hc).1

theorem followNode_rel (hg : Closed g) {R : List String → SccState → Scan String → Prop}
    (hvisited : ∀ o s w, R o s w →
      s.visited = w.visited ∧ w.visited.Nodup ∧ w.visited ⊆ g.nodes.keys)
    (henter : ∀ o s w v, R o s w → v ∈ g.nodes.keys → v ∉ w.visited →
      (∀ p ∈ o.head?, v ∈ g.succ p) → R (v :: o) (s.enter v) (w.enter v))
    (hexamine : ∀ o s w v c, R (v :: o) s w → c ∈ g.succ v → c ∈ w.visited →
      ∃ s', s.minimise v c = .ok s' ∧ R (v :: o) s' (w.examine v c))
    (hpop : ∀ o s w v, R (v :: o) s w → (∀ c ∈ g.succ v, c ∈ w.visited) →
      ∃ s', s.pop v = .ok s' ∧ R o s' w) (depth : ℕ) :
    ∀ {o : List String} {s : SccState} {w : Scan String} {v : String}, R o s w →
      v ∈ g.nodes.keys → (∀ p ∈ o.head?, v ∈ g.succ p) →
      g.nodes.keys.length < depth + w.visited.length →
      ∃ s', followNode g depth s v = .ok s' ∧ R o s' (scan g.succ depth w v) ∧
        v ∈ (scan g.succ depth w v).visited ∧ w.visited ⊆ (scan g.succ depth w v).visited := by
  have hgrows : ∀ {o o' s s' w w'}, R o s w → R o' s' w' → w.visited ⊆ w'.visited →
      w.visited.length ≤ w'.visited.length := fun h _ hsub =>
    (List.subperm_of_subset (hvisited _ _ _ h).2.1 hsub).length_le
  induction depth with
  | zero =>
    -- all nodes are visited by now
    intro o s w v hR _ _ hdepth
    obtain ⟨-, hnodup, hsub⟩ := hvisited o s w hR
    have hle := (List.subperm_of_subset hnodup hsub).length_le
    omega
  | succ depth ih =>
    intro o s w v hR hv hhead hdepth
    rw [followNode, scan, (hvisited o s w hR).1]
    by_cases hseen : v ∈ w.visited
    · rw [if_pos hseen, if_pos hseen]
      exact ⟨s, rfl, hR, hseen, fun _ h => h⟩
    rw [if_neg hseen, if_neg hseen, hg.directChildren hv]
    have hloop : ∀ (cs : List String) (s : SccState) (w : Scan String), cs ⊆ g.succ v →
        R (v :: o) s w → g.nodes.keys.length < depth + w.visited.length →
        ∃ s', cs.foldlM (fun s child => do
            let s ← followNode g depth s child
            s.minimise v child) s = .ok s' ∧
          R (v :: o) s' (scanEdges (scan g.succ depth) v w cs) ∧
          (∀ c ∈ cs, c ∈ (scanEdges (scan g.succ depth) v w cs).visited) ∧
          w.visited ⊆ (scanEdges (scan g.succ depth) v w cs).visited := by
      intro cs
      induction cs with
      | nil => exact fun s w _ hR _ => ⟨s, rfl, hR, List.forall_mem_nil _, fun _ h => h⟩
      | cons c cs ihcs =>
        intro s w hcs hR hdepth
        obtain ⟨hc, hcs⟩ := List.cons_subset.mp hcs
        obtain ⟨t, hfollow, hRt, hct, hsub⟩ := ih hR (hg.succ_mem hc)
          (fun p hp => Option.some.inj hp ▸ hc) hdepth
        obtain ⟨u, hminimise, hRu⟩ := hexamine o t _ v c hRt hc hct
        have hlen := hgrows hR hRt hsub
        obtain ⟨s', hfold, hR', hall, hsub'⟩ := ihcs u _ hcs hRu
          (hdepth.trans_le (Nat.add_le_add_left hlen depth))
        refine ⟨s', ?_, hR', fun d hd => ?_, fun x hx => hsub' (hsub hx)⟩
        · rw [List.foldlM_cons, hfollow]
          show (t.minimise v c >>= _) = _
          rw [hminimise]
          exact hfold
        · rcases List.mem_cons.mp hd with rfl | hd
          · exact hsub' hct
          · exact hall d hd
    have hRv := henter o s w v hR hv hseen hhead
    have hdepth' : g.nodes.keys.length < depth + (w.enter v).visited.length := by
      have hlen : (w.enter v).visited.length = w.visited.length + 1 := rfl
      omega
    obtain ⟨t, hfold, hRt, hall, hsub⟩ := hloop (g.succ v) _ _ (fun _ h => h) hRv hdepth'
    obtain ⟨s', hleave, hR'⟩ := hpop o t _ v hRt hall
    refine ⟨s', ?_, hR', hsub List.mem_cons_self, fun x hx => hsub (List.mem_cons_of_mem _ hx)⟩
    show (List.foldlM _ (s.enter v) (g.succ v) >>= fun s => s.pop v) = _
    rw [hfold]
    exact hleave

end Search

/-! ### What every search keeps -/

section Invariants

variable {g : DirectedGraph} {o : List String} {s s' : SccState} {w : Scan String} {v c : String}

/-- The variables of the search on the path `o` of open nodes, the last one first. -/
structure Base (g : DirectedGraph) (o : List String) (s : SccState) (w : Scan String) : Prop where
  visited : s.visited = w.visited
  nodup : w.visited.Nodup
  nodes : w.visited ⊆ g.nodes.keys
  id : s.id = w.visited.length
  ids : ∀ v ∈ w.visited, s.ids.get? v = some (rank w.visited v)
  examined : ∀ e ∈ w.examined, e.1 ∈ w.visited ∧ e.2 ∈ w.visited ∧ e.2 ∈ g.succ e.1
  stack : s.stack ⊆ w.visited
  sorted : s.stack.Pairwise fun a b => rank w.visited b < rank w.visited a
  /-- Open nodes are on the stack, and lead to whatever was visited after them. -/
  path : o ⊆ s.stack
  pathSorted : o.Pairwise fun a b => rank w.visited b < rank w.visited a
  descends : ∀ u ∈ o, ∀ v ∈ w.visited, rank w.visited u ≤ rank w.visited v → Reaches g.succ u v
  low : ∀ v ∈ w.visited, ∃ u ∈ w.visited, s.lowLinkValues.get? v = some (rank w.visited u) ∧
    rank w.visited u ≤ rank w.visited v ∧ Linked w.examined v u
  popped : ∀ set ∈ s.stronglyConnectedComponents, set ≠ [] ∧ ∃ u ∈ w.visited, ∀ v ∈ set,
    v ∈ w.visited ∧ rank w.visited u ≤ rank w.visited v ∧ Reaches g.succ u v ∧
      Linked w.examined v u

theorem base_start (g : DirectedGraph) : Base g [] {} {} where
  visited := rfl
  nodup := List.nodup_nil
  nodes := List.nil_subset _
  id := rfl
  ids := List.forall_mem_nil _
  examined := List.forall_mem_nil _
  stack := List.nil_subset _
  sorted := .nil
  path := List.nil_subset _
  pathSorted := .nil
  descends := List.forall_mem_nil _
  low := List.forall_mem_nil _
  popped := List.forall_mem_nil _

theorem Base.reaches (h : Base g o s w) {a b : String} (hlink : Linked w.examined a b) :
    Reaches g.succ a b :=
  hlink.reaches fun e he => (h.examined e he).2.2

theorem Base.reaches_next (h : Base g o s w) (hnext : ∀ p ∈ o.head?, v ∈ g.succ p) {u : String}
    (hu : u ∈ o) : Reaches g.succ u v := by
  cases o with
  | nil => cases hu
  | cons p o =>
    refine Reaches.trans ?_ (Reaches.edge (hnext p rfl))
    have hp : p ∈ w.visited := h.stack (h.path List.mem_cons_self)
    rcases List.mem_cons.mp hu with rfl | hmem
    · exact h.descends u hu u hp le_rfl
    · exact h.descends u hu p hp ((List.pairwise_cons.mp h.pathSorted).1 u hmem).le

theorem Base.enter (h : Base g o s w) (hv : v ∈ g.nodes.keys) (hnew : v ∉ w.visited)
    (hnext : ∀ p ∈ o.head?, v ∈ g.succ p) : Base g (v :: o) (s.enter v) (w.enter v) := by
  have hrank : ∀ u ∈ w.visited, rank (v :: w.visited) u = rank w.visited u :=
    fun u hu => rank_cons_of_mem hu hnew
  have hself : rank (v :: w.visited) v = w.visited.length := rank_cons_self
  have hne : ∀ u ∈ w.visited, u ≠ v := fun u hu heq => hnew (heq ▸ hu)
  have hsorted : ∀ l : List String, l ⊆ w.visited →
      l.Pairwise (fun a b => rank w.visited b < rank w.visited a) →
        (v :: l).Pairwise fun a b => rank (v :: w.visited) b < rank (v :: w.visited) a := by
    intro l hl hp
    refine List.pairwise_cons.mpr ⟨fun u hu => ?_, ?_⟩
    · rw [hrank u (hl hu), hself]
      exact rank_lt (hl hu)
    · refine hp.imp_of_mem fun ha hb hab => ?_
      rwa [hrank _ (hl ha), hrank _ (hl hb)]
  refine ⟨congrArg (v :: ·) h.visited, List.nodup_cons.mpr ⟨hnew, h.nodup⟩,
    List.cons_subset.mpr ⟨hv, h.nodes⟩, congrArg (· + 1) h.id, fun u hu => ?_, fun e he => ?_,
    List.cons_subset_cons v h.stack, hsorted _ h.stack h.sorted, List.cons_subset_cons v h.path,
    hsorted _ (fun u hu => h.stack (h.path hu)) h.pathSorted, fun u hu x hx hle => ?_,
    fun u hu => ?_, fun set hset => ?_⟩
  · show (s.ids.set v s.id).get? u = some (rank (v :: w.visited) u)
    rw [Dict.get?_set]
    rcases List.mem_cons.mp hu with rfl | hu
    · rw [if_pos rfl, hself, h.id]
    · rw [if_neg (hne u hu), hrank u hu]
      exact h.ids u hu
  · obtain ⟨h1, h2, h3⟩ := h.examined e he
    exact ⟨List.mem_cons_of_mem _ h1, List.mem_cons_of_mem _ h2, h3⟩
  · rcases List.mem_cons.mp hx with rfl | hxw
    · rcases List.mem_cons.mp hu with rfl | hu
      · exact Relation.ReflTransGen.refl
      · exact h.reaches_next hnext hu
    · have hle : rank (v :: w.visited) u ≤ rank (v :: w.visited) x := hle
      rw [hrank x hxw] at hle
      rcases List.mem_cons.mp hu with rfl | hu
      · have hlt := rank_lt hxw
        omega
      · rw [hrank u (h.stack (h.path hu))] at hle
        exact h.descends u hu x hxw hle
  · show ∃ x ∈ v :: w.visited,
      (s.lowLinkValues.set v s.id).get? u = some (rank (v :: w.visited) x) ∧ _
    rcases List.mem_cons.mp hu with rfl | hu
    · refine ⟨u, List.mem_cons_self, ?_, le_rfl, Linked.refl _ _⟩
      rw [Dict.get?_set_self, hself, h.id]
    · obtain ⟨x, hx, hlow, hle, hlink⟩ := h.low u hu
      refine ⟨x, List.mem_cons_of_mem _ hx, ?_, ?_, hlink⟩
      · rw [Dict.get?_set_of_ne _ (hne u hu), hrank x hx]
        exact hlow
      · show rank (v :: w.visited) x ≤ rank (v :: w.visited) u
        rwa [hrank x hx, hrank u hu]
  · obtain ⟨hset, u, hu, hall⟩ := h.popped set hset
    refine ⟨hset, u, List.mem_cons_of_mem _ hu, fun x hx => ?_⟩
    obtain ⟨hx, hle, hreach, hlink⟩ := hall x hx
    refine ⟨List.mem_cons_of_mem _ hx, ?_, hreach, hlink⟩
    show rank (v :: w.visited) u ≤ rank (v :: w.visited) x
    rwa [hrank u hu, hrank x hx]

section

variable (h : Base g o s w) (hv : v ∈ w.visited) (hc : c ∈ w.visited)
include h hv hc

theorem Base.exists_minimise :
    ∃ s', s.minimise v c = .ok s' ∧ (c ∉ s.stack ∧ s' = s ∨
      c ∈ s.stack ∧ ∃ a ∈ s.lowLinkValues.get? c, ∃ b ∈ s.lowLinkValues.get? v,
        s' = { s with lowLinkValues := s.lowLinkValues.set v (min a b) }) := by
  obtain ⟨a, -, ha, -⟩ := h.low c hc
  obtain ⟨b, -, hb, -⟩ := h.low v hv
  rw [SccState.minimise]
  split
  · rename_i hstack
    rw [ha, hb]
    exact ⟨_, rfl, .inr ⟨hstack, _, rfl, _, rfl, rfl⟩⟩
  · rename_i hstack
    exact ⟨s, rfl, .inl ⟨hstack, rfl⟩⟩

theorem Base.examine
    (hedge : c ∈ g.succ v) {low : Dict String ℕ}
    (hlow : ∀ x ∈ w.visited, ∃ u ∈ w.visited, low.get? x = some (rank w.visited u) ∧
      rank w.visited u ≤ rank w.visited x ∧ Linked ((v, c) :: w.examined) x u) :
    Base g o { s with lowLinkValues := low } (w.examine v c) where
  visited := h.visited
  nodup := h.nodup
  nodes := h.nodes
  id := h.id
  ids := h.ids
  examined := List.forall_mem_cons.mpr ⟨⟨hv, hc, hedge⟩, h.examined⟩
  stack := h.stack
  sorted := h.sorted
  path := h.path
  pathSorted := h.pathSorted
  descends := h.descends
  low := hlow
  popped := fun set hset => by
    obtain ⟨hne, u, hu, hall⟩ := h.popped set hset
    refine ⟨hne, u, hu, fun x hx => ?_⟩
    obtain ⟨hx, hle, hreach, hlink⟩ := hall x hx
    exact ⟨hx, hle, hreach, hlink.cons _⟩

theorem Base.minimise
    (hedge : c ∈ g.succ v) (hmin : s.minimise v c = .ok s') : Base g o s' (w.examine v c) := by
  obtain ⟨t, ht, hcases⟩ := h.exists_minimise hv hc
  rw [hmin, Except.ok.injEq] at ht
  subst ht
  have hkept : ∀ x ∈ w.visited, ∃ u ∈ w.visited,
      s.lowLinkValues.get? x = some (rank w.visited u) ∧ rank w.visited u ≤ rank w.visited x ∧
        Linked ((v, c) :: w.examined) x u := by
    intro x hx
    obtain ⟨u, hu, hlow, hle, hlink⟩ := h.low x hx
    exact ⟨u, hu, hlow, hle, hlink.cons _⟩
  rcases hcases with ⟨-, rfl⟩ | ⟨-, a, ha, b, hb, rfl⟩
  · exact h.examine hv hc hedge hkept
  · refine h.examine hv hc hedge fun x hx => ?_
    rw [Dict.get?_set]
    split
    · rename_i heq
      subst heq
      obtain ⟨uc, huc, hlowc, -, hlinkc⟩ := h.low c hc
      obtain ⟨ux, hux, hlowx, hle, hlinkx⟩ := h.low x hx
      rw [ha, Option.some.injEq] at hlowc
      rw [hb, Option.some.injEq] at hlowx
      rcases le_total a b with hab | hab
      · refine ⟨uc, huc, ?_, ?_, .inr ⟨rfl, hlinkc⟩⟩
        · rw [min_eq_left hab, hlowc]
        · omega
      · refine ⟨ux, hux, ?_, hle, hlinkx.cons _⟩
        rw [min_eq_right hab, hlowx]
    · exact hkept x hx

end

/-- What is popped when `v` is left, and what stays on the stack. -/
def SccState.component (s : SccState) (w : Scan String) (v : String) : List String :=
  s.stack.takeWhile fun next => decide (s.lowLinkValues.get? next = some (rank w.visited v))

def SccState.rest (s : SccState) (w : Scan String) (v : String) : List String :=
  s.stack.dropWhile fun next => decide (s.lowLinkValues.get? next = some (rank w.visited v))

theorem SccState.component_append_rest (s : SccState) (w : Scan String) (v : String) :
    s.component w v ++ s.rest w v = s.stack := List.takeWhile_append_dropWhile

theorem SccState.low_of_mem_component {x : String} (h : x ∈ s.component w v) :
    s.lowLinkValues.get? x = some (rank w.visited v) := by
  have hp := List.mem_takeWhile_imp h
  exact of_decide_eq_true hp

theorem Base.exists_pop (h : Base g o s w) (hv : v ∈ w.visited) :
    ∃ s', s.pop v = .ok s' ∧ (s.lowLinkValues.get? v ≠ some (rank w.visited v) ∧ s' = s ∨
      s.lowLinkValues.get? v = some (rank w.visited v) ∧
        s' = { s with
          stack := s.rest w v
          stronglyConnectedComponents := if 0 < (s.component w v).length then
            s.stronglyConnectedComponents ++ [s.component w v]
            else s.stronglyConnectedComponents }) := by
  obtain ⟨u, -, hlow, -⟩ := h.low v hv
  rw [SccState.pop, h.ids v hv, hlow]
  by_cases heq : rank w.visited v = rank w.visited u
  · simp only [if_pos heq]
    exact ⟨_, rfl, .inr ⟨congrArg some heq.symm, rfl⟩⟩
  · simp only [if_neg heq]
    exact ⟨s, rfl, .inl ⟨fun h => heq (Option.some.inj h).symm, rfl⟩⟩

theorem Base.low_ne (h : Base g o s w) {x : String} (hx : x ∈ w.visited)
    (hlt : rank w.visited x < rank w.visited v) :
    s.lowLinkValues.get? x ≠ some (rank w.visited v) := by
  obtain ⟨u, -, hlow, hle, -⟩ := h.low x hx
  intro heq
  rw [hlow, Option.some.injEq] at heq
  omega

theorem Base.pop (h : Base g (v :: o) s w) (hpop : s.pop v = .ok s') : Base g o s' w := by
  obtain ⟨hbefore, hsorted⟩ := List.pairwise_cons.mp h.pathSorted
  have hv : v ∈ w.visited := h.stack (h.path List.mem_cons_self)
  obtain ⟨t, ht, hcases⟩ := h.exists_pop hv
  rw [hpop, Except.ok.injEq] at ht
  subst ht
  have hpath : o ⊆ s.stack := fun x hx => h.path (List.mem_cons_of_mem _ hx)
  rcases hcases with ⟨-, rfl⟩ | ⟨-, rfl⟩
  · exact { h with
      path := hpath
      pathSorted := hsorted
      descends := fun u hu => h.descends u (List.mem_cons_of_mem _ hu) }
  · have hparts := s.component_append_rest w v
    have hsub : ∀ x ∈ s.component w v, x ∈ s.stack := fun x hx =>
      hparts ▸ List.mem_append_left _ hx
    have hrest : s.rest w v ⊆ s.stack := fun x hx => hparts ▸ List.mem_append_right _ hx
    refine { h with
      stack := fun x hx => h.stack (hrest hx)
      sorted := h.sorted.sublist (hparts ▸ List.sublist_append_right _ _)
      path := fun x hx => ?_
      pathSorted := hsorted
      descends := fun u hu => h.descends u (List.mem_cons_of_mem _ hu)
      popped := fun set hset => ?_ }
    · have hmem : x ∈ s.component w v ++ s.rest w v := hparts ▸ hpath hx
      rcases List.mem_append.mp hmem with hmem | hmem
      · exact absurd (SccState.low_of_mem_component hmem)
          (h.low_ne (h.stack (hpath hx)) (hbefore x hx))
      · exact hmem
    · have hset : set ∈ s.stronglyConnectedComponents ∨
          set = s.component w v ∧ 0 < (s.component w v).length := by
        simp only at hset
        split at hset
        · rename_i hpos
          exact (List.mem_append.mp hset).imp_right fun hset => ⟨List.mem_singleton.mp hset, hpos⟩
        · exact .inl hset
      rcases hset with hset | ⟨rfl, hpos⟩
      · exact h.popped set hset
      · refine ⟨List.ne_nil_of_length_pos hpos, v, hv, fun x hx => ?_⟩
        have hxv := h.stack (hsub x hx)
        obtain ⟨u, hu, hlow, hle, hlink⟩ := h.low x hxv
        rw [SccState.low_of_mem_component hx, Option.some.injEq] at hlow
        obtain rfl := rank_inj hv hu hlow
        exact ⟨hxv, hle, h.descends v List.mem_cons_self x hxv hle, hlink⟩

/-! ### What the search keeps while nothing went wrong

`P` is a set of nodes that connections do not leave, and what goes wrong elsewhere does not
matter to it. -/

variable {P : String → Prop}

/-- A node of `P` that was left is not linked to its entry, and will not be. -/
def Faulty (P : String → Prop) (g : DirectedGraph) (o : List String) (w : Scan String) : Prop :=
  ∃ y r, P y ∧ y ∈ w.visited ∧ y ∉ o ∧ IsEntry g.succ w.visited r ∧ SameComponent g.succ r y ∧
    ¬ Linked w.examined y r

theorem Faulty.enter (h : Faulty P g o w) (hnew : v ∉ w.visited) :
    Faulty P g (v :: o) (w.enter v) := by
  obtain ⟨y, r, hyP, hy, hyo, hr, hsame, hlink⟩ := h
  refine ⟨y, r, hyP, List.mem_cons_of_mem _ hy, fun hmem => ?_, (isEntry_cons hnew hr.1).mpr hr,
    hsame, hlink⟩
  rcases List.mem_cons.mp hmem with rfl | hmem
  · exact hnew hy
  · exact hyo hmem

theorem Faulty.examine (h : Faulty P g (v :: o) w) : Faulty P g (v :: o) (w.examine v c) := by
  obtain ⟨y, r, hyP, hy, hyo, hr, hsame, hlink⟩ := h
  refine ⟨y, r, hyP, hy, hyo, hr, hsame, fun h => hlink ((linked_cons_of_ne ?_).mp h)⟩
  rintro rfl
  exact hyo List.mem_cons_self

theorem Faulty.pop (h : Faulty P g (v :: o) w) : Faulty P g o w := by
  obtain ⟨y, r, hyP, hy, hyo, h⟩ := h
  exact ⟨y, r, hyP, hy, fun hmem => hyo (List.mem_cons_of_mem _ hmem), h⟩

/-- What was popped was popped once, and is off the stack. -/
def SccState.Apart (s : SccState) : Prop :=
  s.stronglyConnectedComponents.flatten.Nodup ∧
    ∀ x ∈ s.stronglyConnectedComponents.flatten, x ∉ s.stack

theorem SccState.Apart.enter (h : s.Apart) (hb : Base g o s w) (hv : v ∉ w.visited) :
    (s.enter v).Apart := by
  refine ⟨h.1, fun x hx hmem => ?_⟩
  obtain ⟨set, hset, hxset⟩ := List.mem_flatten.mp hx
  obtain ⟨-, u, -, hall⟩ := hb.popped set hset
  rcases List.mem_cons.mp hmem with rfl | hmem
  · exact hv (hall x hxset).1
  · exact h.2 x hx hmem

theorem SccState.Apart.popped (h : s.Apart) (hb : Base g (v :: o) s w) :
    SccState.Apart { s with
      stack := s.rest w v
      stronglyConnectedComponents := s.stronglyConnectedComponents ++ [s.component w v] } := by
  have hnodup : s.stack.Nodup := hb.sorted.imp fun {a b} hlt => by
    rintro rfl
    exact lt_irrefl _ hlt
  have hparts := s.component_append_rest w v
  rw [← hparts, List.nodup_append] at hnodup
  obtain ⟨hcomponent, -, hdisjoint⟩ := hnodup
  have hmem : ∀ x, x ∈ s.stack ↔ x ∈ s.component w v ∨ x ∈ s.rest w v := fun x => by
    rw [← List.mem_append, hparts]
  refine ⟨?_, fun x hx hrest => ?_⟩
  · rw [List.flatten_append, List.flatten_singleton]
    exact h.1.append hcomponent fun x hx hxc => h.2 x hx ((hmem x).mpr (.inl hxc))
  · rw [List.flatten_append, List.flatten_singleton, List.mem_append] at hx
    rcases hx with hx | hx
    · exact h.2 x hx ((hmem x).mpr (.inr hrest))
    · exact hdisjoint x hx x hrest rfl

/-- In `P`, the stack holds the components whose entries are open, the sets those whose
entries were left. -/
structure Full (P : String → Prop) (g : DirectedGraph) (o : List String) (s : SccState)
    (w : Scan String) : Prop where
  mem_stack : ∀ x, P x → (x ∈ s.stack ↔ x ∈ w.visited ∧
    ∃ r ∈ o, IsEntry g.succ w.visited r ∧ SameComponent g.succ r x)
  /-- All children of a node that was left are visited. -/
  left : ∀ x ∈ w.visited, x ∉ o → g.succ x ⊆ w.visited
  closed : ∀ x ∈ w.visited, P x → x ∉ s.stack → ∀ c ∈ g.succ x, c ∈ w.visited ∧ c ∉ s.stack
  low : ∀ x ∈ s.stack, P x → ∃ u ∈ w.visited,
    s.lowLinkValues.get? x = some (rank w.visited u) ∧ SameComponent g.succ u x
  lowest : ∀ x ∈ s.stack, P x → ∀ r ∈ s.stack, SameComponent g.succ r x →
    Linked w.examined x r → ∀ n ∈ s.lowLinkValues.get? x, n ≤ rank w.visited r
  covered : ∀ x ∈ w.visited, P x → x ∉ s.stack → ∃ set ∈ s.stronglyConnectedComponents, x ∈ set
  component : ∀ set ∈ s.stronglyConnectedComponents, ∀ x ∈ set, P x →
    x ∈ w.visited ∧ x ∉ s.stack ∧ ∀ y, y ∈ set ↔ SameComponent g.succ x y
  disjoint : s.Apart

theorem full_start (P : String → Prop) (g : DirectedGraph) : Full P g [] {} {} where
  mem_stack := fun _ _ => iff_of_false List.not_mem_nil fun h => List.not_mem_nil h.1
  left := List.forall_mem_nil _
  closed := List.forall_mem_nil _
  low := List.forall_mem_nil _
  lowest := List.forall_mem_nil _
  covered := List.forall_mem_nil _
  component := List.forall_mem_nil _
  disjoint := ⟨List.nodup_nil, List.forall_mem_nil _⟩

section

variable (hP : ∀ a, P a → ∀ b ∈ g.succ a, P b)
include hP

theorem Full.reaches (h : Full P g o s w) {x y : String} (hx : x ∈ w.visited) (hxP : P x)
    (hstack : x ∉ s.stack) (hreach : Reaches g.succ x y) : y ∈ w.visited ∧ y ∉ s.stack := by
  obtain ⟨-, hy⟩ := hreach.mem (P := fun x => P x ∧ x ∈ w.visited ∧ x ∉ s.stack)
    (fun x hx c hc => ⟨hP x hx.1 c hc, h.closed x hx.2.1 hx.1 hx.2.2 c hc⟩) ⟨hxP, hx, hstack⟩
  exact hy

theorem Full.stack_of_same (h : Full P g o s w) {x y : String} (hx : x ∈ s.stack) (hxP : P x)
    (hy : y ∈ w.visited) (hsame : SameComponent g.succ x y) : y ∈ s.stack := by
  obtain ⟨-, r, hr, hentry, hrx⟩ := (h.mem_stack x hxP).mp hx
  exact (h.mem_stack y (hsame.1.mem hP hxP)).mpr ⟨hy, r, hr, hentry, hrx.trans hsame⟩

theorem Full.enter (h : Full P g o s w) (hb : Base g o s w) (hv : v ∉ w.visited) :
    Full P g (v :: o) (s.enter v) (w.enter v) := by
  have hne : ∀ u ∈ w.visited, u ≠ v := fun u hu heq => hv (heq ▸ hu)
  have hrank : ∀ u ∈ w.visited, rank (v :: w.visited) u = rank w.visited u :=
    fun u hu => rank_cons_of_mem hu hv
  have hstack : ∀ x, x ∈ (s.enter v).stack ↔ x = v ∨ x ∈ s.stack := fun x => List.mem_cons
  have hlow : ∀ x, (s.enter v).lowLinkValues.get? x =
      if x = v then some w.visited.length else s.lowLinkValues.get? x := by
    intro x
    rw [← hb.id]
    exact Dict.get?_set ..
  -- nothing of what is popped is in the component of a new node
  have hopen : ∀ x ∈ w.visited, P v → SameComponent g.succ x v → x ∈ s.stack := by
    intro x hx hvP hsame
    by_contra hnot
    exact hv (h.reaches hP hx (hsame.2.mem hP hvP) hnot hsame.1).1
  have hlinkv : ∀ r, Linked w.examined v r → r = v := by
    intro r hlink
    rcases hlink.source with heq | ⟨e, he, rfl⟩
    · exact heq.symm
    · exact absurd (hb.examined e he).1 hv
  have hlinkTo : ∀ x, Linked w.examined x v → x = v := by
    intro x hlink
    rcases hlink.target with heq | ⟨e, he, rfl⟩
    · exact heq
    · exact absurd (hb.examined e he).2.1 hv
  refine ⟨fun x hxP => ?_, fun x hx hxo c hc => ?_, fun x hx hxP hxs c hc => ?_,
    fun x hx hxP => ?_, fun x hx hxP r hr hsame hlink n hn => ?_, fun x hx hxP hxs => ?_,
    fun set hset x hx hxP => ?_, h.disjoint.enter hb hv⟩
  · rw [hstack]
    constructor
    · rintro (rfl | hx)
      · obtain ⟨r, hentry, hsame⟩ := exists_entry g.succ (List.mem_cons_self (a := x) (l := w.visited))
        refine ⟨List.mem_cons_self, r, ?_, hentry, hsame⟩
        rcases List.mem_cons.mp hentry.1 with rfl | hr
        · exact List.mem_cons_self
        · -- the entry of the component was visited before, and is open
          obtain ⟨-, q, hq, hqentry, hqr⟩ :=
            (h.mem_stack r (hsame.2.mem hP hxP)).mp (hopen r hr hxP hsame)
          rw [← hqentry.eq ((isEntry_cons hv hr).mp hentry) hqr]
          exact List.mem_cons_of_mem _ hq
      · obtain ⟨hxw, r, hr, hentry, hsame⟩ := (h.mem_stack x hxP).mp hx
        exact ⟨List.mem_cons_of_mem _ hxw, r, List.mem_cons_of_mem _ hr,
          (isEntry_cons hv hentry.1).mpr hentry, hsame⟩
    · rintro ⟨hx, r, hr, hentry, hsame⟩
      rcases List.mem_cons.mp hx with rfl | hxw
      · exact .inl rfl
      · refine .inr ((h.mem_stack x hxP).mpr ⟨hxw, ?_⟩)
        rcases List.mem_cons.mp hr with rfl | hr
        · have hle : rank (r :: w.visited) r ≤ rank (r :: w.visited) x := hentry.2 x hx hsame.symm
          rw [rank_cons_self, hrank x hxw] at hle
          have hlt := rank_lt hxw
          omega
        · have hrw : r ∈ w.visited := hb.stack (hb.path hr)
          exact ⟨r, hr, (isEntry_cons hv hrw).mp hentry, hsame⟩
  · rw [List.mem_cons, not_or] at hxo
    exact List.mem_cons_of_mem _ (h.left x ((List.mem_cons.mp hx).resolve_left hxo.1) hxo.2 hc)
  · rw [hstack, not_or] at hxs
    obtain ⟨hcw, hcs⟩ := h.closed x ((List.mem_cons.mp hx).resolve_left hxs.1) hxP hxs.2 c hc
    refine ⟨List.mem_cons_of_mem _ hcw, fun hmem => ?_⟩
    rcases (hstack c).mp hmem with rfl | hmem
    · exact hv hcw
    · exact hcs hmem
  · rw [hlow]
    rcases (hstack x).mp hx with rfl | hx
    · refine ⟨x, List.mem_cons_self, ?_, .refl x⟩
      rw [if_pos rfl]
      exact congrArg some rank_cons_self.symm
    · obtain ⟨u, hu, hget, hsame⟩ := h.low x hx hxP
      refine ⟨u, List.mem_cons_of_mem _ hu, ?_, hsame⟩
      rw [if_neg (hne x (hb.stack hx)), hget]
      exact congrArg some (hrank u hu).symm
  · show n ≤ rank (v :: w.visited) r
    rw [hlow] at hn
    rcases (hstack x).mp hx with rfl | hxs
    · rw [if_pos rfl] at hn
      rw [hlinkv r hlink, rank_cons_self]
      exact (Option.some.inj hn).ge
    · have hxv : x ≠ v := hne x (hb.stack hxs)
      rw [if_neg hxv] at hn
      rcases (hstack r).mp hr with rfl | hrs
      · exact absurd (hlinkTo x hlink) hxv
      · rw [hrank r (hb.stack hrs)]
        exact h.lowest x hxs hxP r hrs hsame hlink n hn
  · rw [hstack, not_or] at hxs
    exact h.covered x ((List.mem_cons.mp hx).resolve_left hxs.1) hxP hxs.2
  · obtain ⟨hxw, hxs, hset⟩ := h.component set hset x hx hxP
    refine ⟨List.mem_cons_of_mem _ hxw, fun hmem => ?_, hset⟩
    rcases (hstack x).mp hmem with rfl | hmem
    · exact hv hxw
    · exact hxs hmem

omit hP in
theorem Full.examine (h : Full P g o s w) {low : Dict String ℕ}
    (hlow : ∀ x ∈ s.stack, P x → ∃ u ∈ w.visited, low.get? x = some (rank w.visited u) ∧
      SameComponent g.succ u x)
    (hlowest : ∀ x ∈ s.stack, P x → ∀ r ∈ s.stack, SameComponent g.succ r x →
      Linked ((v, c) :: w.examined) x r → ∀ n ∈ low.get? x, n ≤ rank w.visited r) :
    Full P g o { s with lowLinkValues := low } (w.examine v c) where
  mem_stack := h.mem_stack
  left := h.left
  closed := h.closed
  low := hlow
  lowest := hlowest
  covered := h.covered
  component := h.component
  disjoint := h.disjoint

theorem Full.minimise (h : Full P g (v :: o) s w) (hb : Base g (v :: o) s w)
    (hedge : c ∈ g.succ v) (hc : c ∈ w.visited) (hmin : s.minimise v c = .ok s') :
    Full P g (v :: o) s' (w.examine v c) := by
  have hvs : v ∈ s.stack := hb.path List.mem_cons_self
  obtain ⟨t, ht, hcases⟩ := hb.exists_minimise (hb.stack hvs) hc
  rw [hmin, Except.ok.injEq] at ht
  subst ht
  rcases hcases with ⟨hcs, rfl⟩ | ⟨hcs, a, ha, b, hb', rfl⟩
  · -- a child that was popped leads nowhere back
    refine h.examine h.low fun x hx hxP r hr hsame hlink => ?_
    rcases hlink with hlink | ⟨rfl, hlink⟩
    · exact h.lowest x hx hxP r hr hsame hlink
    · have hback : Reaches g.succ c x := (hb.reaches hlink).trans hsame.1
      exact absurd (h.stack_of_same hP hx hxP hc ⟨Reaches.edge hedge, hback⟩) hcs
  · -- a child on the stack is in the component of `v`
    have hsameC : P v → SameComponent g.succ c v := by
      intro hvP
      obtain ⟨-, r, hr, -, hrc⟩ := (h.mem_stack c (hP v hvP c hedge)).mp hcs
      have hle : rank w.visited r ≤ rank w.visited v := by
        rcases List.mem_cons.mp hr with rfl | hr
        · exact le_rfl
        · exact ((List.pairwise_cons.mp hb.pathSorted).1 r hr).le
      exact ⟨hrc.2.trans (hb.descends r hr v (hb.stack hvs) hle), Reaches.edge hedge⟩
    refine h.examine (fun x hx hxP => ?_) fun x hx hxP r hr hsame hlink n hn => ?_
    · rw [Dict.get?_set]
      split
      · rename_i heq
        subst heq
        obtain ⟨uc, huc, hgetc, hsamec⟩ := h.low c hcs (hP x hxP c hedge)
        obtain ⟨ux, hux, hgetx, hsamex⟩ := h.low x hx hxP
        rw [ha, Option.some.injEq] at hgetc
        rw [hb', Option.some.injEq] at hgetx
        rcases le_total a b with hab | hab
        · exact ⟨uc, huc, by rw [min_eq_left hab, hgetc], hsamec.trans (hsameC hxP)⟩
        · exact ⟨ux, hux, by rw [min_eq_right hab, hgetx], hsamex⟩
      · exact h.low x hx hxP
    · rw [Dict.get?_set] at hn
      split at hn
      · rename_i heq
        subst heq
        obtain rfl := Option.some.inj hn
        rcases hlink with hlink | ⟨-, hlink⟩
        · exact (min_le_right a b).trans (h.lowest x hx hxP r hr hsame hlink b hb')
        · exact (min_le_left a b).trans
            (h.lowest c hcs (hP x hxP c hedge) r hr (hsame.trans (hsameC hxP).symm) hlink a ha)
      · rename_i hne
        exact h.lowest x hx hxP r hr hsame ((linked_cons_of_ne hne).mp hlink) n hn

theorem Full.component_spec (h : Full P g (v :: o) s w) (hb : Base g (v :: o) s w) (hvP : P v)
    (hfault : ¬ Faulty P g o w) (hself : s.lowLinkValues.get? v = some (rank w.visited v)) :
    IsEntry g.succ w.visited v ∧
      (∀ x, x ∈ s.component w v ↔ x ∈ s.stack ∧ SameComponent g.succ v x) ∧
      ∀ x, x ∈ s.rest w v ↔ x ∈ s.stack ∧ ¬ SameComponent g.succ v x := by
  have hbefore := (List.pairwise_cons.mp hb.pathSorted).1
  have hvs : v ∈ s.stack := hb.path List.mem_cons_self
  have hvo : v ∉ o := fun hmem => lt_irrefl _ (hbefore v hmem)
  have hlinked : ∀ y r, P y → y ∈ w.visited → y ∉ o → IsEntry g.succ w.visited r →
      SameComponent g.succ r y → Linked w.examined y r := by
    intro y r hyP hy hyo hr hsame
    by_contra hnot
    exact hfault ⟨y, r, hyP, hy, hyo, hr, hsame, hnot⟩
  have hentry : IsEntry g.succ w.visited v := by
    obtain ⟨r, hr, hsame⟩ := exists_entry g.succ (hb.stack hvs)
    have hrs := h.stack_of_same hP hvs hvP hr.1 hsame.symm
    have hle := h.lowest v hvs hvP r hrs hsame (hlinked v r hvP (hb.stack hvs) hvo hr hsame) _ hself
    have hge := hr.2 v (hb.stack hvs) hsame.symm
    rwa [← rank_inj hr.1 (hb.stack hvs) (le_antisymm hge hle)]
  have hlowSame : ∀ x ∈ s.stack, SameComponent g.succ v x →
      s.lowLinkValues.get? x = some (rank w.visited v) := by
    intro x hx hsame
    have hxo : x ∉ o := fun hmem =>
      absurd (hentry.2 x (hb.stack hx) hsame.symm) (Nat.not_le.mpr (hbefore x hmem))
    have hxP : P x := hsame.1.mem hP hvP
    obtain ⟨u, hu, hget, hux⟩ := h.low x hx hxP
    have hle := h.lowest x hx hxP v hvs hsame (hlinked x v hxP (hb.stack hx) hxo hentry hsame) _
      hget
    have hge := hentry.2 u hu (hux.trans hsame.symm)
    rw [hget, le_antisymm hle hge]
  have hsameAbove : ∀ x ∈ s.stack, rank w.visited v ≤ rank w.visited x →
      SameComponent g.succ v x := by
    intro x hx hle
    have hxw := hb.stack hx
    have hxP : P x := (hb.descends v List.mem_cons_self x hxw hle).mem hP hvP
    obtain ⟨-, r, hr, hrentry, hrx⟩ := (h.mem_stack x hxP).mp hx
    rcases List.mem_cons.mp hr with rfl | hro
    · exact hrx
    · -- an entry below `v` that `x` leads back to would be in the component of `v`
      have hrv := hb.descends r hr v (hb.stack hvs) (hbefore r hro).le
      have hvr := (hb.descends v List.mem_cons_self x hxw hle).trans hrx.2
      have hmin := hentry.2 r (hb.stack (hb.path hr)) ⟨hrv, hvr⟩
      exact absurd hmin (Nat.not_le.mpr (hbefore r hro))
  have hiff : ∀ x ∈ s.stack, s.lowLinkValues.get? x = some (rank w.visited v) ↔
      rank w.visited v ≤ rank w.visited x := by
    intro x hx
    constructor
    · intro hget
      by_contra hlt
      exact hb.low_ne (hb.stack hx) (Nat.lt_of_not_le hlt) hget
    · exact fun hle => hlowSame x hx (hsameAbove x hx hle)
  have hfilter := takeWhile_eq_filter
    (p := fun next => decide (s.lowLinkValues.get? next = some (rank w.visited v))) (hb.sorted.imp_of_mem fun {a b} ha hb' hab hlow => by
      rw [decide_eq_true_iff] at hlow ⊢
      exact (hiff a ha).mpr (((hiff b hb').mp hlow).trans hab.le))
  have hmem : ∀ x ∈ s.stack, s.lowLinkValues.get? x = some (rank w.visited v) ↔
      SameComponent g.succ v x := fun x hx =>
    ⟨fun hget => hsameAbove x hx ((hiff x hx).mp hget), hlowSame x hx⟩
  refine ⟨hentry, fun x => ?_, fun x => ?_⟩
  · rw [SccState.component, hfilter.1, List.mem_filter, decide_eq_true_iff]
    exact and_congr_right fun hx => hmem x hx
  · rw [SccState.rest, hfilter.2, List.mem_filter, Bool.not_eq_true', decide_eq_false_iff_not]
    exact and_congr_right fun hx => not_congr (hmem x hx)

omit hP in
theorem Full.leave (h : Full P g (v :: o) s w) (hall : g.succ v ⊆ w.visited)
    (hentry : ¬ IsEntry g.succ w.visited v) : Full P g o s w where
  mem_stack := fun x hxP => by
    rw [h.mem_stack x hxP]
    refine and_congr_right fun _ => ⟨?_, ?_⟩
    · rintro ⟨r, hr, hrentry, hsame⟩
      rcases List.mem_cons.mp hr with rfl | hr
      · exact absurd hrentry hentry
      · exact ⟨r, hr, hrentry, hsame⟩
    · rintro ⟨r, hr, hr'⟩
      exact ⟨r, List.mem_cons_of_mem _ hr, hr'⟩
  left := fun x hx hxo => by
    by_cases hxv : x = v
    · exact hxv ▸ hall
    · exact h.left x hx fun hmem => hxo ((List.mem_cons.mp hmem).resolve_left hxv)
  closed := h.closed
  low := h.low
  lowest := h.lowest
  covered := h.covered
  component := h.component
  disjoint := h.disjoint

theorem Full.popped (h : Full P g (v :: o) s w) (hb : Base g (v :: o) s w) (hvP : P v)
    (hall : g.succ v ⊆ w.visited) (hfault : ¬ Faulty P g o w)
    (hself : s.lowLinkValues.get? v = some (rank w.visited v)) :
    Full P g o { s with
      stack := s.rest w v
      stronglyConnectedComponents := s.stronglyConnectedComponents ++ [s.component w v] } w := by
  obtain ⟨hentry, hcomponent, hrest⟩ := h.component_spec hP hb hvP hfault hself
  have hbefore := (List.pairwise_cons.mp hb.pathSorted).1
  have hvs : v ∈ s.stack := hb.path List.mem_cons_self
  have hopen : ∀ r ∈ o, IsEntry g.succ w.visited r → ¬ SameComponent g.succ v r := by
    intro r hr hrentry hsame
    exact lt_irrefl _ (hentry.eq hrentry hsame ▸ hbefore r hr)
  have hleft : ∀ x ∈ w.visited, x ∉ o → g.succ x ⊆ w.visited := by
    intro x hx hxo
    by_cases hxv : x = v
    · exact hxv ▸ hall
    · exact h.left x hx fun hmem => hxo ((List.mem_cons.mp hmem).resolve_left hxv)
  have hclosed : ∀ x ∈ w.visited, P x → x ∉ s.rest w v → ∀ c ∈ g.succ x,
      c ∈ w.visited ∧ c ∉ s.rest w v := by
    intro x hx hxP hxr c hc
    by_cases hxs : x ∈ s.stack
    · have hsame : SameComponent g.succ v x := by
        by_contra hnot
        exact hxr ((hrest x).mpr ⟨hxs, hnot⟩)
      have hxo : x ∉ o := fun hmem =>
        absurd (hentry.2 x hx hsame.symm) (Nat.not_le.mpr (hbefore x hmem))
      refine ⟨hleft x hx hxo hc, fun hcr => ?_⟩
      -- the entry of `c` would be open, lead to `v`, and be reached from it
      obtain ⟨hcs, hnot⟩ := (hrest c).mp hcr
      obtain ⟨-, r, hr, hrentry, hrc⟩ := (h.mem_stack c (hP x hxP c hc)).mp hcs
      rcases List.mem_cons.mp hr with rfl | hro
      · exact hnot hrc
      · refine hopen r hro hrentry ⟨(hsame.1.trans (Reaches.edge hc)).trans hrc.2, ?_⟩
        exact hb.descends r hr v (hb.stack hvs) (hbefore r hro).le
    · obtain ⟨hcw, hcs⟩ := h.closed x hx hxP hxs c hc
      exact ⟨hcw, fun hcr => hcs ((hrest c).mp hcr).1⟩
  have hwhole : ∀ y, SameComponent g.succ v y → y ∈ s.stack := by
    intro y hsame
    have hv : P v ∧ v ∈ w.visited ∧ v ∉ s.rest w v :=
      ⟨hvP, hb.stack hvs, fun hmem => ((hrest v).mp hmem).2 (.refl v)⟩
    have hy := hsame.1.mem (P := fun x => P x ∧ x ∈ w.visited ∧ x ∉ s.rest w v)
      (fun x hx c hc => ⟨hP x hx.1 c hc, hclosed x hx.2.1 hx.1 hx.2.2 c hc⟩) hv
    exact h.stack_of_same hP hvs hvP hy.2.1 hsame
  refine ⟨fun x hxP => ?_, hleft, hclosed, fun x hx => h.low x ((hrest x).mp hx).1,
    fun x hx hxP r hr => h.lowest x ((hrest x).mp hx).1 hxP r ((hrest r).mp hr).1,
    fun x hx hxP hxr => ?_, fun set hset x hx hxP => ?_, h.disjoint.popped hb⟩
  · refine (hrest x).trans ?_
    rw [h.mem_stack x hxP]
    constructor
    · rintro ⟨⟨hx, r, hr, hrentry, hsame⟩, hnot⟩
      rcases List.mem_cons.mp hr with rfl | hr
      · exact absurd hsame hnot
      · exact ⟨hx, r, hr, hrentry, hsame⟩
    · rintro ⟨hx, r, hr, hrentry, hsame⟩
      exact ⟨⟨hx, r, List.mem_cons_of_mem _ hr, hrentry, hsame⟩,
        fun hvx => hopen r hr hrentry (hvx.trans hsame.symm)⟩
  · by_cases hxs : x ∈ s.stack
    · have hsame : SameComponent g.succ v x := by
        by_contra hnot
        exact hxr ((hrest x).mpr ⟨hxs, hnot⟩)
      exact ⟨_, List.mem_append_right _ List.mem_cons_self, (hcomponent x).mpr ⟨hxs, hsame⟩⟩
    · obtain ⟨set, hset, hx⟩ := h.covered x hx hxP hxs
      exact ⟨set, List.mem_append_left _ hset, hx⟩
  · rcases List.mem_append.mp hset with hset | hset
    · obtain ⟨hxw, hxs, hiff⟩ := h.component set hset x hx hxP
      exact ⟨hxw, fun hmem => hxs ((hrest x).mp hmem).1, hiff⟩
    · rw [List.mem_singleton.mp hset] at hx ⊢
      obtain ⟨hxs, hsame⟩ := (hcomponent x).mp hx
      refine ⟨hb.stack hxs, fun hmem => ((hrest x).mp hmem).2 hsame, fun y => ?_⟩
      rw [hcomponent]
      constructor
      · rintro ⟨-, hvy⟩
        exact hsame.symm.trans hvy
      · intro hxy
        exact ⟨hwhole y (hsame.trans hxy), hsame.trans hxy⟩

theorem Full.leave_other (h : Full P g (v :: o) s w) (hb : Base g (v :: o) s w) (hvP : ¬ P v)
    (hall : g.succ v ⊆ w.visited) (hpop : s.pop v = .ok s') : Full P g o s' w := by
  have hvs : v ∈ s.stack := hb.path List.mem_cons_self
  have hnone : ∀ x ∈ s.stack, ¬ P x := by
    intro x hx hxP
    obtain ⟨-, r, hr, -, hrx⟩ := (h.mem_stack x hxP).mp hx
    have hrP : P r := hrx.2.mem hP hxP
    rcases List.mem_cons.mp hr with rfl | hr
    · exact hvP hrP
    · have hlt := (List.pairwise_cons.mp hb.pathSorted).1 r hr
      exact hvP ((hb.descends r (List.mem_cons_of_mem _ hr) v (hb.stack hvs) hlt.le).mem hP hrP)
  have hleft : ∀ x ∈ w.visited, x ∉ o → g.succ x ⊆ w.visited := by
    intro x hx hxo
    by_cases hxv : x = v
    · exact hxv ▸ hall
    · exact h.left x hx fun hmem => hxo ((List.mem_cons.mp hmem).resolve_left hxv)
  have hmem : ∀ x, P x → ¬ (x ∈ w.visited ∧
      ∃ r ∈ o, IsEntry g.succ w.visited r ∧ SameComponent g.succ r x) := by
    rintro x hxP ⟨hx, r, hr, hentry⟩
    exact hnone x ((h.mem_stack x hxP).mpr ⟨hx, r, List.mem_cons_of_mem _ hr, hentry⟩) hxP
  obtain ⟨t, ht, hcases⟩ := hb.exists_pop (hb.stack hvs)
  rw [hpop, Except.ok.injEq] at ht
  subst ht
  rcases hcases with ⟨-, rfl⟩ | ⟨hself, rfl⟩
  · exact { h with
      mem_stack := fun x hxP => iff_of_false (fun hx => hnone x hx hxP) (hmem x hxP)
      left := hleft }
  · have hparts := s.component_append_rest w v
    have hsub : s.rest w v ⊆ s.stack := fun x hx => hparts ▸ List.mem_append_right _ hx
    split
    · exact {
        mem_stack := fun x hxP => iff_of_false (fun hx => hnone x (hsub hx) hxP) (hmem x hxP)
        left := hleft
        closed := fun x hx hxP _ c hc => by
          have hcs := h.closed x hx hxP (fun hxs => hnone x hxs hxP) c hc
          exact ⟨hcs.1, fun hmem => hcs.2 (hsub hmem)⟩
        low := fun x hx hxP => absurd hxP (hnone x (hsub hx))
        lowest := fun x hx hxP => absurd hxP (hnone x (hsub hx))
        covered := fun x hx hxP _ => by
          obtain ⟨set, hset, hxset⟩ := h.covered x hx hxP fun hxs => hnone x hxs hxP
          exact ⟨set, List.mem_append_left _ hset, hxset⟩
        component := fun set hset x hx hxP => by
          rcases List.mem_append.mp hset with hset | hset
          · obtain ⟨hxw, hxs, hiff⟩ := h.component set hset x hx hxP
            exact ⟨hxw, fun hmem => hxs (hsub hmem), hiff⟩
          · rw [List.mem_singleton.mp hset] at hx
            exact absurd hxP (hnone x (hparts ▸ List.mem_append_left _ hx))
        disjoint := h.disjoint.popped hb }
    · rename_i hzero
      have hrest : s.rest w v = s.stack := by
        rw [← hparts, List.eq_nil_of_length_eq_zero (Nat.eq_zero_of_not_pos hzero)]
        rfl
      rw [hrest]
      exact { h with
        mem_stack := fun x hxP => iff_of_false (fun hx => hnone x hx hxP) (hmem x hxP)
        left := hleft }

/-- Step lemma: leaving a node goes right, or from then on a node is not linked to its
entry. -/
theorem Full.pop (h : Full P g (v :: o) s w) (hb : Base g (v :: o) s w)
    (hall : g.succ v ⊆ w.visited) (hpop : s.pop v = .ok s') :
    Faulty P g o w ∨ Full P g o s' w := by
  by_cases hfault : Faulty P g o w
  · exact .inl hfault
  refine .inr ?_
  by_cases hvP : P v
  · have hvs : v ∈ s.stack := hb.path List.mem_cons_self
    obtain ⟨t, ht, hcases⟩ := hb.exists_pop (hb.stack hvs)
    rw [hpop, Except.ok.injEq] at ht
    subst ht
    rcases hcases with ⟨hlow, rfl⟩ | ⟨hlow, rfl⟩
    · refine h.leave hall fun hentry => ?_
      -- the low-link is the id of a node of the component that was visited before
      obtain ⟨u, hu, hget, hsame⟩ := h.low v hvs hvP
      obtain ⟨u', hu', hget', hle, -⟩ := hb.low v (hb.stack hvs)
      rw [hget, Option.some.injEq] at hget'
      refine hlow (hget.trans (congrArg some (le_antisymm ?_ (hentry.2 u hu hsame))))
      omega
    · have hpos : 0 < (s.component w v).length := by
        obtain ⟨-, hcomponent, -⟩ := h.component_spec hP hb hvP hfault hlow
        exact List.length_pos_of_mem ((hcomponent v).mpr ⟨hvs, .refl v⟩)
      rw [if_pos hpos]
      exact h.popped hP hb hvP hall hfault hlow
  · exact h.leave_other hP hb hvP hall hpop

end

end Invariants

/-! ### The result -/

section Result

variable {g : DirectedGraph} {P : String → Prop}

/-- What the search keeps. -/
def Kept (P : String → Prop) (g : DirectedGraph) (o : List String) (s : SccState)
    (w : Scan String) : Prop :=
  Base g o s w ∧ (Faulty P g o w ∨ Full P g o s w)

section

variable (hg : Closed g) (hP : ∀ a, P a → ∀ b ∈ g.succ a, P b)
include hg hP

theorem followNode_kept {o : List String} {s : SccState} {w : Scan String}
    {v : String} (h : Kept P g o s w) (hv : v ∈ g.nodes.keys) (hnext : ∀ p ∈ o.head?, v ∈ g.succ p)
    (depth : ℕ) (hdepth : g.nodes.keys.length < depth + w.visited.length) :
    ∃ s', followNode g depth s v = .ok s' ∧ Kept P g o s' (scan g.succ depth w v) ∧
      v ∈ (scan g.succ depth w v).visited ∧ w.visited ⊆ (scan g.succ depth w v).visited := by
  refine followNode_rel hg (R := Kept P g) ?_ ?_ ?_ ?_ depth h hv hnext hdepth
  · exact fun o s w h => ⟨h.1.visited, h.1.nodup, h.1.nodes⟩
  · intro o s w v h hv hnew hnext
    exact ⟨h.1.enter hv hnew hnext,
      h.2.imp (fun hf => hf.enter hnew) fun hf => hf.enter hP h.1 hnew⟩
  · intro o s w v c h hedge hc
    have hv := h.1.stack (h.1.path List.mem_cons_self)
    obtain ⟨s', hmin, -⟩ := h.1.exists_minimise hv hc
    exact ⟨s', hmin, h.1.minimise hv hc hedge hmin,
      h.2.imp (fun hf => hf.examine) fun hf => hf.minimise hP h.1 hedge hc hmin⟩
  · intro o s w v h hall
    obtain ⟨s', hpop, -⟩ := h.1.exists_pop (h.1.stack (h.1.path List.mem_cons_self))
    refine ⟨s', hpop, h.1.pop hpop, ?_⟩
    rcases h.2 with hf | hf
    · exact .inl hf.pop
    · exact hf.pop hP h.1 hall hpop

theorem exists_search :
    ∃ s, g.nodes.keys.foldlM (followNode g (g.nodes.keys.length + 1)) {} = .ok s ∧
      Kept P g [] s (scanAll g.succ g.nodes.keys) ∧
      g.nodes.keys ⊆ (scanAll g.succ g.nodes.keys).visited := by
  have hloop : ∀ (vs : List String) (s : SccState) (w : Scan String), vs ⊆ g.nodes.keys →
      Kept P g [] s w →
      ∃ s', vs.foldlM (followNode g (g.nodes.keys.length + 1)) s = .ok s' ∧
        Kept P g [] s' (vs.foldl (scan g.succ (g.nodes.keys.length + 1)) w) ∧
        vs ⊆ (vs.foldl (scan g.succ (g.nodes.keys.length + 1)) w).visited ∧
        w.visited ⊆ (vs.foldl (scan g.succ (g.nodes.keys.length + 1)) w).visited := by
    intro vs
    induction vs with
    | nil => exact fun s w _ h => ⟨s, rfl, h, List.nil_subset _, fun _ h => h⟩
    | cons v vs ih =>
      intro s w hvs h
      obtain ⟨hv, hvs⟩ := List.cons_subset.mp hvs
      obtain ⟨t, hfol, ht, hvt, hsub⟩ :=
        followNode_kept hg hP h hv (fun p hp => by cases hp) (g.nodes.keys.length + 1) (by omega)
      obtain ⟨s', hfold, h', hall, hsub'⟩ := ih t _ hvs ht
      refine ⟨s', ?_, h', List.cons_subset.mpr ⟨hsub' hvt, hall⟩, fun x hx => hsub' (hsub hx)⟩
      rw [List.foldlM_cons, hfol]
      exact hfold
  obtain ⟨s, hfold, hkept, hall, -⟩ := hloop g.nodes.keys {} {} (fun _ h => h)
    ⟨base_start g, .inr (full_start P g)⟩
  exact ⟨s, hfold, hkept, hall⟩

end

/-- What the search finds: parts of components, and the components themselves as far as nothing
goes wrong. -/
structure Found (g : DirectedGraph) (sets : List (List String)) : Prop where
  nonempty : ∀ set ∈ sets, set ≠ []
  disjoint : sets.flatten.Nodup
  same : ∀ set ∈ sets, ∀ a ∈ set, a ∈ g.nodes.keys ∧ ∀ b ∈ set, SameComponent g.succ a b
  linked : ∀ set ∈ sets, ∀ r ∈ set, IsEntry g.succ (scanAll g.succ g.nodes.keys).visited r →
    ∀ v ∈ set, Linked (scanAll g.succ g.nodes.keys).examined v r
  /-- If connections do not leave `P` and its nodes are linked to the entries, its components
  are found. -/
  whole : ∀ P : String → Prop, (∀ a, P a → ∀ b ∈ g.succ a, P b) →
    (∀ v ∈ g.nodes.keys, P v → LinkedToEntry g.succ (scanAll g.succ g.nodes.keys) v) →
    ∀ v ∈ g.nodes.keys, P v → ∃ set ∈ sets, ∀ y, y ∈ set ↔ SameComponent g.succ v y

theorem mem_scanAll (hg : Closed g) {v : String} :
    v ∈ (scanAll g.succ g.nodes.keys).visited ↔ v ∈ g.nodes.keys := by
  obtain ⟨s, -, ⟨hbase, -⟩, hall⟩ := exists_search hg (P := fun _ => False) fun _ h => h.elim
  exact ⟨fun h => hbase.nodes h, fun h => hall h⟩

theorem exists_found (hg : Closed g) :
    ∃ sets, g.getStronglyConnectedComponents = .ok sets ∧ Found g sets := by
  obtain ⟨s, hsearch, ⟨hbase, hcases⟩, hall⟩ :=
    exists_search hg (P := fun _ => False) fun _ h => h.elim
  have hresult : g.getStronglyConnectedComponents = .ok s.stronglyConnectedComponents := by
    rw [getStronglyConnectedComponents, hsearch]
    rfl
  have hfull := hcases.resolve_left fun ⟨_, _, h, _⟩ => h
  refine ⟨_, hresult, fun set hset => (hbase.popped set hset).1, hfull.disjoint.1,
    fun set hset a ha => ?_, fun set hset r hr hentry v hv => ?_, fun P hP hlinked v hv hvP => ?_⟩
  · obtain ⟨-, u, -, hpopped⟩ := hbase.popped set hset
    have hsame : ∀ x ∈ set, SameComponent g.succ u x := fun x hx => by
      obtain ⟨-, -, hreach, hlink⟩ := hpopped x hx
      exact ⟨hreach, hbase.reaches hlink⟩
    exact ⟨hbase.nodes (hpopped a ha).1, fun b hb => (hsame a ha).symm.trans (hsame b hb)⟩
  · -- the low-link of an entry is its own id
    obtain ⟨-, u, hu, hpopped⟩ := hbase.popped set hset
    obtain ⟨-, hle, hur, hru⟩ := hpopped r hr
    obtain ⟨-, -, -, hvu⟩ := hpopped v hv
    have hmin := hentry.2 u hu ⟨hur, hbase.reaches hru⟩
    rwa [rank_inj hentry.1 hu (le_antisymm hmin hle)]
  · obtain ⟨s', hsearch', ⟨hbase', hcases'⟩, -⟩ := exists_search hg hP
    rw [hsearch, Except.ok.injEq] at hsearch'
    subst hsearch'
    have hfull : Full P g [] s (scanAll g.succ g.nodes.keys) := by
      refine hcases'.resolve_left ?_
      rintro ⟨y, r, hyP, hy, -, hr, hsame, hnot⟩
      obtain ⟨r', hr', hsame', hlink⟩ := hlinked y (hbase'.nodes hy) hyP
      exact hnot (hr.eq hr' (hsame.trans hsame'.symm) ▸ hlink)
    have hempty : v ∉ s.stack := fun hmem => by
      obtain ⟨-, r, hr, -⟩ := (hfull.mem_stack v hvP).mp hmem
      cases hr
    obtain ⟨set, hset, hvset⟩ := hfull.covered v (hall hv) hvP hempty
    exact ⟨set, hset, (hfull.component set hset v hvset hvP).2.2⟩

/-- **When the components are found.**  The search always ends with a list of sets, and
these are the strongly connected components iff each node is linked to the entry of its
component. -/
theorem getStronglyConnectedComponents_iff (hg : Closed g) :
    (∃ sets, g.getStronglyConnectedComponents = .ok sets ∧ g.AreComponents sets) ↔
      LinkedToEntries g.succ (scanAll g.succ g.nodes.keys) := by
  obtain ⟨sets, hresult, hfound⟩ := exists_found hg
  constructor
  · -- the sets contain the entries
    rintro ⟨sets', hsets, hcomponents⟩ v hv
    rw [hresult, Except.ok.injEq] at hsets
    subst hsets
    obtain ⟨r, hentry, hsame⟩ := exists_entry g.succ hv
    refine ⟨r, hentry, hsame, ?_⟩
    obtain ⟨set, hset, hrset, hvset⟩ := (hcomponents.same r ((mem_scanAll hg).mp hentry.1) v
      ((mem_scanAll hg).mp hv)).mpr hsame
    exact hfound.linked set hset r hrset hentry v hvset
  · intro hlinked
    have hwhole := hfound.whole (fun _ => True) (fun _ _ _ _ => trivial)
      fun v hv _ => hlinked v ((mem_scanAll hg).mpr hv)
    refine ⟨_, hresult, hfound.nonempty, ?_, fun a ha b _ => ⟨?_, fun hsame => ?_⟩⟩
    · refine (List.perm_ext_iff_of_nodup hfound.disjoint g.nodes.nodup_keys).mpr fun x => ?_
      rw [List.mem_flatten]
      constructor
      · rintro ⟨set, hset, hx⟩
        exact (hfound.same set hset x hx).1
      · intro hx
        obtain ⟨set, hset, hiff⟩ := hwhole x hx trivial
        exact ⟨set, hset, (hiff x).mpr (.refl x)⟩
    · rintro ⟨set, hset, ha', hb⟩
      exact (hfound.same set hset a ha').2 b hb
    · obtain ⟨set, hset, hiff⟩ := hwhole a ha trivial
      exact ⟨set, hset, (hiff a).mpr (.refl a), (hiff b).mpr hsame⟩

end Result

/-! ### Two graphs -/

/-- The graph of some nodes and connections between their main inputs and outputs. -/
def ofNames (names : List String) (connections : List (String × String)) : DirectedGraph :=
  (connections.map fun c => ⟨c.1, c.2, .main, 0, 0⟩).foldl putConnection
    (addNodes {} (names.map fun name => { name }))

/-- Three nodes in a ring. -/
def ring : DirectedGraph := ofNames ["a", "b", "c"] [("a", "b"), ("b", "c"), ("c", "a")]

theorem closed_ring : Closed ring where
  valid := (valid_empty.addNodes _).putConnections _
  fromName := by decide
  toName := by decide

theorem linkedToEntries_ring : LinkedToEntries ring.succ (scanAll ring.succ ring.nodes.keys) := by
  intro v hv
  have hab : Reaches ring.succ "a" "b" := Reaches.edge (by decide)
  have hbc : Reaches ring.succ "b" "c" := Reaches.edge (by decide)
  have hca : Reaches ring.succ "c" "a" := Reaches.edge (by decide)
  have hvisited : (scanAll ring.succ ring.nodes.keys).visited = ["c", "b", "a"] := by decide
  refine ⟨"a", ⟨by decide, fun x _ _ => ?_⟩, ?_⟩
  · have hfirst : rank (scanAll ring.succ ring.nodes.keys).visited "a" = 0 := by decide
    rw [hfirst]
    exact Nat.zero_le _
  · rw [hvisited] at hv
    rcases List.mem_cons.mp hv with rfl | hv
    · exact ⟨⟨hab.trans hbc, hca⟩, by decide⟩
    rcases List.mem_cons.mp hv with rfl | hv
    · exact ⟨⟨hab, hbc.trans hca⟩, by decide⟩
    · rw [List.mem_singleton.mp hv]
      exact ⟨.refl _, by decide⟩

/-- The ring is one component. -/
theorem areComponents_ring :
    ∃ sets, ring.getStronglyConnectedComponents = .ok sets ∧ ring.AreComponents sets :=
  (getStronglyConnectedComponents_iff closed_ring).mpr linkedToEntries_ring

def row : DirectedGraph := ofNames ["a", "b", "c"] [("a", "b"), ("b", "c"), ("c", "b"), ("b", "a")]

/-- The low-link of the last node is the id of the middle one, which is not the entry: nothing
is popped. -/
theorem not_areComponents_row : Closed row ∧
    ¬ ∃ sets, row.getStronglyConnectedComponents = .ok sets ∧ row.AreComponents sets := by
  refine ⟨⟨(valid_empty.addNodes _).putConnections _, by decide, by decide⟩, ?_⟩
  rintro ⟨sets, hsets, hcomponents⟩
  have hnone : row.getStronglyConnectedComponents = .ok [] := by decide
  rw [hnone, Except.ok.injEq] at hsets
  subst hsets
  exact absurd hcomponents.partition.length_eq (by decide)

end DirectedGraph

end N8n
