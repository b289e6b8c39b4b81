/-
In which cases the parameters of a node are ordered by what they depend on.

* **`resolvesInOrder_iff`** — the order is right, or a cycle is found, if and only if a dependency is
  missing, the list is in order already, or its first turns are stuck.
-/
import Mathlib.Algebra.Order.BigOperators.Group.List
import Mathlib.Tactic.Ring
import N8n.ResolveTurns

namespace N8n.NodeHelpers

variable {properties : List INodeProperties} {s : ResolveState} {i : ℕ} {property : INodeProperties}
  {rest : List ℕ} {rounds : ℕ}

theorem resolveIndexes_nil (h : s.indexToResolve = []) (dependencies : IParameterDependencies) :
    resolveIndexes properties dependencies rounds s = .ok s.executionOrder := by
  cases rounds with
  | zero => rw [resolveIndexes, if_pos h]; rfl
  | succ rounds => rw [resolveIndexes, h]; rfl

theorem resolveIndexes_of_late (h : s.indexToResolve = i :: rest)
    (hget : properties[i]? = some property) (hlate : Late properties s i property.name rest) :
    resolveIndexes properties (getParameterDependencies properties) (rounds + 1) s =
      throwing .couldNotResolveParameterDependencies := by
  rw [resolveIndexes, h]
  simp only [resolveIndex_of_late hget hlate]
  rfl

theorem resolveIndexes_of_not_late (h : s.indexToResolve = i :: rest)
    (hget : properties[i]? = some property) (hlate : ¬ Late properties s i property.name rest) :
    resolveIndexes properties (getParameterDependencies properties) (rounds + 1) s =
      resolveIndexes properties (getParameterDependencies properties) rounds
        (turn properties s i property.name rest) := by
  rw [resolveIndexes, h]
  simp only [resolveIndex_of_not_late hget hlate]
  rfl

theorem prefix_of_resolveIndexes {dependencies : IParameterDependencies} : ∀ {rounds : ℕ}
    {s : ResolveState} {order : List ℕ},
    resolveIndexes properties dependencies rounds s = .ok order → s.executionOrder <+: order := by
  intro rounds
  induction rounds with
  | zero =>
    intro s order h
    rw [resolveIndexes] at h
    split at h
    · cases h
      exact List.prefix_rfl
    · cases h
  | succ rounds ih =>
    intro s order h
    rw [resolveIndexes] at h
    split at h
    · cases h
      exact List.prefix_rfl
    · obtain ⟨t, ht, hrest⟩ := exists_of_bind_eq_ok h
      exact (List.prefix_append _ _).trans ((of_resolveIndex ht).1 ▸ ih hrest)

theorem firstTurns_start : FirstTurns properties 0 {
    executionOrder := []
    indexToResolve := List.range properties.length
    resolvedParameters := []
    lastIndexLength := properties.length
    lastIndexReduction := -1
    iterations := 0 } := by
  refine ⟨rfl, ?_, rfl, rfl, ?_, .inl ⟨rfl, fun i hi => absurd hi i.not_lt_zero⟩⟩
  · rw [Nat.sub_zero, List.range_eq_range', again, List.range_zero, List.flatMap_nil,
      List.append_nil]
  · rw [List.length_range, freeBefore, Nat.add_zero]

theorem resolveIndexes_firstTurns (rounds : ℕ) : ∀ {m k : ℕ} {s : ResolveState},
    FirstTurns properties k s → k + m = properties.length →
    (Stuck properties → 0 < m →
      resolveIndexes properties (getParameterDependencies properties) (rounds + m) s =
        throwing .couldNotResolveParameterDependencies) ∧
    (¬ Stuck properties → ∃ t, FirstTurns properties properties.length t ∧
      resolveIndexes properties (getParameterDependencies properties) (rounds + m) s =
        resolveIndexes properties (getParameterDependencies properties) rounds t) := by
  intro m
  induction m with
  | zero =>
    intro k s h hk
    exact ⟨fun _ hm => absurd hm (Nat.lt_irrefl 0), fun _ => ⟨s, hk ▸ h, rfl⟩⟩
  | succ m ih =>
    intro k s h hk
    have hlt : k < properties.length := by omega
    have hget : properties[k]? = some properties[k] := List.getElem?_eq_getElem hlt
    have hqueue := queue_of_firstTurns h hlt
    have hlate := late_iff h hlt (properties[k]).name
    obtain ⟨hstuck, hrun⟩ := ih (firstTurns_turn h hget) (by omega)
    by_cases hlast : Late properties s k (properties[k]).name (restAt properties k)
    · exact ⟨fun _ _ => resolveIndexes_of_late hqueue hget hlast,
        fun hnot => absurd (hlate.mp hlast).2 hnot⟩
    · rw [← Nat.add_assoc, resolveIndexes_of_not_late hqueue hget hlast]
      refine ⟨fun hyes _ => hstuck hyes ?_, hrun⟩
      by_contra hm
      exact hlast (hlate.mpr ⟨by omega, hyes⟩)

section Later

variable (properties) in
/-- An index misses a name that is not in the list. -/
def Stray (i : ℕ) : Prop :=
  ∃ q ∈ dependenciesOf properties i, q.toList.head? ≠ some '/' ∧
    q ∉ properties.map INodeProperties.name

instance : DecidablePred (Stray properties) := fun i =>
  inferInstanceAs (Decidable (∃ q ∈ dependenciesOf properties i, _))

structure Settled (properties : List INodeProperties) (s : ResolveState) : Prop where
  names : ∀ q, q ∈ s.resolvedParameters ↔ q ∈ properties.map INodeProperties.name
  indexes : ∀ i ∈ s.indexToResolve, i < properties.length ∧ dependenciesOf properties i ≠ []
  length : s.indexToResolve.length ≤ s.lastIndexLength

theorem mem_again {k : ℕ} (h : i ∈ again properties k) :
    i < k ∧ dependenciesOf properties i ≠ [] := by
  obtain ⟨j, hj, hi⟩ := List.mem_flatMap.mp h
  obtain ⟨hmissing, rfl⟩ := List.mem_replicate.mp hi
  refine ⟨List.mem_range.mp hj, fun hnil => hmissing ?_⟩
  rw [missingAt, hnil]
  rfl

theorem FirstTurns.settled (h : FirstTurns properties properties.length s) :
    Settled properties s := by
  have hqueue : s.indexToResolve = again properties properties.length := by
    rw [h.queue, Nat.sub_self]
    rfl
  refine ⟨fun q => ?_, fun i hi => mem_again (hqueue ▸ hi), ?_⟩
  · rw [h.names, namesBefore, List.take_length]
  · rw [h.length]
    exact Nat.le_add_right _ _

theorem missing_eq_nil_iff (h : Settled properties s) :
    missingDependencies (dependenciesOf properties i) s.resolvedParameters = [] ↔
      ¬ Stray properties i := by
  rw [missingDependencies, List.filter_eq_nil_iff, Stray]
  constructor
  · rintro hnone ⟨q, hq, hslash, hname⟩
    exact hnone q hq (decide_eq_true ⟨fun hresolved => hname ((h.names q).mp hresolved), hslash⟩)
  · intro hstray q hq hmissing
    obtain ⟨hname, hslash⟩ := of_decide_eq_true hmissing
    exact hstray ⟨q, hq, hslash, fun hlisted => hname ((h.names q).mpr hlisted)⟩

theorem missing_pos_iff (h : Settled properties s) :
    0 < (missingDependencies (dependenciesOf properties i) s.resolvedParameters).length ↔
      Stray properties i := by
  rw [List.length_pos_iff, ne_eq, missing_eq_nil_iff h, not_not]

section

variable (h : Settled properties s) (hqueue : s.indexToResolve = i :: rest)
include h hqueue

theorem Settled.turn
    (hget : properties[i]? = some property) :
    Settled properties (turn properties s i property.name rest) ∧
      (NodeHelpers.turn properties s i property.name rest).lastIndexLength =
        (NodeHelpers.turn properties s i property.name rest).indexToResolve.length := by
  have hindexes := h.indexes
  rw [hqueue] at hindexes
  obtain ⟨hi, hne⟩ := hindexes i List.mem_cons_self
  have hlength : (NodeHelpers.turn properties s i property.name rest).lastIndexLength =
      (NodeHelpers.turn properties s i property.name rest).indexToResolve.length := if_neg hne
  refine ⟨⟨fun q => ?_, ?_, hlength.ge⟩, hlength⟩
  · have hname : property.name ∈ properties.map INodeProperties.name :=
      List.mem_map_of_mem (List.mem_of_getElem? hget)
    show q ∈ s.resolvedParameters ++ [property.name] ↔ _
    rw [List.mem_append, h.names, List.mem_singleton]
    exact ⟨fun hq => hq.elim id fun hq => hq ▸ hname, .inl⟩
  · intro j hj
    rcases List.mem_append.mp hj with hj | hj
    · exact hindexes j (List.mem_cons_of_mem _ hj)
    · obtain rfl := List.eq_of_mem_replicate hj
      exact ⟨hi, hne⟩

theorem turn_of_not_stray
    (hstray : ¬ Stray properties i) (name : String) :
    (turn properties s i name rest).indexToResolve = rest ∧
      (turn properties s i name rest).lastIndexReduction = s.iterations + 1 := by
  have hmissing := (missing_eq_nil_iff h).mpr hstray
  have hrest : (turn properties s i name rest).indexToResolve = rest := by
    simp only [turn, hmissing, List.length_nil, List.replicate_zero, List.append_nil]
  refine ⟨hrest, ?_⟩
  have hne := (h.indexes i (hqueue ▸ List.mem_cons_self)).2
  have hlength := h.length
  rw [hqueue, List.length_cons] at hlength
  have hreduction : (turn properties s i name rest).lastIndexReduction =
      s.reduction (turn properties s i name rest).indexToResolve := if_neg hne
  rw [hreduction, hrest, ResolveState.reduction, if_pos (by omega)]

theorem not_late_of_not_stray
    (hstray : ¬ Stray properties i) (name : String) : ¬ Late properties s i name rest := by
  rintro ⟨-, hlt⟩
  rw [(turn_of_not_stray h hqueue hstray name).2] at hlt
  have hiterations : (turn properties s i name rest).iterations = s.iterations + 1 := rfl
  rw [hiterations] at hlt
  push_cast at hlt
  omega

end

theorem exists_order_of_settled (hnone : ∀ i, ¬ Stray properties i) : ∀ {rounds : ℕ}
    {s : ResolveState}, Settled properties s → s.indexToResolve.length ≤ rounds →
    ∃ order, resolveIndexes properties (getParameterDependencies properties) rounds s =
      .ok order := by
  intro rounds
  induction rounds with
  | zero =>
    intro s h hlength
    exact ⟨_, resolveIndexes_nil (List.eq_nil_of_length_eq_zero (Nat.le_zero.mp hlength)) _⟩
  | succ rounds ih =>
    intro s h hlength
    rcases hqueue : s.indexToResolve with _ | ⟨i, rest⟩
    · exact ⟨_, resolveIndexes_nil hqueue _⟩
    · have hi := (h.indexes i (hqueue ▸ List.mem_cons_self)).1
      have hget : properties[i]? = some properties[i] := List.getElem?_eq_getElem hi
      rw [resolveIndexes_of_not_late hqueue hget
        (not_late_of_not_stray h hqueue (hnone i) _)]
      refine ih (h.turn hqueue hget).1 ?_
      rw [(turn_of_not_stray h hqueue (hnone i) _).1]
      rw [hqueue, List.length_cons] at hlength
      exact Nat.le_of_succ_le_succ hlength

variable (properties) in
def settledCount (indexToResolve : List ℕ) : ℕ :=
  indexToResolve.countP fun i => ¬ Stray properties i

theorem mem_turn (h : Settled properties s) {j : ℕ} (hj : j ∈ i :: rest)
    (hstray : Stray properties j) (name : String) :
    j ∈ (turn properties s i name rest).indexToResolve := by
  show j ∈ rest ++ List.replicate _ i
  rw [List.mem_append, List.mem_replicate]
  rcases List.mem_cons.mp hj with rfl | hj
  · exact .inr ⟨((missing_pos_iff h).mpr hstray).ne', rfl⟩
  · exact .inl hj

theorem settledCount_turn (h : Settled properties s) (name : String) :
    settledCount properties (turn properties s i name rest).indexToResolve =
      settledCount properties rest := by
  show List.countP _ (rest ++ List.replicate _ i) = _
  rw [settledCount, List.countP_append, Nat.add_eq_left, List.countP_eq_zero]
  intro j hj
  obtain ⟨hmissing, rfl⟩ := List.mem_replicate.mp hj
  rw [decide_eq_true_iff, not_not, ← missing_pos_iff h]
  exact Nat.pos_of_ne_zero hmissing

theorem reduction_of_stray (h : Settled properties s) (hqueue : s.indexToResolve = i :: rest)
    (hlength : s.lastIndexLength = s.indexToResolve.length) (hstray : Stray properties i)
    (name : String) :
    (turn properties s i name rest).lastIndexReduction = s.lastIndexReduction := by
  have hpos := (missing_pos_iff h).mpr hstray
  have hreduction : (turn properties s i name rest).lastIndexReduction =
      s.reduction (rest ++ List.replicate (missingDependencies (dependenciesOf properties i)
        s.resolvedParameters).length i) :=
    if_neg (h.indexes i (hqueue ▸ List.mem_cons_self)).2
  rw [hreduction, ResolveState.reduction, List.length_append, List.length_replicate, hlength,
    hqueue, List.length_cons, if_neg (by omega)]

theorem throws_of_settled {stray : ℕ} (hstray : Stray properties stray) : ∀ {rounds : ℕ}
    (budget : ℕ) {s : ResolveState}, Settled properties s → stray ∈ s.indexToResolve →
    s.lastIndexLength = s.indexToResolve.length →
    s.iterations ≤ s.lastIndexReduction + properties.length →
    s.lastIndexReduction + properties.length + 1 - s.iterations ≤ budget →
    settledCount properties s.indexToResolve * (properties.length + 1) + budget ≤ rounds →
    resolveIndexes properties (getParameterDependencies properties) rounds s =
      throwing .couldNotResolveParameterDependencies := by
  intro rounds
  induction rounds with
  | zero =>
    intro budget s _ _ _ hsoon hbudget hrounds
    omega
  | succ rounds ih =>
    intro budget s h hmem hlength hsoon hbudget hrounds
    rcases hqueue : s.indexToResolve with _ | ⟨i, rest⟩
    · rw [hqueue] at hmem
      exact absurd hmem List.not_mem_nil
    · obtain ⟨hi, hne⟩ := h.indexes i (hqueue ▸ List.mem_cons_self)
      have hget : properties[i]? = some properties[i] := List.getElem?_eq_getElem hi
      by_cases hlate : Late properties s i (properties[i]).name rest
      · exact resolveIndexes_of_late hqueue hget hlate
      rw [resolveIndexes_of_not_late hqueue hget hlate]
      obtain ⟨hsettled, hexact⟩ := h.turn hqueue hget
      have hstay := mem_turn h (hqueue ▸ hmem) hstray (properties[i]).name
      have hiterations :
          (turn properties s i (properties[i]).name rest).iterations = s.iterations + 1 := rfl
      have hin : (turn properties s i (properties[i]).name rest).iterations ≤
          (turn properties s i (properties[i]).name rest).lastIndexReduction
            + properties.length := not_lt.mp fun hlt => hlate ⟨hne, hlt⟩
      by_cases hi : Stray properties i
      · have hcount : settledCount properties s.indexToResolve = settledCount properties rest := by
          rw [hqueue, settledCount, List.countP_cons, if_neg (by simpa using hi)]
          rfl
        refine ih (budget - 1) hsettled hstay hexact hin ?_ ?_
        · rw [reduction_of_stray h hqueue hlength hi, hiterations]
          push_cast
          omega
        · rw [settledCount_turn h, ← hcount]
          omega
      · have hcount : settledCount properties s.indexToResolve = settledCount properties rest + 1 := by
          rw [hqueue, settledCount, List.countP_cons, if_pos (by simpa using hi)]
          rfl
        refine ih (properties.length + 1) hsettled hstay hexact hin ?_ ?_
        · rw [(turn_of_not_stray h hqueue hi _).2, hiterations]
          push_cast
          omega
        · rw [hcount, Nat.add_mul] at hrounds
          rw [settledCount_turn h]
          omega

end Later

section Rounds

variable (properties) in
/-- How many dependencies were found, with those of all names. -/
def dependencyCount : ℕ :=
  ((getParameterDependencies properties).map fun names => names.2.length).sum

theorem length_dependenciesOf_le (hi : i < properties.length) :
    (dependenciesOf properties i).length ≤ dependencyCount properties := by
  have hget := get_getParameterDependencies (List.getElem?_eq_getElem hi)
  obtain ⟨slot, hslot, hnames⟩ := Option.map_eq_some_iff.mp hget
  have hmem : slot.2.length ∈
      (getParameterDependencies properties).map fun names => names.2.length :=
    List.mem_map_of_mem (List.mem_of_find?_eq_some hslot)
  exact hnames ▸ List.le_sum_of_mem hmem

theorem length_again_le :
    (again properties properties.length).length
      ≤ properties.length * dependencyCount properties := by
  rw [again, List.length_flatMap]
  have hle : ∀ count ∈ (List.range properties.length).map fun i =>
      (List.replicate (missingAt properties i) i).length,
      count ≤ dependencyCount properties := by
    intro count hcount
    obtain ⟨i, hi, rfl⟩ := List.mem_map.mp hcount
    rw [List.length_replicate]
    exact (List.length_filter_le _ _).trans (length_dependenciesOf_le (List.mem_range.mp hi))
  have hsum := List.sum_le_card_nsmul _ _ hle
  rw [List.length_map, List.length_range] at hsum
  exact hsum

theorem resolveRounds_eq : resolveRounds properties (getParameterDependencies properties) =
    properties.length * dependencyCount properties * (properties.length + 1)
      + (properties.length + 1) + (properties.length + 2) + properties.length := by
  rw [resolveRounds, ← dependencyCount]
  ring

theorem getParameterResolveOrder_of_stuck (h : Stuck properties) :
    getParameterResolveOrder properties (getParameterDependencies properties) =
      throwing .couldNotResolveParameterDependencies := by
  obtain ⟨⟨i, hi, -⟩, -⟩ := id h
  rw [getParameterResolveOrder, resolveRounds_eq]
  exact (resolveIndexes_firstTurns _ firstTurns_start (Nat.zero_add _)).1 h (by omega)

theorem exists_firstTurns (h : ¬ Stuck properties) : ∃ t, FirstTurns properties properties.length t ∧
    getParameterResolveOrder properties (getParameterDependencies properties) =
      resolveIndexes properties (getParameterDependencies properties)
        (properties.length * dependencyCount properties * (properties.length + 1)
          + (properties.length + 1) + (properties.length + 2)) t := by
  rw [getParameterResolveOrder, resolveRounds_eq]
  exact (resolveIndexes_firstTurns _ firstTurns_start (Nat.zero_add _)).2 h

theorem queue_of_firstTurns_length (h : FirstTurns properties properties.length s) :
    s.indexToResolve = again properties properties.length := by
  rw [h.queue, Nat.sub_self]
  rfl

theorem exists_order (hstuck : ¬ Stuck properties) (hnone : ∀ i, ¬ Stray properties i) :
    ∃ order, getParameterResolveOrder properties (getParameterDependencies properties) =
      .ok order := by
  obtain ⟨t, ht, hrun⟩ := exists_firstTurns hstuck
  rw [hrun]
  refine exists_order_of_settled hnone ht.settled ?_
  rw [queue_of_firstTurns_length ht]
  have hle : (again properties properties.length).length ≤ _ := length_again_le
  have hmul : properties.length * dependencyCount properties * 1 ≤
    properties.length * dependencyCount properties * (properties.length + 1) :=
    Nat.mul_le_mul_left _ (Nat.le_add_left 1 _)
  omega

theorem mem_again_of_stray (h : Stray properties i) (hi : i < properties.length) :
    i ∈ again properties properties.length := by
  obtain ⟨q, hq, hslash, hname⟩ := h
  refine List.mem_flatMap.mpr ⟨i, List.mem_range.mpr hi, List.mem_replicate.mpr ⟨?_, rfl⟩⟩
  have hmem : q ∈ missingDependencies (dependenciesOf properties i) (namesBefore properties i) := by
    refine List.mem_filter.mpr ⟨hq, decide_eq_true ⟨fun hbefore => hname ?_, hslash⟩⟩
    exact List.map_subset _ (List.take_subset i properties) hbefore
  exact (List.length_pos_of_mem hmem).ne'

theorem reduction_turn_le (h : s.lastIndexReduction ≤ s.iterations) (i : ℕ) (name : String)
    (rest : List ℕ) :
    (turn properties s i name rest).lastIndexReduction
      ≤ (turn properties s i name rest).iterations := by
  simp only [turn, ResolveState.reduction]
  push_cast
  split
  · omega
  · split
    · exact le_rfl
    · omega

theorem throws_of_stray (h : Stray properties i) (hi : i < properties.length) :
    getParameterResolveOrder properties (getParameterDependencies properties) =
      throwing .couldNotResolveParameterDependencies := by
  by_cases hstuck : Stuck properties
  · exact getParameterResolveOrder_of_stuck hstuck
  obtain ⟨t, ht, hrun⟩ := exists_firstTurns hstuck
  rw [hrun]
  have hmem : i ∈ t.indexToResolve := queue_of_firstTurns_length ht ▸ mem_again_of_stray h hi
  rcases hqueue : t.indexToResolve with _ | ⟨index, rest⟩
  · rw [hqueue] at hmem
    exact absurd hmem List.not_mem_nil
  have hsettled := ht.settled
  obtain ⟨hindex, hne⟩ := hsettled.indexes index (hqueue ▸ List.mem_cons_self)
  have hget : properties[index]? = some properties[index] := List.getElem?_eq_getElem hindex
  by_cases hlate : Late properties t index (properties[index]).name rest
  · exact resolveIndexes_of_late hqueue hget hlate
  rw [← Nat.add_assoc, resolveIndexes_of_not_late hqueue hget hlate]
  obtain ⟨hnext, hexact⟩ := hsettled.turn hqueue hget
  have hin : (turn properties t index (properties[index]).name rest).iterations ≤
      (turn properties t index (properties[index]).name rest).lastIndexReduction
        + properties.length := not_lt.mp fun hlt => hlate ⟨hne, hlt⟩
  have hreduction : t.lastIndexReduction ≤ t.iterations := by
    rw [ht.iterations]
    exact ht.reduction.elim (fun hfirst => hfirst.1 ▸ by omega) fun hsome => hsome.2.1
  refine throws_of_settled h (properties.length + 1) hnext
    (mem_turn hsettled (hqueue ▸ hmem) h _) hexact hin ?_ ?_
  · have hle : (turn properties t index (properties[index]).name rest).lastIndexReduction ≤ _ :=
      reduction_turn_le hreduction index _ rest
    omega
  · have hcount : settledCount properties rest ≤ properties.length * dependencyCount properties := by
      refine List.countP_le_length.trans (le_trans ?_ length_again_le)
      rw [← queue_of_firstTurns_length ht, hqueue, List.length_cons]
      exact Nat.le_succ _
    rw [settledCount_turn hsettled]
    have hmul := Nat.mul_le_mul_right (properties.length + 1) hcount
    omega

end Rounds

variable (properties) in
/-- Every index is there once, after every index of the names it depends on. -/
structure InDependencyOrder (order : List ℕ) : Prop where
  once : order.Perm (List.range properties.length)
  after : ∀ (i j : ℕ) (property dependency : INodeProperties), properties[i]? = some property →
    properties[j]? = some dependency → DependsOn properties property.name dependency.name →
    order.idxOf j < order.idxOf i

variable (properties) in
/-- Parameters are resolved after what they depend on, and a cycle throws. -/
def ResolvesInOrder : Prop :=
  (Listed properties → Acyclic properties →
    ∃ order, getParameterResolveOrder properties (getParameterDependencies properties) = .ok order ∧
      InDependencyOrder properties order) ∧
  (¬ Acyclic properties →
    getParameterResolveOrder properties (getParameterDependencies properties) =
      throwing .couldNotResolveParameterDependencies)

theorem listed_iff : Listed properties ↔ ∀ i, ¬ Stray properties i := by
  constructor
  · rintro hlisted i ⟨q, hq, hslash, hname⟩
    rcases hget : properties[i]? with _ | property
    · rw [dependenciesOf, hget] at hq
      exact absurd hq List.not_mem_nil
    · obtain ⟨other, hmem, rfl⟩ := hlisted _ q ((dependsOn_iff hget).mpr ⟨hq, hslash⟩)
      exact hname (List.mem_map_of_mem hmem)
  · rintro hnone p q h
    obtain ⟨⟨property, hmem, rfl, -⟩, -⟩ := id h
    obtain ⟨i, hget⟩ := List.getElem?_of_mem hmem
    obtain ⟨hq, hslash⟩ := (dependsOn_iff hget).mp h
    by_contra hnot
    refine hnone i ⟨q, hq, hslash, fun hname => hnot ?_⟩
    obtain ⟨other, hother, rfl⟩ := List.mem_map.mp hname
    exact ⟨other, hother, rfl⟩

theorem throws_of_not_listed (h : ¬ Listed properties) :
    getParameterResolveOrder properties (getParameterDependencies properties) =
      throwing .couldNotResolveParameterDependencies := by
  rw [listed_iff, not_forall] at h
  obtain ⟨i, hi⟩ := h
  have hstray := not_not.mp hi
  refine throws_of_stray hstray ?_
  obtain ⟨q, hq, -⟩ := hstray
  by_contra hle
  rw [dependenciesOf, List.getElem?_eq_none (not_lt.mp hle)] at hq
  exact absurd hq List.not_mem_nil

theorem missingAt_of_ordered (hordered : Ordered properties) (hlisted : Listed properties)
    (hi : i < properties.length) : missingAt properties i = 0 := by
  rw [missingAt, List.length_eq_zero_iff, missingDependencies, List.filter_eq_nil_iff]
  intro q hq hmissing
  obtain ⟨hname, hslash⟩ := of_decide_eq_true hmissing
  have hget : properties[i]? = some properties[i] := List.getElem?_eq_getElem hi
  have hdepends := (dependsOn_iff hget).mpr ⟨hq, hslash⟩
  obtain ⟨dependency, hmem, rfl⟩ := hlisted _ _ hdepends
  obtain ⟨j, hj⟩ := List.getElem?_of_mem hmem
  have hlt := hordered i j _ dependency hget hj hdepends
  have htake : (properties.take i)[j]? = some dependency := by
    rw [List.getElem?_take_of_lt hlt, hj]
  exact hname (List.mem_map_of_mem (List.mem_of_getElem? htake))

theorem idxOf_range {n : ℕ} (hi : i < n) : (List.range n).idxOf i = i := by
  have hidx := (List.nodup_range (n := n)).idxOf_getElem i (by rw [List.length_range]; exact hi)
  rwa [List.getElem_range] at hidx

theorem inDependencyOrder_of_ordered (hordered : Ordered properties)
    (hlisted : Listed properties) :
    ∃ order, getParameterResolveOrder properties (getParameterDependencies properties) =
      .ok order ∧ InDependencyOrder properties order := by
  have hstuck : ¬ Stuck properties := by
    rintro ⟨⟨i, hi, hne⟩, hnone⟩
    refine hnone i (by omega) ⟨hne, ?_⟩
    rw [missingAt_of_ordered hordered hlisted (by omega)]
    exact Nat.zero_le _
  obtain ⟨t, ht, hrun⟩ := exists_firstTurns hstuck
  have hnil : again properties properties.length = [] := by
    refine List.flatMap_eq_nil_iff.mpr fun i hi => ?_
    rw [missingAt_of_ordered hordered hlisted (List.mem_range.mp hi), List.replicate_zero]
  refine ⟨List.range properties.length, ?_, .refl _, ?_⟩
  · rw [hrun, resolveIndexes_nil (by rw [queue_of_firstTurns_length ht, hnil]), ht.order]
  · intro i j property dependency hi hj h
    have hlt := hordered i j property dependency hi hj h
    have hbound := (List.getElem?_eq_some_iff.mp hi).1
    rw [idxOf_range hbound, idxOf_range (hlt.trans hbound)]
    exact hlt

theorem ordered_of_inDependencyOrder {order : List ℕ}
    (hrun : getParameterResolveOrder properties (getParameterDependencies properties) = .ok order)
    (h : InDependencyOrder properties order) : Ordered properties := by
  have hstuck : ¬ Stuck properties := by
    intro hstuck
    rw [getParameterResolveOrder_of_stuck hstuck] at hrun
    cases hrun
  obtain ⟨t, ht, hsame⟩ := exists_firstTurns hstuck
  rw [hsame] at hrun
  have hpre := prefix_of_resolveIndexes hrun
  rw [ht.order] at hpre
  have horder : order = List.range properties.length :=
    (hpre.eq_of_length h.once.length_eq.symm).symm
  intro i j property dependency hi hj hdepends
  have hlt := h.after i j property dependency hi hj hdepends
  rw [horder, idxOf_range (List.getElem?_eq_some_iff.mp hi).1,
    idxOf_range (List.getElem?_eq_some_iff.mp hj).1] at hlt
  exact hlt

theorem not_acyclic_of_stuck (hlisted : Listed properties) (h : Stuck properties) :
    ¬ Acyclic properties := by
  obtain ⟨⟨i, hi, hne⟩, hnone⟩ := h
  have hlt : freeBefore properties i < missingAt properties i :=
    not_le.mp fun hle => hnone i (by omega) ⟨hne, hle⟩
  obtain ⟨q, hq⟩ := List.exists_mem_of_length_pos (Nat.zero_lt_of_lt hlt)
  obtain ⟨hq, hmissing⟩ := List.mem_filter.mp hq
  obtain ⟨hname, hslash⟩ := of_decide_eq_true hmissing
  have hget : properties[i]? = some properties[i] := List.getElem?_eq_getElem (by omega)
  have hdepends := (dependsOn_iff hget).mpr ⟨hq, hslash⟩
  obtain ⟨dependency, hmem, rfl⟩ := hlisted _ _ hdepends
  obtain ⟨j, hj⟩ := List.getElem?_of_mem hmem
  have hbound := (List.getElem?_eq_some_iff.mp hj).1
  rcases Nat.lt_succ_iff_lt_or_eq.mp (hi ▸ hbound) with hbefore | rfl
  · have htake : (properties.take i)[j]? = some dependency := by
      rw [List.getElem?_take_of_lt hbefore, hj]
    exact absurd (List.mem_map_of_mem (List.mem_of_getElem? htake)) hname
  · rw [Option.some.inj (hget.symm.trans hj)] at hdepends
    exact fun hacyclic => hacyclic _ (.single hdepends)

/-- **The order is right, or a cycle is found,** if and only if a dependency is missing from the
list, the list is in order already, or its first turns are stuck. -/
theorem resolvesInOrder_iff :
    ResolvesInOrder properties ↔
      ¬ Listed properties ∨ Ordered properties ∨ Stuck properties := by
  constructor
  · rintro ⟨horder, hcycle⟩
    by_cases hlisted : Listed properties
    · refine .inr ?_
      by_cases hacyclic : Acyclic properties
      · obtain ⟨order, hrun, h⟩ := horder hlisted hacyclic
        exact .inl (ordered_of_inDependencyOrder hrun h)
      · refine .inr (Classical.byContradiction fun hstuck => ?_)
        obtain ⟨order, hrun⟩ := exists_order hstuck (listed_iff.mp hlisted)
        rw [hcycle hacyclic] at hrun
        cases hrun
    · exact .inl hlisted
  · rintro (hlisted | hordered | hstuck)
    · exact ⟨fun h => absurd h hlisted, fun _ => throws_of_not_listed hlisted⟩
    · by_cases hlisted : Listed properties
      · exact ⟨fun _ _ => inDependencyOrder_of_ordered hordered hlisted,
          fun hcyclic => absurd (acyclic_of_ordered hordered hlisted) hcyclic⟩
      · exact ⟨fun h => absurd h hlisted, fun _ => throws_of_not_listed hlisted⟩
    · exact ⟨fun hlisted hacyclic => absurd hacyclic (not_acyclic_of_stuck hlisted hstuck),
        fun _ => getParameterResolveOrder_of_stuck hstuck⟩

def bodyBeforeMode : List INodeProperties :=
  [.simple ⟨"body", ⟨.string "", trivial⟩, some { «show» := some [("mode", [])] }⟩ .other,
    .simple ⟨"mode", ⟨.string "get", trivial⟩, none⟩ .options]

/-- The order is the body, the mode and the body once more. -/
theorem not_resolvesInOrder_bodyBeforeMode : ¬ ∀ properties, ResolvesInOrder properties := by
  intro h
  have hdepends : ∀ p q, DependsOn bodyBeforeMode p q → p = "body" ∧ q = "mode" := by
    rintro p q ⟨⟨property, hmem, rfl, hq⟩, -⟩
    rcases List.mem_pair.mp hmem with rfl | rfl
    · exact ⟨rfl, List.mem_singleton.mp hq⟩
    · exact absurd hq List.not_mem_nil
  have hlisted : Listed bodyBeforeMode := by
    intro p q hpq
    exact ⟨_, List.mem_cons_of_mem _ List.mem_cons_self, (hdepends p q hpq).2.symm⟩
  have hacyclic : Acyclic bodyBeforeMode := by
    intro p hp
    obtain ⟨q, hq, -⟩ := Relation.TransGen.head'_iff.mp hp
    obtain ⟨r, -, hr⟩ := Relation.TransGen.tail'_iff.mp hp
    exact absurd ((hdepends p q hq).1.symm.trans (hdepends r p hr).2) (by decide)
  obtain ⟨order, horder, hright⟩ := (h bodyBeforeMode).1 hlisted hacyclic
  have hsame : order = [0, 1, 0] := by
    have hrun : getParameterResolveOrder bodyBeforeMode
      (getParameterDependencies bodyBeforeMode) = .ok [0, 1, 0] := by decide
    exact Except.ok.inj (horder.symm.trans hrun)
  exact absurd (hright.once.length_eq.symm.trans (congrArg List.length hsame)) (by decide)

end N8n.NodeHelpers
