/-
The turns of the loop that orders the parameters of a node.

In the first turns every index is taken once, in its place; after them all names of the list are
resolved, and only the indexes of missing names are left.

* **`resolveIndex_of_firstTurns`** — what the first turns leave, or that they throw.
-/
import N8n.ParameterDependencies

namespace N8n.NodeHelpers

variable (properties : List INodeProperties)

def turn (s : ResolveState) (index : ℕ) (name : String) (rest : List ℕ) : ResolveState :=
  let names := dependenciesOf properties index
  let indexToResolve :=
    rest ++ List.replicate (missingDependencies names s.resolvedParameters).length index
  { executionOrder := s.executionOrder ++ [index]
    indexToResolve
    resolvedParameters := s.resolvedParameters ++ [name]
    lastIndexLength := if names = [] then s.lastIndexLength else indexToResolve.length
    lastIndexReduction :=
      if names = [] then s.lastIndexReduction else s.reduction indexToResolve
    iterations := s.iterations + 1 }

/-- A turn throws that comes too late after the last one that left fewer indexes. -/
def Late (s : ResolveState) (index : ℕ) (name : String) (rest : List ℕ) : Prop :=
  dependenciesOf properties index ≠ [] ∧
    (turn properties s index name rest).lastIndexReduction + properties.length
      < (turn properties s index name rest).iterations

variable {properties} {s : ResolveState} {index : ℕ} {property : INodeProperties} {rest : List ℕ}

theorem resolveIndex_of_late (h : properties[index]? = some property)
    (hlate : Late properties s index property.name rest) :
    resolveIndex properties (getParameterDependencies properties) s index rest =
      throwing .couldNotResolveParameterDependencies := by
  obtain ⟨hne, hlt⟩ := hlate
  simp only [turn, if_neg hne] at hlt
  obtain ⟨name, names, hnames⟩ := List.exists_cons_of_ne_nil hne
  rw [hnames] at hlt
  simp only [resolveIndex, h, get_getParameterDependencies h, hnames, List.map_const']
  exact if_pos hlt

theorem resolveIndex_of_not_late (h : properties[index]? = some property)
    (hlate : ¬ Late properties s index property.name rest) :
    resolveIndex properties (getParameterDependencies properties) s index rest =
      .ok (turn properties s index property.name rest) := by
  rcases hnames : dependenciesOf properties index with _ | ⟨name, names⟩
  · simp only [resolveIndex, h, get_getParameterDependencies h, turn, hnames, missingDependencies,
      List.filter_nil, List.length_nil, List.replicate_zero, List.append_nil, if_true]
    rfl
  · have hne : dependenciesOf properties index ≠ [] := by simp [hnames]
    have hnot : ¬ _ := fun hlt => hlate ⟨hne, hlt⟩
    simp only [turn, if_neg hne] at hnot ⊢
    rw [hnames] at hnot
    simp only [resolveIndex, h, get_getParameterDependencies h, hnames, List.map_const']
    exact if_neg hnot

section First

variable (properties)

def namesBefore (i : ℕ) : List String := (properties.take i).map INodeProperties.name

/-- How many dependencies are not the name of a parameter before it. -/
def missingAt (i : ℕ) : ℕ :=
  (missingDependencies (dependenciesOf properties i) (namesBefore properties i)).length

/-- How many indexes without dependencies stand right before an index. -/
def freeBefore : ℕ → ℕ
  | 0 => 0
  | i + 1 => if dependenciesOf properties i = [] then freeBefore i + 1 else 0

def Shrinks (i : ℕ) : Prop :=
  dependenciesOf properties i ≠ [] ∧ missingAt properties i ≤ freeBefore properties i

instance : DecidablePred (Shrinks properties) := fun _ => inferInstanceAs (Decidable (_ ∧ _))

/-- The last parameter has dependencies, and each one that has some misses more of them than there
are parameters without dependencies right before it. -/
def Stuck : Prop :=
  (∃ i, i + 1 = properties.length ∧ dependenciesOf properties i ≠ []) ∧
    ∀ i < properties.length, ¬ Shrinks properties i

def again (k : ℕ) : List ℕ :=
  (List.range k).flatMap fun i => List.replicate (missingAt properties i) i

structure FirstTurns (k : ℕ) (s : ResolveState) : Prop where
  order : s.executionOrder = List.range k
  queue : s.indexToResolve = List.range' k (properties.length - k) ++ again properties k
  names : s.resolvedParameters = namesBefore properties k
  iterations : s.iterations = k
  length : s.lastIndexLength = s.indexToResolve.length + freeBefore properties k
  reduction : s.lastIndexReduction = -1 ∧ (∀ i < k, ¬ Shrinks properties i) ∨
    0 ≤ s.lastIndexReduction ∧ s.lastIndexReduction ≤ k ∧ ∃ i < k, Shrinks properties i

def restAt (k : ℕ) : List ℕ :=
  List.range' (k + 1) (properties.length - (k + 1)) ++ again properties k

variable {properties} {k : ℕ}

theorem queue_of_firstTurns (h : FirstTurns properties k s) (hk : k < properties.length) :
    s.indexToResolve = k :: restAt properties k := by
  have hlen : properties.length - k = properties.length - (k + 1) + 1 := by omega
  rw [h.queue, restAt, hlen, List.range'_succ]
  rfl

theorem namesBefore_succ (h : properties[k]? = some property) :
    namesBefore properties (k + 1) = namesBefore properties k ++ [property.name] := by
  rw [namesBefore, namesBefore, List.take_add_one, h, Option.toList_some, List.map_append]
  rfl

theorem again_succ :
    again properties (k + 1) = again properties k ++ List.replicate (missingAt properties k) k := by
  rw [again, again, List.range_succ, List.flatMap_append, List.flatMap_singleton]

theorem reduction_turn (h : FirstTurns properties k s) (hk : k < properties.length)
    (hne : dependenciesOf properties k ≠ []) (name : String) :
    (turn properties s k name (restAt properties k)).lastIndexReduction =
      if Shrinks properties k then ((k + 1 : ℕ) : ℤ) else s.lastIndexReduction := by
  have hlength := h.length
  rw [queue_of_firstTurns h hk, List.length_cons] at hlength
  have hreduction : (turn properties s k name (restAt properties k)).lastIndexReduction =
      s.reduction (restAt properties k ++ List.replicate
        (missingDependencies (dependenciesOf properties k) s.resolvedParameters).length k) :=
    if_neg hne
  rw [hreduction, ResolveState.reduction, h.names, ← missingAt, List.length_append,
    List.length_replicate, hlength, h.iterations]
  refine if_congr ?_ (by push_cast; rfl) rfl
  rw [Shrinks, and_iff_right hne]
  omega

theorem late_iff (h : FirstTurns properties k s) (hk : k < properties.length) (name : String) :
    Late properties s k name (restAt properties k) ↔
      k + 1 = properties.length ∧ Stuck properties := by
  have hiterations : (turn properties s k name (restAt properties k)).iterations = k + 1 :=
    congrArg Nat.succ h.iterations
  constructor
  · rintro ⟨hne, hlt⟩
    rw [reduction_turn h hk hne, hiterations] at hlt
    by_cases hshrinks : Shrinks properties k
    · rw [if_pos hshrinks] at hlt
      omega
    · rw [if_neg hshrinks] at hlt
      rcases h.reduction with ⟨hreduction, hnone⟩ | ⟨hreduction, -⟩
      · have hlast : k + 1 = properties.length := by omega
        refine ⟨hlast, ⟨k, hlast, hne⟩, ?_⟩
        intro i hi
        rcases Nat.lt_succ_iff_lt_or_eq.mp (hlast ▸ hi) with hlt | rfl
        · exact hnone i hlt
        · exact hshrinks
      · omega
  · rintro ⟨hlast, ⟨i, hi, hne⟩, hnone⟩
    obtain rfl : k = i := by omega
    refine ⟨hne, ?_⟩
    rw [reduction_turn h hk hne, hiterations, if_neg (hnone k hk)]
    rcases h.reduction with ⟨hreduction, -⟩ | ⟨-, -, j, hj, hshrinks⟩
    · omega
    · exact absurd hshrinks (hnone j (hj.trans hk))

theorem firstTurns_turn (h : FirstTurns properties k s) (hget : properties[k]? = some property) :
    FirstTurns properties (k + 1) (turn properties s k property.name (restAt properties k)) := by
  have hk : k < properties.length := (List.getElem?_eq_some_iff.mp hget).1
  have hlength := h.length
  rw [queue_of_firstTurns h hk, List.length_cons] at hlength
  refine ⟨?_, ?_, ?_, ?_, ?_, ?_⟩
  · rw [List.range_succ, ← h.order]
    rfl
  · rw [again_succ, ← List.append_assoc, missingAt, ← h.names]
    rfl
  · rw [namesBefore_succ hget, ← h.names]
    rfl
  · exact congrArg Nat.succ h.iterations
  · by_cases hnil : dependenciesOf properties k = []
    · simp only [turn, hnil, if_true, missingDependencies, List.filter_nil, List.length_nil,
        List.replicate_zero, List.append_nil, freeBefore, hlength]
      omega
    · simp only [turn, if_neg hnil, freeBefore]
      rfl
  · by_cases hnil : dependenciesOf properties k = []
    · have hkeep : (turn properties s k property.name (restAt properties k)).lastIndexReduction =
          s.lastIndexReduction := if_pos hnil
      have hshrinks : ¬ Shrinks properties k := fun hshrinks => hshrinks.1 hnil
      rw [hkeep]
      refine h.reduction.imp ?_ ?_
      · rintro ⟨hreduction, hnone⟩
        refine ⟨hreduction, fun i hi => ?_⟩
        rcases Nat.lt_succ_iff_lt_or_eq.mp hi with hlt | rfl
        · exact hnone i hlt
        · exact hshrinks
      · rintro ⟨hnonneg, hle, i, hi, hsome⟩
        exact ⟨hnonneg, by omega, i, by omega, hsome⟩
    · rw [reduction_turn h hk hnil]
      by_cases hshrinks : Shrinks properties k
      · rw [if_pos hshrinks]
        exact .inr ⟨by omega, le_rfl, k, k.lt_succ_self, hshrinks⟩
      · rw [if_neg hshrinks]
        refine h.reduction.imp ?_ ?_
        · rintro ⟨hreduction, hnone⟩
          refine ⟨hreduction, fun i hi => ?_⟩
          rcases Nat.lt_succ_iff_lt_or_eq.mp hi with hlt | rfl
          · exact hnone i hlt
          · exact hshrinks
        · rintro ⟨hnonneg, hle, i, hi, hsome⟩
          exact ⟨hnonneg, by omega, i, by omega, hsome⟩

end First

end N8n.NodeHelpers
