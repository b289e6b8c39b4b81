/-
The order in which the parameters of a node are resolved.

A parameter depends on the names in its display options.  The indexes of the parameters wait in a
list; the first one is taken and resolved, and for each name it depends on that was not resolved
before it, it is put to the end of the list once more.

* `getParameterDependencies`, `getParameterResolveOrder` — the order, in which an index may be there
  several times;
* `mem_getParameterResolveOrder` — no parameter is left out.
-/
import N8n.Fields
import N8n.NodeProperties

namespace N8n.NodeHelpers

/-- For each name, the names it depends on. -/
abbrev IParameterDependencies := List (String × List String)

/-- The names in the display options. -/
def IDisplayOptions.names (displayOptions : IDisplayOptions) : List String :=
  (displayOptions.show.getD []).map Prod.fst ++ (displayOptions.hide.getD []).map Prod.fst

/-- A special parameter is skipped, and so is one that is there already. -/
def addDependency (name : String) (dependencies : IParameterDependencies)
    (parameterName : String) : IParameterDependencies :=
  let known := (Fields.get dependencies name).getD []
  if parameterName ∈ known ∨ parameterName.toList.head? = some '@' then dependencies
  else Fields.set dependencies name (known ++ [parameterName])

def addParameter (dependencies : IParameterDependencies) (property : INodeProperties) :
    IParameterDependencies :=
  let name := property.name
  let dependencies :=
    if (Fields.get dependencies name).isSome then dependencies
    else Fields.set dependencies name []
  match property.head.displayOptions with
  | none => dependencies
  | some displayOptions => displayOptions.names.foldl (addDependency name) dependencies

def getParameterDependencies (properties : List INodeProperties) : IParameterDependencies :=
  properties.foldl addParameter []

structure ResolveState where
  executionOrder : List ℕ
  indexToResolve : List ℕ
  resolvedParameters : List String
  lastIndexLength : ℕ
  lastIndexReduction : ℤ
  iterations : ℕ

variable (properties : List INodeProperties) (dependencies : IParameterDependencies)

/-- The names that are missing; names at the root are taken to be resolved. -/
def missingDependencies (names resolvedParameters : List String) : List String :=
  names.filter fun name => name ∉ resolvedParameters ∧ name.toList.head? ≠ some '/'

/-- The last iteration that left fewer indexes than there were, with the current one. -/
def ResolveState.reduction (s : ResolveState) (indexToResolve : List ℕ) : ℤ :=
  if indexToResolve.length < s.lastIndexLength then s.iterations + 1 else s.lastIndexReduction

/-- One round of the loop, on the first of the indexes. -/
def resolveIndex (s : ResolveState) (index : ℕ) (rest : List ℕ) : Result ResolveState :=
  match properties[index]? with
  | none => throwing .typeError
  | some property => match Fields.get dependencies property.name with
    | none => throwing .typeError
    | some [] => pure { s with
        iterations := s.iterations + 1
        indexToResolve := rest
        executionOrder := s.executionOrder ++ [index]
        resolvedParameters := s.resolvedParameters ++ [property.name] }
    | some names =>
      let iterations := s.iterations + 1
      let indexToResolve :=
        rest ++ (missingDependencies names s.resolvedParameters).map fun _ => index
      let lastIndexReduction := s.reduction indexToResolve
      if iterations > lastIndexReduction + properties.length then
        throwing .couldNotResolveParameterDependencies
      else pure {
        executionOrder := s.executionOrder ++ [index]
        indexToResolve
        resolvedParameters := s.resolvedParameters ++ [property.name]
        lastIndexLength := indexToResolve.length
        lastIndexReduction
        iterations }

/-- The loop, with a bound on its rounds. -/
def resolveIndexes : ℕ → ResolveState → Result (List ℕ)
  | 0, s => if s.indexToResolve = [] then pure s.executionOrder else .error .unfinished
  | rounds + 1, s => match s.indexToResolve with
    | [] => pure s.executionOrder
    | index :: rest => do
      resolveIndexes rounds (← resolveIndex properties dependencies s index rest)

/-- The rounds the loop may take. -/
def resolveRounds : ℕ :=
  (properties.length + 1)
    * (properties.length * (dependencies.map fun names => names.2.length).sum + 3)

def getParameterResolveOrder : Result (List ℕ) :=
  resolveIndexes properties dependencies (resolveRounds properties dependencies) {
    executionOrder := []
    indexToResolve := List.range properties.length
    resolvedParameters := []
    lastIndexLength := properties.length
    lastIndexReduction := -1
    iterations := 0 }

variable {properties dependencies}

theorem of_resolveIndex {s t : ResolveState} {index : ℕ} {rest : List ℕ}
    (h : resolveIndex properties dependencies s index rest = .ok t) :
    t.executionOrder = s.executionOrder ++ [index] ∧ rest ⊆ t.indexToResolve := by
  rw [resolveIndex] at h
  split at h
  · cases h
  · split at h
    · cases h
    · cases h
      exact ⟨rfl, fun _ h => h⟩
    · simp only at h
      split at h
      · cases h
      · cases h
        exact ⟨rfl, List.subset_append_left _ _⟩

theorem mem_of_resolveIndexes {i : ℕ} : ∀ {rounds : ℕ} {s : ResolveState} {order : List ℕ},
    resolveIndexes properties dependencies rounds s = .ok order →
    i ∈ s.executionOrder ∨ i ∈ s.indexToResolve → i ∈ order := by
  intro rounds
  induction rounds with
  | zero =>
    intro s order h hi
    rw [resolveIndexes] at h
    split at h
    · next hempty =>
      cases h
      rw [hempty, or_iff_left List.not_mem_nil] at hi
      exact hi
    · cases h
  | succ rounds ih =>
    intro s order h hi
    rw [resolveIndexes] at h
    split at h
    · next hempty =>
      cases h
      rw [hempty, or_iff_left List.not_mem_nil] at hi
      exact hi
    · next index rest hlist =>
      obtain ⟨t, ht, hrest⟩ := exists_of_bind_eq_ok h
      obtain ⟨horder, hsub⟩ := of_resolveIndex ht
      refine ih hrest ?_
      rw [horder, List.mem_append, List.mem_singleton]
      rw [hlist, List.mem_cons] at hi
      rcases hi with hi | rfl | hi
      · exact .inl (.inl hi)
      · exact .inl (.inr rfl)
      · exact .inr (hsub hi)

theorem mem_getParameterResolveOrder {order : List ℕ}
    (h : getParameterResolveOrder properties dependencies = .ok order) {i : ℕ}
    (hi : i < properties.length) : i ∈ order :=
  mem_of_resolveIndexes h (.inr (List.mem_range.mpr hi))

end N8n.NodeHelpers
