/-
What the parameters of a node depend on.

A name depends on the names in the display options of all parameters of that name, but for special
ones; names at the root of the node are taken to be resolved.

* **`mem_dependenciesOf`** — what `getParameterDependencies` finds.
-/
import Mathlib.Logic.Relation
import N8n.ParameterResolveOrder

namespace N8n.NodeHelpers

/-- The names in the display options that are not special. -/
def INodeProperties.references (property : INodeProperties) : List String :=
  (property.head.displayOptions.elim [] IDisplayOptions.names).filter
    fun name => name.toList.head? ≠ some '@'

section Known

variable {dependencies : IParameterDependencies} {p q : String}

def known (dependencies : IParameterDependencies) (name : String) : List String :=
  (Fields.get dependencies name).getD []

theorem known_set (names : List String) :
    known (Fields.set dependencies p names) q = if q = p then names else known dependencies q := by
  rw [known, Fields.get_set]
  split
  · rfl
  · rfl

theorem mem_known_addDependency {name r : String} :
    r ∈ known (addDependency p dependencies name) q ↔
      r ∈ known dependencies q ∨ q = p ∧ r = name ∧ name.toList.head? ≠ some '@' := by
  rw [addDependency]
  split
  · next h =>
    constructor
    · exact .inl
    · rintro (hmem | ⟨rfl, rfl, hspecial⟩)
      · exact hmem
      · exact h.resolve_right hspecial
  · next h =>
    rw [not_or] at h
    rw [known_set]
    split
    · next heq =>
      subst heq
      rw [List.mem_append, List.mem_singleton]
      exact or_congr_right ⟨fun hr => ⟨rfl, hr, h.2⟩, fun hr => hr.2.1⟩
    · next hne => exact (or_iff_left fun hr => hne hr.1).symm

theorem isSome_get_addDependency (h : (Fields.get dependencies p).isSome) (name : String) :
    (Fields.get (addDependency p dependencies name) q).isSome =
      (Fields.get dependencies q).isSome := by
  rw [addDependency]
  split
  · rfl
  · rw [Fields.get_set]
    split
    · next heq => rw [heq, h, Option.isSome_some]
    · rfl

theorem mem_known_foldl {r : String} : ∀ {names : List String}
    {dependencies : IParameterDependencies},
    r ∈ known (names.foldl (addDependency p) dependencies) q ↔
      r ∈ known dependencies q ∨ q = p ∧ r ∈ names ∧ r.toList.head? ≠ some '@' := by
  intro names
  induction names with
  | nil =>
    intro dependencies
    rw [List.foldl_nil]
    exact (or_iff_left fun h => absurd h.2.1 List.not_mem_nil).symm
  | cons name names ih =>
    intro dependencies
    rw [List.foldl_cons, ih, mem_known_addDependency, List.mem_cons]
    constructor
    · rintro ((hr | ⟨hq, rfl, hspecial⟩) | ⟨hq, hr, hspecial⟩)
      · exact .inl hr
      · exact .inr ⟨hq, .inl rfl, hspecial⟩
      · exact .inr ⟨hq, .inr hr, hspecial⟩
    · rintro (hr | ⟨hq, rfl | hr, hspecial⟩)
      · exact .inl (.inl hr)
      · exact .inl (.inr ⟨hq, rfl, hspecial⟩)
      · exact .inr ⟨hq, hr, hspecial⟩

theorem isSome_get_foldl : ∀ {names : List String} {dependencies : IParameterDependencies},
    (Fields.get dependencies p).isSome →
    (Fields.get (names.foldl (addDependency p) dependencies) q).isSome =
      (Fields.get dependencies q).isSome := by
  intro names
  induction names with
  | nil => exact fun _ => rfl
  | cons name names ih =>
    intro dependencies h
    rw [List.foldl_cons, ih (by rw [isSome_get_addDependency h, h]), isSome_get_addDependency h]

end Known

section Parameter

variable (dependencies : IParameterDependencies) (property : INodeProperties) (q : String)

/-- The name of the parameter is there, with no names if it is new. -/
def withName (dependencies : IParameterDependencies) (name : String) : IParameterDependencies :=
  if (Fields.get dependencies name).isSome then dependencies else Fields.set dependencies name []

theorem known_withName (name : String) :
    known (withName dependencies name) q = known dependencies q := by
  rw [withName]
  split
  · rfl
  · next h =>
    rw [known_set]
    split
    · next heq =>
      rw [heq, known, Option.not_isSome_iff_eq_none.mp h]
      rfl
    · rfl

theorem isSome_get_withName (name : String) :
    (Fields.get (withName dependencies name) q).isSome ↔
      (Fields.get dependencies q).isSome ∨ q = name := by
  rw [withName]
  split
  · next h =>
    constructor
    · exact .inl
    · rintro (hq | rfl)
      · exact hq
      · exact h
  · rw [Fields.get_set]
    split
    · next heq => exact iff_of_true rfl (.inr heq)
    · next hne => exact (or_iff_left hne).symm

theorem addParameter_eq : addParameter dependencies property =
    (property.head.displayOptions.elim [] IDisplayOptions.names).foldl
      (addDependency property.name) (withName dependencies property.name) := by
  rw [addParameter]
  cases property.head.displayOptions with
  | none => rfl
  | some displayOptions => rfl

variable {dependencies property q}

theorem mem_known_addParameter {r : String} : r ∈ known (addParameter dependencies property) q ↔
    r ∈ known dependencies q ∨ property.name = q ∧ r ∈ property.references := by
  rw [addParameter_eq, mem_known_foldl, known_withName, INodeProperties.references,
    List.mem_filter, decide_eq_true_iff, eq_comm]

theorem isSome_get_addParameter : (Fields.get (addParameter dependencies property) q).isSome ↔
    (Fields.get dependencies q).isSome ∨ property.name = q := by
  rw [addParameter_eq, isSome_get_foldl ((isSome_get_withName ..).mpr (.inr rfl)),
    isSome_get_withName, eq_comm (a := q)]

end Parameter

section Properties

variable {properties : List INodeProperties} {q r : String}

theorem mem_known_foldl_addParameter : ∀ {properties : List INodeProperties}
    {dependencies : IParameterDependencies},
    r ∈ known (properties.foldl addParameter dependencies) q ↔ r ∈ known dependencies q ∨
      ∃ property ∈ properties, property.name = q ∧ r ∈ property.references := by
  intro properties
  induction properties with
  | nil =>
    intro dependencies
    exact (or_iff_left fun ⟨_, hmem, _⟩ => List.not_mem_nil hmem).symm
  | cons property properties ih =>
    intro dependencies
    rw [List.foldl_cons, ih, mem_known_addParameter, or_assoc]
    simp only [List.mem_cons, exists_eq_or_imp]

theorem isSome_get_foldl_addParameter : ∀ {properties : List INodeProperties}
    {dependencies : IParameterDependencies},
    (Fields.get (properties.foldl addParameter dependencies) q).isSome ↔
      (Fields.get dependencies q).isSome ∨ ∃ property ∈ properties, property.name = q := by
  intro properties
  induction properties with
  | nil =>
    intro dependencies
    exact (or_iff_left fun ⟨_, hmem, _⟩ => List.not_mem_nil hmem).symm
  | cons property properties ih =>
    intro dependencies
    rw [List.foldl_cons, ih, isSome_get_addParameter, or_assoc]
    simp only [List.mem_cons, exists_eq_or_imp]

variable (properties)

/-- The name `p` depends on the name `q`, which is not taken to be resolved. -/
def DependsOn (p q : String) : Prop :=
  (∃ property ∈ properties, property.name = p ∧ q ∈ property.references) ∧
    q.toList.head? ≠ some '/'

/-- Every name that is depended on is the name of a parameter. -/
def Listed : Prop :=
  ∀ p q, DependsOn properties p q → ∃ property ∈ properties, property.name = q

/-- No name depends on itself, through whatever names. -/
def Acyclic : Prop := ∀ p, ¬ Relation.TransGen (DependsOn properties) p p

/-- Every parameter stands after all parameters it depends on. -/
def Ordered : Prop :=
  ∀ (i j : ℕ) (property dependency : INodeProperties), properties[i]? = some property →
    properties[j]? = some dependency → DependsOn properties property.name dependency.name → j < i

variable {properties}

theorem idxOf_lt_of_ordered (hordered : Ordered properties) (hlisted : Listed properties) {p q : String}
    (h : DependsOn properties p q) :
    (properties.map INodeProperties.name).idxOf q
      < (properties.map INodeProperties.name).idxOf p := by
  have hget : ∀ name, (∃ property ∈ properties, property.name = name) →
      ∃ property, properties[(properties.map INodeProperties.name).idxOf name]? = some property ∧
        property.name = name := by
    rintro name ⟨property, hmem, rfl⟩
    have hidx := List.idxOf_lt_length_of_mem (List.mem_map_of_mem (f := INodeProperties.name) hmem)
    have hname := List.getElem_idxOf hidx
    rw [List.length_map] at hidx
    rw [List.getElem_map] at hname
    exact ⟨_, List.getElem?_eq_getElem hidx, hname⟩
  obtain ⟨⟨property, hmem, hname, -⟩, -⟩ := id h
  obtain ⟨first, hfirst, rfl⟩ := hget p ⟨property, hmem, hname⟩
  obtain ⟨second, hsecond, rfl⟩ := hget q (hlisted _ _ h)
  exact hordered _ _ first second hfirst hsecond h

theorem acyclic_of_ordered (hordered : Ordered properties) (hlisted : Listed properties) :
    Acyclic properties := by
  have hlt : ∀ {p q : String}, Relation.TransGen (DependsOn properties) p q →
      (properties.map INodeProperties.name).idxOf q
        < (properties.map INodeProperties.name).idxOf p := by
    intro p q h
    induction h with
    | single h => exact idxOf_lt_of_ordered hordered hlisted h
    | tail _ h ih => exact (idxOf_lt_of_ordered hordered hlisted h).trans ih
  exact fun p h => lt_irrefl _ (hlt h)

end Properties

section Index

variable (properties : List INodeProperties)

/-- What was found for the name of the parameter at an index. -/
def dependenciesOf (i : ℕ) : List String :=
  properties[i]?.elim [] fun property => known (getParameterDependencies properties) property.name

variable {properties} {i : ℕ} {property : INodeProperties}

theorem get_getParameterDependencies (h : properties[i]? = some property) :
    Fields.get (getParameterDependencies properties) property.name =
      some (dependenciesOf properties i) := by
  have hsome : (Fields.get (getParameterDependencies properties) property.name).isSome :=
    isSome_get_foldl_addParameter.mpr (.inr ⟨property, List.mem_of_getElem? h, rfl⟩)
  obtain ⟨names, hnames⟩ := Option.isSome_iff_exists.mp hsome
  rw [dependenciesOf, h, hnames, Option.elim_some, known, hnames, Option.getD_some]

/-- **What is found for a parameter** are the names that its name refers to. -/
theorem mem_dependenciesOf (h : properties[i]? = some property) {q : String} :
    q ∈ dependenciesOf properties i ↔
      ∃ other ∈ properties, other.name = property.name ∧ q ∈ other.references := by
  rw [dependenciesOf, h, Option.elim_some, getParameterDependencies, mem_known_foldl_addParameter]
  exact or_iff_right List.not_mem_nil

theorem dependsOn_iff (h : properties[i]? = some property) {q : String} :
    DependsOn properties property.name q ↔
      q ∈ dependenciesOf properties i ∧ q.toList.head? ≠ some '/' := by
  rw [DependsOn, mem_dependenciesOf h]

end Index

end N8n.NodeHelpers
