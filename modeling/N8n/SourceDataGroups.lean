/-
The groups of incoming connections a node can be executed with.

`getSourceDataGroups` deals the connections into a node out into groups, one
connection for each input as far as there are any, those with data first.  A
group is closed when no connection for the next input is left, and the next
group starts at the lowest input that still has connections.

The loop is bounded by a step count; `groupRun_getSourceDataGroups` shows that
the count suffices, by describing the whole run as a derivation (`GroupRun`),
on which the facts about groups are proved by induction:

* `GroupRun.fromZero_iff` — **all groups start at input 0 iff no input has more
  connections than the one before it**.
-/
import N8n.DirectedGraph

namespace N8n

/-- The items of one run on one output, `none` for `null`.  A task whose data
has no entry of the type ends in a `TypeError`. -/
def getIncomingData (runData : IRunData) (nodeName : String) (runIndex : ℕ)
    (connectionType : NodeConnectionType) (outputIndex : ℕ) : Except JsError (Option Items) :=
  match ((runData.get? nodeName).bind (·[runIndex]?)).bind (·.data) with
  | none => .ok none
  | some data => match data.get? connectionType with
    | none => .error .typeError
    | some outputs => .ok (Slot.read outputs outputIndex).toOption

/-- The loop over the runs: the first one with items on the output. -/
def firstRunWithItems (runData : IRunData) (nodeName : String)
    (connectionType : NodeConnectionType) (outputIndex : ℕ) :
    List ℕ → Except JsError (Option (Items × ℕ))
  | [] => .ok none
  | runIndex :: runIndexes =>
    match getIncomingData runData nodeName runIndex connectionType outputIndex with
    | .error e => .error e
    | .ok (some (item :: items)) => .ok (some (item :: items, runIndex))
    | .ok _ => firstRunWithItems runData nodeName connectionType outputIndex runIndexes

def getIncomingDataFromAnyRun (runData : IRunData) (nodeName : String)
    (connectionType : NodeConnectionType) (outputIndex : ℕ) :
    Except JsError (Option (Items × ℕ)) :=
  firstRunWithItems runData nodeName connectionType outputIndex
    (List.range ((runData.get? nodeName).getD []).length)

structure SourceConnectionGroup where
  complete : Bool := true
  connections : List GraphConnection := []
  deriving DecidableEq

/-- The source of the connection has run or pinned data. -/
def hasData (runData : IRunData) (pinnedData : IPinData) (c : GraphConnection) : Bool :=
  runData.has c.fromName || pinnedData.has c.fromName

/-- `Math.min(...)` of the input indexes. -/
def minInputIndex (cs : List GraphConnection) : ℕ := ((cs.map (·.inputIndex)).min?).getD 0

/-- The `while` loop.  `next` is the input that the next round looks at, the
source's `currentInputIndex + 1`. -/
def groupLoop : ℕ → List GraphConnection → List GraphConnection → SourceConnectionGroup → ℕ →
    List SourceConnectionGroup
  | 0, _, _, current, _ => [current]
  | steps + 1, withData, withoutData, current, next =>
    if withData = [] ∧ withoutData = [] then [current]
    else match withData.find? (fun c => c.inputIndex = next) with
      | some c => groupLoop steps (withData.eraseP (fun c => c.inputIndex = next)) withoutData
          { current with connections := current.connections ++ [c] } (next + 1)
      | none => match withoutData.find? (fun c => c.inputIndex = next) with
        | some c => groupLoop steps withData (withoutData.eraseP (fun c => c.inputIndex = next))
            { complete := false, connections := current.connections ++ [c] } (next + 1)
        | none => current :: groupLoop steps withData withoutData {}
            (minInputIndex (withData ++ withoutData))

section

-- the host's comparison of two names
variable (localeCompare : String → String → ℤ)

def sortByInputIndexThenByName (connection1 connection2 : GraphConnection) : ℤ :=
  if connection1.inputIndex = connection2.inputIndex then
    localeCompare connection1.fromName connection2.fromName
  else connection1.inputIndex - connection2.inputIndex

def getSourceDataGroups (graph : DirectedGraph) (node : INode) (runData : IRunData)
    (pinnedData : IPinData) : List SourceConnectionGroup :=
  let connections := graph.getConnections.filter (fun c => c.toName = node.name)
  let withData := connections.filter (hasData runData pinnedData)
  let withoutData := connections.filter (fun c => ¬ hasData runData pinnedData c ∧ c.type = .main)
  if withData = [] ∧ withoutData = [] then []
  else groupLoop (2 * (withData.length + withoutData.length) + 1)
    (withData.insertionSort (fun a b => sortByInputIndexThenByName localeCompare a b ≤ 0))
    (withoutData.insertionSort (fun a b => sortByInputIndexThenByName localeCompare a b ≤ 0))
    {} (minInputIndex (withData ++ withoutData))

end

/-- The steps of the loop, up to the order of the connections left. -/
inductive GroupRun : List GraphConnection → List GraphConnection → SourceConnectionGroup → ℕ →
    List SourceConnectionGroup → Prop
  | done {current next} : GroupRun [] [] current next [current]
  | withData {W W' O current next groups} (c : GraphConnection) : c.inputIndex = next →
      W.Perm (c :: W') →
      GroupRun W' O { current with connections := current.connections ++ [c] } (next + 1) groups →
      GroupRun W O current next groups
  | withoutData {W O O' current next groups} (c : GraphConnection) : c.inputIndex = next →
      O.Perm (c :: O') →
      GroupRun W O' { complete := false, connections := current.connections ++ [c] } (next + 1)
        groups →
      GroupRun W O current next groups
  | close {W O current next groups} (c : GraphConnection) : c ∈ W ++ O →
      (∀ d ∈ W ++ O, d.inputIndex ≠ next) → (∀ d ∈ W ++ O, c.inputIndex ≤ d.inputIndex) →
      GroupRun W O {} c.inputIndex groups → GroupRun W O current next (current :: groups)

variable {cs : List GraphConnection}

theorem exists_minInputIndex (h : cs ≠ []) :
    ∃ c ∈ cs, minInputIndex cs = c.inputIndex ∧ ∀ d ∈ cs, c.inputIndex ≤ d.inputIndex := by
  have hne : cs.map (·.inputIndex) ≠ [] := by simpa using h
  obtain ⟨m, hm⟩ := Option.ne_none_iff_exists'.mp (mt List.min?_eq_none_iff.mp hne)
  obtain ⟨hmem, hle⟩ := List.min?_eq_some_iff.mp hm
  obtain ⟨c, hc, rfl⟩ := List.mem_map.mp hmem
  refine ⟨c, hc, by rw [minInputIndex, hm, Option.getD_some], fun d hd => ?_⟩
  exact hle _ (List.mem_map_of_mem hd)

theorem groupRun_groupLoop : ∀ {steps : ℕ} {W O : List GraphConnection}
    {current : SourceConnectionGroup} {next : ℕ},
    2 * (W.length + O.length) + (if ∃ c ∈ W ++ O, c.inputIndex = next then 0 else 1) ≤ steps →
    GroupRun W O current next (groupLoop steps W O current next) := by
  intro steps
  induction steps with
  | zero =>
    intro W O current next hsteps
    have hW : W = [] := List.eq_nil_of_length_eq_zero (by omega)
    have hO : O = [] := List.eq_nil_of_length_eq_zero (by omega)
    subst hW hO
    exact .done
  | succ steps ih =>
    intro W O current next hsteps
    have hbound : ∀ W O : List GraphConnection, ∀ n : ℕ,
        2 * (W.length + O.length) + 1 ≤ steps →
        2 * (W.length + O.length) + (if ∃ c ∈ W ++ O, c.inputIndex = n then 0 else 1) ≤ steps := by
      intro W O n h
      split <;> omega
    rw [groupLoop]
    split
    · next hnil =>
      obtain ⟨rfl, rfl⟩ := hnil
      exact .done
    · next hne =>
      rcases hW : W.find? (fun c => c.inputIndex = next) with _ | c
      · rcases hO : O.find? (fun c => c.inputIndex = next) with _ | c
        · -- nothing left for the next input
          have hnone : ∀ d ∈ W ++ O, d.inputIndex ≠ next := by
            intro d hd
            rw [List.find?_eq_none] at hW hO
            rcases List.mem_append.mp hd with hd | hd
            · simpa using hW d hd
            · simpa using hO d hd
          have happend : W ++ O ≠ [] := by
            intro h
            exact hne (List.append_eq_nil_iff.mp h)
          obtain ⟨c, hc, hmin, hle⟩ := exists_minInputIndex happend
          simp only [hW, hO]
          refine .close c hc hnone hle ?_
          rw [← hmin]
          refine ih ?_
          rw [if_neg (fun ⟨d, hd, hdn⟩ => hnone d hd hdn)] at hsteps
          rw [if_pos ⟨c, hc, hmin.symm⟩]
          omega
        · have hidx : c.inputIndex = next := by simpa using List.find?_some hO
          have hperm := perm_cons_eraseP hO
          have hlen := hperm.length_eq
          rw [List.length_cons] at hlen
          simp only [hW, hO]
          refine .withoutData c hidx hperm (ih (hbound _ _ _ ?_))
          split at hsteps <;> omega
      · have hidx : c.inputIndex = next := by simpa using List.find?_some hW
        have hperm := perm_cons_eraseP hW
        have hlen := hperm.length_eq
        rw [List.length_cons] at hlen
        simp only [hW]
        refine .withData c hidx hperm (ih (hbound _ _ _ ?_))
        split at hsteps <;> omega

def inputCount (cs : List GraphConnection) (i : ℕ) : ℕ := (cs.map (·.inputIndex)).count i

/-- No input has more connections than the one before it. -/
def FillsUp (cs : List GraphConnection) : Prop := ∀ i, inputCount cs (i + 1) ≤ inputCount cs i

/-- The group serves the inputs 0, 1, 2, … in order. -/
def FromZero (group : SourceConnectionGroup) : Prop :=
  group.connections.map (·.inputIndex) = List.range group.connections.length

theorem inputCount_append (cs ds : List GraphConnection) (i : ℕ) :
    inputCount (cs ++ ds) i = inputCount cs i + inputCount ds i := by
  rw [inputCount, List.map_append, List.count_append]
  rfl

theorem inputCount_perm {cs ds : List GraphConnection} (h : cs.Perm ds) (i : ℕ) :
    inputCount cs i = inputCount ds i :=
  (h.map _).count_eq i

theorem inputCount_of_range (h : cs.map (·.inputIndex) = List.range cs.length) (i : ℕ) :
    inputCount cs i = if i < cs.length then 1 else 0 := by
  rw [inputCount, h, List.Nodup.count List.nodup_range]
  simp only [List.mem_range]

variable {c : GraphConnection}

theorem inputCount_pos (h : c ∈ cs) : 0 < inputCount cs c.inputIndex :=
  List.count_pos_iff.mpr (List.mem_map_of_mem h)

theorem inputCount_eq_zero {i : ℕ} (h : ∀ c ∈ cs, c.inputIndex ≠ i) : inputCount cs i = 0 := by
  rw [inputCount, List.count_eq_zero, List.mem_map]
  rintro ⟨c, hc, hi⟩
  exact h c hc hi

theorem fillsUp_perm {cs ds : List GraphConnection} (h : cs.Perm ds) : FillsUp cs ↔ FillsUp ds := by
  simp only [FillsUp, inputCount_perm h]

theorem FillsUp.le_zero (h : FillsUp cs) (i : ℕ) : inputCount cs i ≤ inputCount cs 0 := by
  induction i with
  | zero => exact le_refl _
  | succ i ih => exact (h i).trans ih

theorem contiguous_concat {k : ℕ}
    (hcs : cs.map (·.inputIndex) = List.range' k cs.length) (hc : c.inputIndex = k + cs.length) :
    (cs ++ [c]).map (·.inputIndex) = List.range' k (cs ++ [c]).length := by
  rw [List.map_append, hcs, List.length_append, List.length_singleton, List.range'_concat,
    List.map_singleton, hc, Nat.one_mul]

namespace GroupRun

variable {W O : List GraphConnection} {current : SourceConnectionGroup} {next : ℕ}
  {groups : List SourceConnectionGroup}

theorem perm (h : GroupRun W O current next groups) :
    (groups.flatMap (·.connections)).Perm (current.connections ++ (W ++ O)) := by
  induction h with
  | done => simp
  | withData c _ hperm _ ih =>
    refine ih.trans ?_
    rw [List.append_assoc]
    exact (List.Perm.append_right _ hperm.symm).append_left _
  | withoutData c _ hperm _ ih =>
    refine ih.trans ?_
    rw [List.append_assoc]
    refine List.Perm.append_left _ ?_
    rw [List.singleton_append]
    exact (List.perm_middle.symm).trans (hperm.symm.append_left _)
  | close c _ _ _ _ ih =>
    rw [List.flatMap_cons]
    exact List.Perm.append_left _ ih

theorem contiguous (h : GroupRun W O current next groups) {k : ℕ}
    (hk : k + current.connections.length = next)
    (hcurrent : current.connections.map (·.inputIndex)
      = List.range' k current.connections.length) :
    ∀ group ∈ groups, ∃ k, group.connections.map (·.inputIndex)
      = List.range' k group.connections.length := by
  induction h generalizing k with
  | done =>
    intro group hgroup
    rw [List.mem_singleton.mp hgroup]
    exact ⟨k, hcurrent⟩
  | withData c hidx _ _ ih =>
    exact ih (by simp only [List.length_append, List.length_singleton]; omega)
      (contiguous_concat hcurrent (by omega))
  | withoutData c hidx _ _ ih =>
    exact ih (by simp only [List.length_append, List.length_singleton]; omega)
      (contiguous_concat hcurrent (by omega))
  | close c _ _ _ _ ih =>
    intro group hgroup
    rcases List.mem_cons.mp hgroup with rfl | hgroup
    · exact ⟨k, hcurrent⟩
    · exact ih rfl rfl group hgroup

theorem complete_iff {p : GraphConnection → Prop} (h : GroupRun W O current next groups)
    (hW : ∀ c ∈ W, p c) (hO : ∀ c ∈ O, ¬ p c)
    (hcurrent : current.complete = true ↔ ∀ c ∈ current.connections, p c) :
    ∀ group ∈ groups, group.complete = true ↔ ∀ c ∈ group.connections, p c := by
  induction h with
  | done =>
    intro group hgroup
    rw [List.mem_singleton.mp hgroup]
    exact hcurrent
  | withData c _ hperm _ ih =>
    have hW' := fun d hd => hW d (hperm.mem_iff.mpr hd)
    refine ih (fun d hd => hW' d (List.mem_cons_of_mem _ hd)) hO ?_
    rw [hcurrent]
    constructor
    · intro hall d hd
      rcases List.mem_append.mp hd with hd | hd
      · exact hall d hd
      · rw [List.mem_singleton.mp hd]
        exact hW' c List.mem_cons_self
    · exact fun hall d hd => hall d (List.mem_append_left _ hd)
  | withoutData c _ hperm _ ih =>
    have hO' := fun d hd => hO d (hperm.mem_iff.mpr hd)
    refine ih hW (fun d hd => hO' d (List.mem_cons_of_mem _ hd)) ?_
    refine iff_of_false Bool.false_ne_true fun hall => ?_
    exact hO' c List.mem_cons_self (hall c (by simp))
  | close c _ _ _ _ ih =>
    intro group hgroup
    rcases List.mem_cons.mp hgroup with rfl | hgroup
    · exact hcurrent
    · exact ih hW hO (iff_of_true rfl fun d hd => by cases hd) group hgroup

theorem mem_of_mem_groups (h : GroupRun W O current next groups) {group : SourceConnectionGroup}
    (hgroup : group ∈ groups) (hc : c ∈ group.connections) :
    c ∈ current.connections ∨ c ∈ W ∨ c ∈ O := by
  have hmem := h.perm.mem_iff.mp (List.mem_flatMap.mpr ⟨group, hgroup, hc⟩)
  rw [List.mem_append, List.mem_append] at hmem
  exact hmem

theorem fromZero (h : GroupRun W O current next groups) (hnext : current.connections.length = next)
    (hcurrent : FromZero current) (hfill : FillsUp (current.connections ++ (W ++ O))) :
    ∀ group ∈ groups, FromZero group := by
  have hpush : ∀ {cs : List GraphConnection} {c : GraphConnection},
      cs.map (·.inputIndex) = List.range cs.length → c.inputIndex = cs.length →
      (cs ++ [c]).map (·.inputIndex) = List.range (cs ++ [c]).length := by
    intro cs c hcs hc
    rw [List.map_append, hcs, List.length_append, List.length_singleton, List.range_succ,
      List.map_singleton, hc]
  induction h with
  | done =>
    intro group hgroup
    rw [List.mem_singleton.mp hgroup]
    exact hcurrent
  | withData c hidx hperm _ ih =>
    refine ih ?_ (hpush hcurrent (hidx.trans hnext.symm)) ((fillsUp_perm ?_).mp hfill)
    · rw [List.length_append, hnext, List.length_singleton]
    · rw [List.append_assoc]
      exact (List.Perm.append_right _ hperm).append_left _
  | withoutData c hidx hperm _ ih =>
    refine ih ?_ (hpush hcurrent (hidx.trans hnext.symm)) ((fillsUp_perm ?_).mp hfill)
    · rw [List.length_append, hnext, List.length_singleton]
    · rw [List.append_assoc, List.singleton_append]
      exact ((hperm.append_left _).trans List.perm_middle).append_left _
  | @close W O current next groups c hc hnone hle _ ih =>
    -- what is left still fills up, so its lowest input is 0
    have hcount : ∀ i, inputCount (current.connections ++ (W ++ O)) i
        = (if i < next then 1 else 0) + inputCount (W ++ O) i := by
      intro i
      rw [inputCount_append, inputCount_of_range hcurrent, hnext]
    have hzero : inputCount (W ++ O) next = 0 := inputCount_eq_zero hnone
    have hrest : FillsUp (W ++ O) := by
      intro i
      have hi := hfill i
      rw [hcount, hcount] at hi
      rcases Nat.lt_trichotomy (i + 1) next with h | h | h
      · rw [if_pos h, if_pos (by omega)] at hi
        omega
      · rw [h, hzero]
        exact Nat.zero_le _
      · rw [if_neg (by omega), if_neg (by omega)] at hi
        omega
    have hmin : c.inputIndex = 0 := by
      by_contra hpos
      have hfirst : inputCount (W ++ O) 0 = 0 := inputCount_eq_zero fun d hd hd0 => by
        have := hle d hd
        omega
      have h1 := inputCount_pos hc
      have h2 := hrest.le_zero c.inputIndex
      omega
    intro group hgroup
    rcases List.mem_cons.mp hgroup with rfl | hgroup
    · exact hcurrent
    · exact ih hmin.symm rfl hrest group hgroup

theorem fillsUp_of_fromZero (hall : ∀ group ∈ groups, FromZero group) :
    FillsUp (groups.flatMap (·.connections)) := by
  intro i
  induction groups with
  | nil => exact le_refl _
  | cons group groups ih =>
    obtain ⟨hgroup, hrest⟩ := List.forall_mem_cons.mp hall
    rw [List.flatMap_cons, inputCount_append, inputCount_append, inputCount_of_range hgroup,
      inputCount_of_range hgroup]
    have := ih hrest
    split <;> split <;> omega

/-- **All groups start at input 0 iff no input has more connections than the
one before it.** -/
theorem fromZero_iff (h : GroupRun W O {} next groups)
    (hnext : ∀ c ∈ W ++ O, next ≤ c.inputIndex) (hc : ∃ c ∈ W ++ O, c.inputIndex = next) :
    (∀ group ∈ groups, FromZero group) ↔ FillsUp (W ++ O) := by
  constructor
  · intro hall
    exact (fillsUp_perm h.perm).mp (fillsUp_of_fromZero hall)
  · intro hfill
    obtain ⟨c, hmem, hidx⟩ := hc
    have hzero : next = 0 := by
      by_contra hpos
      have hfirst : inputCount (W ++ O) 0 = 0 := inputCount_eq_zero fun d hd hd0 => by
        have := hnext d hd
        omega
      have h1 := inputCount_pos hmem
      have h2 := hfill.le_zero c.inputIndex
      omega
    exact h.fromZero hzero.symm rfl hfill

end GroupRun

section

variable (localeCompare : String → String → ℤ) {graph : DirectedGraph} {node : INode}
  {runData : IRunData} {pinnedData : IPinData}

/-- The connections that are dealt out: those with data and the main ones
without. -/
def dealtConnections (graph : DirectedGraph) (node : INode) (runData : IRunData)
    (pinnedData : IPinData) : List GraphConnection :=
  (graph.getConnections.filter (fun c => c.toName = node.name)).filter
    (fun c => hasData runData pinnedData c ∨ c.type = .main)

def incomingConnections (graph : DirectedGraph) (startNode : INode) : List GraphConnection :=
  graph.getConnections.filter (fun c => c.toName = startNode.name)

theorem dealtConnections_of_main (hmain : ∀ c ∈ incomingConnections graph node, c.type = .main) :
    dealtConnections graph node runData pinnedData = incomingConnections graph node := by
  refine List.filter_eq_self.mpr fun c hc => ?_
  simp [hmain c hc]

theorem exists_groupLoop (hne : dealtConnections graph node runData pinnedData ≠ []) :
    ∃ W O next, (∃ steps, getSourceDataGroups localeCompare graph node runData pinnedData
          = groupLoop steps W O {} next ∧
        2 * (W.length + O.length) + (if ∃ c ∈ W ++ O, c.inputIndex = next then 0 else 1)
          ≤ steps) ∧
      (W ++ O).Perm (dealtConnections graph node runData pinnedData) ∧
      (∀ c ∈ W, hasData runData pinnedData c = true) ∧
      (∀ c ∈ O, hasData runData pinnedData c = false ∧ c.type = .main) ∧
      (∀ c ∈ W ++ O, next ≤ c.inputIndex) ∧ ∃ c ∈ W ++ O, c.inputIndex = next := by
  set cs := graph.getConnections.filter (fun c => c.toName = node.name) with hcs
  set withData := cs.filter (hasData runData pinnedData) with hwith
  set withoutData := cs.filter (fun c => ¬ hasData runData pinnedData c ∧ c.type = .main)
    with hwithout
  set le := fun a b => sortByInputIndexThenByName localeCompare a b ≤ 0 with hle
  have hsplit : (withData ++ withoutData).Perm (dealtConnections graph node runData pinnedData) := by
    have hpart := List.filter_append_perm (hasData runData pinnedData)
      (dealtConnections graph node runData pinnedData)
    have h1 : (dealtConnections graph node runData pinnedData).filter (hasData runData pinnedData)
        = withData := by
      rw [dealtConnections, List.filter_filter, ← hcs, hwith]
      refine List.filter_congr fun c _ => ?_
      cases hasData runData pinnedData c <;> simp
    have h2 : (dealtConnections graph node runData pinnedData).filter
        (fun c => !hasData runData pinnedData c) = withoutData := by
      rw [dealtConnections, List.filter_filter, ← hcs, hwithout]
      refine List.filter_congr fun c _ => ?_
      cases hasData runData pinnedData c <;> simp
    rw [h1, h2] at hpart
    exact hpart
  have hsorted : (withData.insertionSort le ++ withoutData.insertionSort le).Perm
      (withData ++ withoutData) :=
    (List.perm_insertionSort _ _).append (List.perm_insertionSort _ _)
  have hnonempty : withData ++ withoutData ≠ [] := by
    intro hnil
    rw [hnil] at hsplit
    exact hne hsplit.symm.eq_nil
  obtain ⟨c, hc, hmin, hminle⟩ := exists_minInputIndex hnonempty
  refine ⟨withData.insertionSort le, withoutData.insertionSort le,
    minInputIndex (withData ++ withoutData), ?_, hsorted.trans hsplit, ?_, ?_, ?_, ?_⟩
  · have hcall : getSourceDataGroups localeCompare graph node runData pinnedData
        = groupLoop (2 * (withData.length + withoutData.length) + 1) (withData.insertionSort le)
          (withoutData.insertionSort le) {} (minInputIndex (withData ++ withoutData)) := by
      rw [getSourceDataGroups]
      refine if_neg ?_
      rintro ⟨h1, h2⟩
      exact hnonempty (List.append_eq_nil_iff.mpr ⟨h1, h2⟩)
    refine ⟨_, hcall, ?_⟩
    rw [List.length_insertionSort, List.length_insertionSort]
    split <;> omega
  · intro d hd
    rw [List.mem_insertionSort, hwith, List.mem_filter] at hd
    exact hd.2
  · intro d hd
    rw [List.mem_insertionSort, hwithout, List.mem_filter] at hd
    simpa using hd.2
  · intro d hd
    rw [hmin]
    exact hminle d (hsorted.mem_iff.mp hd)
  · exact ⟨c, hsorted.mem_iff.mpr hc, hmin.symm⟩

theorem groupRun_getSourceDataGroups
    (hne : dealtConnections graph node runData pinnedData ≠ []) :
    ∃ W O next, GroupRun W O {} next
        (getSourceDataGroups localeCompare graph node runData pinnedData) ∧
      (W ++ O).Perm (dealtConnections graph node runData pinnedData) ∧
      (∀ c ∈ W, hasData runData pinnedData c = true) ∧
      (∀ c ∈ O, hasData runData pinnedData c = false ∧ c.type = .main) ∧
      (∀ c ∈ W ++ O, next ≤ c.inputIndex) ∧ ∃ c ∈ W ++ O, c.inputIndex = next := by
  obtain ⟨W, O, next, ⟨steps, hcall, hsteps⟩, hrest⟩ := exists_groupLoop localeCompare hne
  refine ⟨W, O, next, ?_, hrest⟩
  rw [hcall]
  exact groupRun_groupLoop hsteps

end

end N8n
