/-
When the groups of incoming connections are as full as possible.

The groups of `getSourceDataGroups` partition the connections into a node, and
for each input the connections with data are dealt out first
(`prefix_atInput_groupLoop`).  The k-th group should have a connection for each
input that at least k connections lead to.  A group is closed at the first
input that has no connection left, though, so that an input above it waits for
a later group:

* `fullGrouping_iff` — **the groups are a full partition iff no input has fewer
  connections than one before it and one after it**.
-/
import N8n.SourceDataGroups

namespace N8n

/-- The groups partition the connections, and use those with data first. -/
structure GroupsPartition (p : GraphConnection → Prop) (cs : List GraphConnection)
    (groups : List SourceConnectionGroup) : Prop where
  perm : (groups.flatMap (·.connections)).Perm cs
  increasing : ∀ group ∈ groups, (group.connections.map (·.inputIndex)).Pairwise (· < ·)
  complete_iff : ∀ group ∈ groups, group.complete = true ↔ ∀ c ∈ group.connections, p c
  dataFirst : groups.Pairwise fun group later => ∀ c ∈ group.connections,
    ∀ d ∈ later.connections, c.inputIndex = d.inputIndex → p d → p c

/-- The group with the index `k` has a connection for each input that more than
`k` connections lead to. -/
def FullGroups (count : ℕ → ℕ) (groups : List SourceConnectionGroup) : Prop :=
  ∀ k i, k < count i → ∃ group, groups[k]? = some group ∧
    ∃ c ∈ group.connections, c.inputIndex = i

/-- No input has fewer connections than both an input before it and an input
after it. -/
def NoDip (count : ℕ → ℕ) : Prop := ∀ i j l, i < j → j < l → min (count i) (count l) ≤ count j

theorem noDip_iff_of_stretch {count rest : ℕ → ℕ} {k n : ℕ}
    (hcount : ∀ i, count i = (if k ≤ i ∧ i < n then 1 else 0) + rest i)
    (hrest : ∀ i, 0 < rest i → k ≤ i ∧ i < n) : NoDip count ↔ NoDip rest := by
  have hin : ∀ {i}, k ≤ i ∧ i < n → count i = 1 + rest i := fun h => by rw [hcount, if_pos h]
  have hout : ∀ {i}, ¬ (k ≤ i ∧ i < n) → count i = 0 := by
    intro i h
    have := mt (hrest i) h
    rw [hcount, if_neg h]
    omega
  constructor
  · intro h i j l hij hjl
    by_cases hpos : 0 < rest i ∧ 0 < rest l
    · have hi := hrest i hpos.1
      have hl := hrest l hpos.2
      have := h i j l hij hjl
      rw [hin hi, hin hl, hin ⟨by omega, by omega⟩] at this
      omega
    · omega
  · intro h i j l hij hjl
    by_cases hi : k ≤ i ∧ i < n
    · by_cases hl : k ≤ l ∧ l < n
      · have := h i j l hij hjl
        rw [hin hi, hin hl, hin ⟨by omega, by omega⟩]
        omega
      · rw [hout hl]
        omega
    · rw [hout hi]
      omega

def atInput (i : ℕ) (cs : List GraphConnection) : List GraphConnection :=
  cs.filter (fun c => c.inputIndex = i)

theorem atInput_append (i : ℕ) (cs ds : List GraphConnection) :
    atInput i (cs ++ ds) = atInput i cs ++ atInput i ds :=
  List.filter_append _ _

variable {c : GraphConnection}

theorem atInput_cons_self {i : ℕ} (h : c.inputIndex = i)
    (cs : List GraphConnection) : atInput i (c :: cs) = c :: atInput i cs :=
  List.filter_cons_of_pos (by simpa using h)

theorem atInput_cons_ne {i : ℕ} (h : c.inputIndex ≠ i)
    (cs : List GraphConnection) : atInput i (c :: cs) = atInput i cs :=
  List.filter_cons_of_neg (by simpa using h)

variable {cs : List GraphConnection}

theorem atInput_eraseP {n : ℕ}
    (h : cs.find? (fun c => c.inputIndex = n) = some c) (i : ℕ) :
    atInput i [c] ++ atInput i (cs.eraseP (fun c => c.inputIndex = n)) = atInput i cs := by
  induction cs with
  | nil => cases h
  | cons d cs ih =>
    by_cases hd : d.inputIndex = n
    · rw [List.find?_cons_of_pos (by simpa using hd), Option.some.injEq] at h
      rw [List.eraseP_cons_of_pos (by simpa using hd), h, ← atInput_append]
      rfl
    · rw [List.find?_cons_of_neg (by simpa using hd)] at h
      rw [List.eraseP_cons_of_neg (by simpa using hd)]
      have hc : c.inputIndex = n := by simpa using List.find?_some h
      by_cases hi : d.inputIndex = i
      · have hnil : atInput i [c] = [] := atInput_cons_ne (by omega) []
        rw [atInput_cons_self hi, atInput_cons_self hi, ← ih h, hnil]
        rfl
      · rw [atInput_cons_ne hi, atInput_cons_ne hi, ih h]

theorem prefix_atInput_groupLoop (i : ℕ) : ∀ {steps : ℕ} {W O : List GraphConnection}
    {current : SourceConnectionGroup} {next : ℕ},
    atInput i ((groupLoop steps W O current next).flatMap (·.connections)) <+:
      atInput i current.connections ++ (atInput i W ++ atInput i O) := by
  intro steps
  induction steps with
  | zero =>
    intro W O current next
    rw [groupLoop, List.flatMap_singleton]
    exact List.prefix_append _ _
  | succ steps ih =>
    intro W O current next
    rw [groupLoop]
    split
    · rw [List.flatMap_singleton]
      exact List.prefix_append _ _
    · rcases hW : W.find? (fun c => c.inputIndex = next) with _ | c
      · rcases hO : O.find? (fun c => c.inputIndex = next) with _ | c
        · simp only [hW, hO]
          rw [List.flatMap_cons, atInput_append, List.prefix_append_right_inj]
          exact ih
        · simp only [hW, hO]
          have hstep := @ih W (O.eraseP (fun c => c.inputIndex = next))
            { complete := false, connections := current.connections ++ [c] } (next + 1)
          have hc : c.inputIndex = next := by simpa using List.find?_some hO
          -- no connection with data is left for the input
          have hcomm : atInput i W ++ atInput i [c] = atInput i [c] ++ atInput i W := by
            by_cases hi : c.inputIndex = i
            · have hnil : atInput i W = [] := by
                rw [← hc, hi] at hW
                exact List.filter_eq_nil_iff.mpr (List.find?_eq_none.mp hW)
              rw [hnil, List.nil_append, List.append_nil]
            · rw [atInput_cons_ne hi]
              exact List.append_nil _
          rw [atInput_append, List.append_assoc, ← List.append_assoc (atInput i [c]), ← hcomm,
            List.append_assoc, atInput_eraseP hO i] at hstep
          exact hstep
      · simp only [hW]
        have hstep := @ih (W.eraseP (fun c => c.inputIndex = next)) O
          { current with connections := current.connections ++ [c] } (next + 1)
        rw [atInput_append, List.append_assoc, ← List.append_assoc (atInput i [c]),
          atInput_eraseP hW i] at hstep
        exact hstep

variable {groups : List SourceConnectionGroup}

theorem pairwise_groups {r : GraphConnection → GraphConnection → Prop}
    (h : ∀ i, (atInput i (groups.flatMap (·.connections))).Pairwise r) :
    groups.Pairwise fun group later => ∀ c ∈ group.connections, ∀ d ∈ later.connections,
      c.inputIndex = d.inputIndex → r c d := by
  induction groups with
  | nil => exact List.Pairwise.nil
  | cons group groups ih =>
    simp only [List.flatMap_cons, atInput_append, List.pairwise_append] at h
    refine List.pairwise_cons.mpr ⟨?_, ih fun i => (h i).2.1⟩
    intro later hlater c hc d hd hcd
    refine (h d.inputIndex).2.2 c (List.mem_filter.mpr ⟨hc, by simpa using hcd⟩) d
      (List.mem_filter.mpr ⟨List.mem_flatMap.mpr ⟨later, hlater, hd⟩, by simp⟩)

theorem inputCount_of_range' {k : ℕ}
    (h : cs.map (·.inputIndex) = List.range' k cs.length) (i : ℕ) :
    inputCount cs i = if k ≤ i ∧ i < k + cs.length then 1 else 0 := by
  rw [inputCount, h, List.Nodup.count List.nodup_range']
  simp only [List.mem_range'_1]

theorem exists_atInput_iff {k : ℕ}
    (h : cs.map (·.inputIndex) = List.range' k cs.length) {i : ℕ} :
    (∃ c ∈ cs, c.inputIndex = i) ↔ k ≤ i ∧ i < k + cs.length := by
  rw [← List.mem_range'_1, ← h, List.mem_map]

theorem fullGroups_cons_iff {count rest : ℕ → ℕ} {group : SourceConnectionGroup} {k : ℕ}
    (hgroup : group.connections.map (·.inputIndex) = List.range' k group.connections.length)
    (hcount : ∀ i, count i
      = (if k ≤ i ∧ i < k + group.connections.length then 1 else 0) + rest i)
    (hrest : ∀ i, 0 < rest i → k ≤ i ∧ i < k + group.connections.length) :
    FullGroups count (group :: groups) ↔ FullGroups rest groups := by
  constructor
  · intro h m i hm
    refine h (m + 1) i ?_
    rw [hcount, if_pos (hrest i (by omega))]
    omega
  · intro h m i hm
    have hi : k ≤ i ∧ i < k + group.connections.length := by
      by_contra hi
      rw [hcount, if_neg hi] at hm
      exact hi (hrest i (by omega))
    cases m with
    | zero => exact ⟨group, rfl, (exists_atInput_iff hgroup).mpr hi⟩
    | succ m =>
      rw [hcount, if_pos hi] at hm
      exact h m i (by omega)

namespace GroupRun

variable {W O : List GraphConnection} {current : SourceConnectionGroup} {next : ℕ}
  {groups : List SourceConnectionGroup}

theorem full_iff (h : GroupRun W O current next groups) {k : ℕ}
    (hk : k + current.connections.length = next)
    (hcurrent : current.connections.map (·.inputIndex)
      = List.range' k current.connections.length)
    (hmin : ∀ c ∈ W ++ O, k ≤ c.inputIndex)
    (hserved : k < next ∨ ∃ c ∈ W ++ O, c.inputIndex = next) :
    FullGroups (inputCount (current.connections ++ (W ++ O))) groups ↔
      NoDip (inputCount (current.connections ++ (W ++ O))) := by
  induction h generalizing k with
  | @done current next =>
    have hcount := inputCount_of_range' hcurrent
    rw [List.append_nil, List.append_nil]
    refine iff_of_true ?_ ?_
    · intro m i hm
      rw [hcount] at hm
      split at hm
      · next hi =>
        obtain rfl : m = 0 := by omega
        exact ⟨current, rfl, (exists_atInput_iff hcurrent).mpr hi⟩
      · omega
    · intro i j l hij hjl
      rw [hcount, hcount, hcount]
      split <;> split <;> split <;> omega
  | @withData W W' O current next groups c hidx hperm _ ih =>
    have htotal : inputCount (current.connections ++ [c] ++ (W' ++ O))
        = inputCount (current.connections ++ (W ++ O)) := by
      refine funext (inputCount_perm ?_)
      rw [List.append_assoc]
      exact (List.Perm.append_right _ hperm.symm).append_left _
    rw [← htotal]
    refine ih ?_ (contiguous_concat hcurrent (by omega)) ?_ (Or.inl (by omega))
    · rw [List.length_append, List.length_singleton]
      omega
    · intro d hd
      refine hmin d ((hperm.append_right O).mem_iff.mpr (List.mem_cons_of_mem _ hd))
  | @withoutData W O O' current next groups c hidx hperm _ ih =>
    have hmiddle : (c :: (W ++ O')).Perm (W ++ O) :=
      List.perm_middle.symm.trans (hperm.symm.append_left W)
    have htotal : inputCount (current.connections ++ [c] ++ (W ++ O'))
        = inputCount (current.connections ++ (W ++ O)) := by
      refine funext (inputCount_perm ?_)
      rw [List.append_assoc]
      exact hmiddle.append_left _
    rw [← htotal]
    refine ih ?_ (contiguous_concat hcurrent (by omega)) ?_ (Or.inl (by omega))
    · rw [List.length_append, List.length_singleton]
      omega
    · intro d hd
      exact hmin d (hmiddle.mem_iff.mp (List.mem_cons_of_mem _ hd))
  | @close W O current next groups c hc hnone hle _ ih =>
    have hlt : k < next := hserved.resolve_right fun ⟨d, hd, hdn⟩ => hnone d hd hdn
    have hcount : ∀ i, inputCount (current.connections ++ (W ++ O)) i
        = (if k ≤ i ∧ i < k + current.connections.length then 1 else 0)
          + inputCount (W ++ O) i := by
      intro i
      rw [inputCount_append, inputCount_of_range' hcurrent]
    have hlow : ∀ i, 0 < inputCount (W ++ O) i → k ≤ i := by
      intro i hi
      by_contra hlt
      refine absurd (inputCount_eq_zero fun d hd hdi => ?_) hi.ne'
      have := hmin d hd
      omega
    -- the inputs that are left are among those of the group, or there is a dip
    have hiff (hup : ∀ i, 0 < inputCount (W ++ O) i → i < next) :
        FullGroups (inputCount (current.connections ++ (W ++ O))) (current :: groups) ↔
          NoDip (inputCount (current.connections ++ (W ++ O))) := by
      have hrest : ∀ i, 0 < inputCount (W ++ O) i → k ≤ i ∧ i < k + current.connections.length :=
        fun i hi => ⟨hlow i hi, hk.symm ▸ hup i hi⟩
      rw [fullGroups_cons_iff hcurrent hcount hrest, noDip_iff_of_stretch hcount hrest]
      exact ih rfl rfl hle (Or.inr ⟨c, hc, rfl⟩)
    constructor
    · intro hfull
      refine (hiff fun i hi => ?_).mp hfull
      obtain ⟨group, hgroup, hserves⟩ := hfull 0 i (by rw [hcount]; omega)
      obtain rfl : current = group := Option.some.inj hgroup
      have := (exists_atInput_iff hcurrent).mp hserves
      omega
    · intro hdip
      refine (hiff fun i hi => ?_).mpr hdip
      by_contra hge
      have hnext : inputCount (W ++ O) next = 0 := inputCount_eq_zero hnone
      have hne : i ≠ next := by
        rintro rfl
        omega
      have h1 := hcount k
      have h2 := hcount next
      have h3 := hcount i
      rw [if_pos ⟨le_refl k, by omega⟩] at h1
      rw [if_neg (by omega)] at h2
      have := hdip k next i hlt (by omega)
      omega

end GroupRun

section

variable (localeCompare : String → String → ℤ) {graph : DirectedGraph} {node : INode}
  {runData : IRunData} {pinnedData : IPinData}

theorem getSourceDataGroups_eq_nil (h : incomingConnections graph node = []) :
    getSourceDataGroups localeCompare graph node runData pinnedData = [] := by
  rw [getSourceDataGroups, ← incomingConnections, h]
  rfl

section

variable (hmain : ∀ c ∈ incomingConnections graph node, c.type = .main)
include hmain

theorem groupsPartition_getSourceDataGroups :
    GroupsPartition (fun c => hasData runData pinnedData c = true) (incomingConnections graph node)
      (getSourceDataGroups localeCompare graph node runData pinnedData) := by
  by_cases hne : incomingConnections graph node = []
  · rw [getSourceDataGroups_eq_nil localeCompare hne, hne]
    exact ⟨List.Perm.refl _, fun g hg => (by cases hg), fun g hg => (by cases hg), .nil⟩
  · have hdealt : dealtConnections graph node runData pinnedData = incomingConnections graph node :=
      dealtConnections_of_main hmain
    rw [← hdealt] at hne ⊢
    obtain ⟨W, O, next, ⟨steps, hcall, hsteps⟩, hperm, hW, hO, -⟩ :=
      exists_groupLoop localeCompare hne
    rw [hcall]
    have hrun : GroupRun W O {} next (groupLoop steps W O {} next) := groupRun_groupLoop hsteps
    refine ⟨hrun.perm.trans hperm, fun group hgroup => ?_, ?_, pairwise_groups fun i => ?_⟩
    · obtain ⟨k, hk⟩ := hrun.contiguous rfl rfl group hgroup
      rw [hk]
      exact List.pairwise_lt_range'
    · refine hrun.complete_iff hW (fun c hc => ?_) (iff_of_true rfl fun c hc => by cases hc)
      rw [(hO c hc).1]
      exact Bool.false_ne_true
    · refine List.Pairwise.sublist (prefix_atInput_groupLoop i).sublist ?_
      have hfirst : ∀ c ∈ atInput i W, hasData runData pinnedData c = true :=
        fun c hc => hW c (List.mem_filter.mp hc).1
      rw [List.pairwise_append, List.pairwise_append]
      refine ⟨List.Pairwise.nil, ⟨?_, ?_, ?_⟩, fun c hc => by cases hc⟩
      · exact List.pairwise_of_forall_mem_list fun c hc _ _ _ => hfirst c hc
      · refine List.pairwise_of_forall_mem_list fun c _ d hd hdata => ?_
        rw [(hO d (List.mem_filter.mp hd).1).1] at hdata
        cases hdata
      · exact fun c hc _ _ _ => hfirst c hc

theorem fullGroups_iff :
    FullGroups (inputCount (incomingConnections graph node))
        (getSourceDataGroups localeCompare graph node runData pinnedData) ↔
      NoDip (inputCount (incomingConnections graph node)) := by
  by_cases hne : incomingConnections graph node = []
  · rw [hne]
    refine iff_of_true (fun k i hk => ?_) (fun i j l _ _ => ?_)
    · exact absurd hk (Nat.not_lt_zero k)
    · exact Nat.zero_le _
  · have hdealt : dealtConnections graph node runData pinnedData = incomingConnections graph node :=
      dealtConnections_of_main hmain
    rw [← hdealt] at hne ⊢
    obtain ⟨W, O, next, hrun, hperm, -, -, hle, hserved⟩ :=
      groupRun_getSourceDataGroups localeCompare hne
    rw [← funext (inputCount_perm hperm)]
    exact hrun.full_iff rfl rfl hle (Or.inr hserved)

/-- **The groups are a full partition of the connections into the node iff no
input has fewer connections than an input before and an input after it.** -/
theorem fullGrouping_iff :
    (GroupsPartition (fun c => hasData runData pinnedData c = true)
        (incomingConnections graph node)
        (getSourceDataGroups localeCompare graph node runData pinnedData) ∧
      FullGroups (inputCount (incomingConnections graph node))
        (getSourceDataGroups localeCompare graph node runData pinnedData)) ↔
      NoDip (inputCount (incomingConnections graph node)) := by
  rw [fullGroups_iff localeCompare hmain]
  exact and_iff_right (groupsPartition_getSourceDataGroups localeCompare hmain)

end

end

/-- The node is served by one source for each input of the list. -/
def sourcesOf (inputs : List ℕ) : DirectedGraph :=
  (inputs.map fun i => (⟨"source", "node", .main, 0, i⟩ : GraphConnection)).foldl
    DirectedGraph.putConnection (DirectedGraph.addNodes {} [{ name := "source" }, { name := "node" }])

theorem fullGrouping_sourcesOf :
    (GroupsPartition (fun c => hasData Dict.empty Dict.empty c = true)
        (incomingConnections (sourcesOf [1]) { name := "node" })
        (getSourceDataGroups (fun _ _ => 0) (sourcesOf [1]) { name := "node" } Dict.empty
          Dict.empty) ∧
      FullGroups (inputCount (incomingConnections (sourcesOf [1]) { name := "node" }))
        (getSourceDataGroups (fun _ _ => 0) (sourcesOf [1]) { name := "node" } Dict.empty
          Dict.empty)) ↔
      NoDip (inputCount (incomingConnections (sourcesOf [1]) { name := "node" })) :=
  fullGrouping_iff _ (by decide)

/-- The connection to input 2 waits for a second group. -/
theorem not_fullGroups_sourcesOf :
    (∀ c ∈ incomingConnections (sourcesOf [0, 2]) { name := "node" }, c.type = .main) ∧
    ¬ FullGroups (inputCount (incomingConnections (sourcesOf [0, 2]) { name := "node" }))
        (getSourceDataGroups (fun _ _ => 0) (sourcesOf [0, 2]) { name := "node" } Dict.empty
          Dict.empty) := by
  refine ⟨by decide, fun hfull => ?_⟩
  obtain ⟨group, hgroup, hserves⟩ := hfull 0 2 (by decide)
  have hfirst : (getSourceDataGroups (fun _ _ => 0) (sourcesOf [0, 2]) { name := "node" }
      Dict.empty Dict.empty)[0]? = some ⟨false, [⟨"source", "node", .main, 0, 0⟩]⟩ := by decide
  rw [hfirst, Option.some.injEq] at hgroup
  subst hgroup
  exact absurd hserves (by decide)

end N8n
