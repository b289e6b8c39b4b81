/-
What a merge of two versions keeps of the first one.

* **`merge_preserves_iff`** — what is accepted is kept, iff no version that keeps everything
  loosely has an array in place of an object or misses a hidden connection.
-/
import N8n.WorkflowDiff

namespace N8n.WorkflowDiff

open DirectedGraph (inheritedNames)

/-- The same JSON value, in whatever order its keys stand. -/
def Same (a b : Json) : Prop := a.1.Alike false (fun s t => s = t) b.1

/-- The code units of one string are a subsequence of the other one's. -/
def Within (s t : String) : Prop := (utf16 s).Sublist (utf16 t)

/-- One shape, the same leaves, and strings within those of the second value. -/
def Extends (a b : Json) : Prop := a.1.Alike false Within b.1

/-- The same, but an array may stand for an object. -/
def LooselyExtends (a b : Json) : Prop := a.1.Alike true Within b.1

/-- The second node is the first one, with its parameters in some relation. -/
structure Keeps (R : Json → Json → Prop) (prev next : DiffableNode) : Prop where
  id : next.id = prev.id
  name : next.name = prev.name
  type : Option.Rel Same prev.type next.type
  typeVersion : Option.Rel Same prev.typeVersion next.typeVersion
  webhookId : Option.Rel Same prev.webhookId next.webhookId
  credentials : Option.Rel Same prev.credentials next.credentials
  parameters : R prev.parameters next.parameters

/-- No data of the first version is lost. -/
structure Preserved (prev next : DiffableWorkflow) : Prop where
  nodes : ∀ node ∈ prev.nodes, ∃ other ∈ next.nodes, Keeps Extends node other
  connections : ∀ l ∈ links prev.connections, l ∈ links next.connections

/-- The same, loosely, and but for connections of nodes with an inherited name. -/
structure LooselyPreserved (prev next : DiffableWorkflow) : Prop where
  nodes : ∀ node ∈ prev.nodes, ∃ other ∈ next.nodes, Keeps LooselyExtends node other
  connections : ∀ l ∈ links prev.connections, l.node ∉ inheritedNames → l ∈ links next.connections

/-- No object of a node's parameters meets an array, and no connection of a node with an inherited
name is gone. -/
structure Plain (prev next : DiffableWorkflow) : Prop where
  unmixed : ∀ node ∈ prev.nodes, ∀ other ∈ next.nodes, other.id = node.id →
    node.parameters.1.Unmixed other.parameters.1
  connections : ∀ l ∈ links prev.connections, l.node ∈ inheritedNames → l ∈ links next.connections

variable {prev next other : DiffableWorkflow} {node target : DiffableNode}

theorem Same.refl (a : Json) : Same a a := JsValue.Alike.refl (fun _ => rfl) a.2

theorem Same.trans {a b c : Json} (hab : Same a b) (hbc : Same b c) : Same a c :=
  JsValue.Alike.trans (fun _ _ _ hst htu => hst.trans htu) hab hbc

theorem Extends.refl (a : Json) : Extends a a :=
  JsValue.Alike.refl (fun s => List.Sublist.refl (utf16 s)) a.2

theorem Extends.trans {a b c : Json} (hab : Extends a b) (hbc : Extends b c) : Extends a c :=
  JsValue.Alike.trans (R := Within) (fun _ _ _ hst htu => List.Sublist.trans hst htu) hab hbc

theorem option_rel_refl {a : Option Json} : Option.Rel Same a a := by
  cases a with
  | none => exact .none
  | some a => exact .some (.refl a)

theorem option_rel_trans {a b c : Option Json} (hab : Option.Rel Same a b)
    (hbc : Option.Rel Same b c) : Option.Rel Same a c := by
  cases hab with
  | none => exact hbc
  | some hab =>
    cases hbc with
    | some hbc => exact .some (hab.trans hbc)

theorem isSome_eq_of_rel {a b : Option Json} (h : Option.Rel Same a b) : a.isSome = b.isSome := by
  cases h with
  | none => rfl
  | some _ => rfl

theorem Keeps.refl (node : DiffableNode) : Keeps Extends node node :=
  ⟨rfl, rfl, option_rel_refl, option_rel_refl, option_rel_refl, option_rel_refl, .refl _⟩

theorem Keeps.trans {a b c : DiffableNode} (hab : Keeps Extends a b) (hbc : Keeps Extends b c) :
    Keeps Extends a c where
  id := hbc.id.trans hab.id
  name := hbc.name.trans hab.name
  type := option_rel_trans hab.type hbc.type
  typeVersion := option_rel_trans hab.typeVersion hbc.typeVersion
  webhookId := option_rel_trans hab.webhookId hbc.webhookId
  credentials := option_rel_trans hab.credentials hbc.credentials
  parameters := hab.parameters.trans hbc.parameters

theorem Preserved.refl (workflow : DiffableWorkflow) : Preserved workflow workflow where
  nodes node hnode := ⟨node, hnode, .refl node⟩
  connections _ hl := hl

theorem Preserved.trans (hprev : Preserved prev next) (hnext : Preserved next other) :
    Preserved prev other where
  nodes node hnode := by
    obtain ⟨middle, hmiddle, hkeeps⟩ := hprev.nodes node hnode
    obtain ⟨last, hlast, hkeeps'⟩ := hnext.nodes middle hmiddle
    exact ⟨last, hlast, hkeeps.trans hkeeps'⟩
  connections l hl := hnext.connections l (hprev.connections l hl)

variable {props : List String}

theorem mem_keys_pick {key : String} :
    key ∈ (pick node props).fields.map Prod.fst ↔ key ∈ props ∧ (node.get key).isSome = true := by
  rw [Option.isSome_iff_exists, List.mem_map]
  constructor
  · rintro ⟨f, hf, rfl⟩
    obtain ⟨hprop, hdistinct, hget⟩ := mem_fields_pick.mp hf
    exact ⟨hprop, _, hget⟩
  · rintro ⟨hprop, value, hget⟩
    exact ⟨(key, value.1), mem_fields_pick.mpr ⟨hprop, value.2, hget⟩, rfl⟩

theorem isEqual_pick_iff (h : props.Nodup) :
    isEqual (pick node props) (pick target props) = true ↔
      ∀ prop ∈ props, Option.Rel Same (node.get prop) (target.get prop) := by
  have hequal : isEqual (pick node props) (pick target props) = true ↔
      (pick node props).Alike false (fun s t => s = t) (pick target props) :=
    JsValue.compare_iff (fun _ _ => beq_iff_eq) (distinct_pick h) (distinct_pick h)
  rw [hequal]
  constructor
  · rintro ⟨hkeys, hfields⟩ prop hprop
    rcases hnode : node.get prop with _ | a
    · rcases htarget : target.get prop with _ | b
      · exact .none
      · have hsome := (mem_keys_pick.mp ((hkeys prop).mpr
          (mem_keys_pick.mpr ⟨hprop, by rw [htarget]; rfl⟩))).2
        rw [hnode] at hsome
        cases hsome
    · obtain ⟨v, hv, halike⟩ := JsValue.alikeFields_iff.mp hfields _
        (mem_fields_pick.mpr ⟨hprop, a.2, hnode⟩)
      obtain ⟨_, hdistinct, hget⟩ := mem_fields_pick.mp (JsValue.mem_of_property_object hv)
      rw [hget]
      exact .some halike
  · intro hrel
    have hsome := fun key hkey => isSome_eq_of_rel (hrel key hkey)
    refine ⟨fun key => ?_, JsValue.alikeFields_iff.mpr fun f hf => ?_⟩
    · refine mem_keys_pick.trans (Iff.trans ?_ mem_keys_pick.symm)
      exact and_congr_right fun hkey => by rw [hsome key hkey]
    · obtain ⟨hprop, hdistinct, hget⟩ := mem_fields_pick.mp hf
      have hother : (target.get f.1).isSome = true := by
        rw [← hsome _ hprop, hget]
        rfl
      obtain ⟨b, hb⟩ := Option.isSome_iff_exists.mp hother
      have hsame := hrel _ hprop
      rw [hget, hb] at hsame
      cases hsame with
      | some hsame =>
        exact ⟨b.1, JsValue.property_object_eq_some_of_mem (distinct_pick h).1
          (mem_fields_pick.mpr ⟨hprop, b.2, hb⟩), hsame⟩

theorem compareNodes_iff : compareNodes node target = true ↔ target.name = node.name ∧
    Option.Rel Same node.type target.type ∧ Option.Rel Same node.typeVersion target.typeVersion ∧
    Option.Rel Same node.webhookId target.webhookId ∧
    Option.Rel Same node.credentials target.credentials ∧
    Same node.parameters target.parameters := by
  have hsome : ∀ a b : Json, Option.Rel Same (some a) (some b) ↔ Same a b := fun a b =>
    ⟨fun h => by cases h; assumption, .some⟩
  rw [compareNodes, isEqual_pick_iff (by decide)]
  simp only [propsToCompare, List.forall_mem_cons, DiffableNode.get, hsome]
  rw [eq_comm]
  simp [Same, JsValue.Alike]

theorem nodeIsSuperset_iff (hid : target.id = node.id) :
    nodeIsSuperset node target = true ↔ Keeps LooselyExtends node target := by
  have hparameters : parametersAreSuperset node.parameters.1 target.parameters.1 = true ↔
      LooselyExtends node.parameters target.parameters :=
    JsValue.compare_iff (fun _ _ => stringContainsParts_iff) node.parameters.2 target.parameters.2
  rw [nodeIsSuperset, Bool.and_eq_true, compareNodes_iff, hparameters]
  constructor
  · rintro ⟨⟨hname, htype, hversion, hwebhook, hcredentials, -⟩, hextends⟩
    exact ⟨hid, hname, htype, hversion, hwebhook, hcredentials, hextends⟩
  · rintro ⟨-, hname, htype, hversion, hwebhook, hcredentials, hextends⟩
    exact ⟨⟨hname, htype, hversion, hwebhook, hcredentials, Same.refl _⟩, hextends⟩

theorem keeps_of_compareNodes (hid : target.id = node.id) (h : compareNodes node target = true) :
    Keeps LooselyExtends node target := by
  obtain ⟨hname, htype, hversion, hwebhook, hcredentials, hparameters⟩ := compareNodes_iff.mp h
  refine ⟨hid, hname, htype, hversion, hwebhook, hcredentials, ?_⟩
  refine JsValue.Alike.mono ?_ (fun _ => rfl) hparameters
  rintro s t rfl
  exact List.Sublist.refl (utf16 s)

theorem mergeNodes_added (nodes : List DiffableNode) :
    mergeNodes next (nodes.map fun node => ⟨.added, node⟩) = .ok true := by
  induction nodes with
  | nil => rfl
  | cons node nodes ih => exact ih

theorem find?_eq_some (h : UniqueIds next.nodes) (hmem : target ∈ next.nodes)
    (hid : target.id = node.id) : (next.nodes.find? fun x => x.id = node.id) = some target := by
  rcases hfind : next.nodes.find? fun x => x.id = node.id with _ | found
  · exact absurd hid (by simpa using List.find?_eq_none.mp hfind target hmem)
  · have hfound := List.find?_some hfind
    simp only [decide_eq_true_eq] at hfound
    exact hfind.trans (congrArg some
      (List.inj_on_of_nodup_map h (List.mem_of_find?_eq_some hfind) hmem (hfound.trans hid.symm)))

/-- **The loop over the nodes**: it accepts iff each node of the first version is in the second
one, and is loosely kept there. -/
theorem mergeNodes_iff (h : UniqueIds next.nodes) {added : List NodeDiff}
    (hadded : mergeNodes next added = .ok true) :
    ∀ nodes : List DiffableNode,
      mergeNodes next (nodes.map (fun node =>
        compareWithTarget (nodesById next.nodes) node.id node) ++ added) = .ok true ↔
      ∀ node ∈ nodes, ∃ other ∈ next.nodes, Keeps LooselyExtends node other
  | [] => iff_of_true hadded fun _ h => by cases h
  | node :: nodes => by
    rw [List.forall_mem_cons, ← mergeNodes_iff h hadded nodes, List.map_cons, List.cons_append]
    rcases htarget : (nodesById next.nodes).get? node.id with _ | target
    · refine iff_of_false ?_ fun hkept => ?_
      · rw [compareWithTarget, htarget, mergeNodes]
        exact fun h => by cases h
      · obtain ⟨other, hmem, hkeeps⟩ := hkept.1
        have hsome := (get?_nodesById h).mpr ⟨hmem, hkeeps.id⟩
        rw [htarget] at hsome
        cases hsome
    · obtain ⟨hmem, hid⟩ := (get?_nodesById h).mp htarget
      have honly : (∃ other ∈ next.nodes, Keeps LooselyExtends node other) ↔
          Keeps LooselyExtends node target := by
        refine ⟨?_, fun hkeeps => ⟨target, hmem, hkeeps⟩⟩
        rintro ⟨other, hother, hkeeps⟩
        exact List.inj_on_of_nodup_map h hother hmem (hkeeps.id.trans hid.symm) ▸ hkeeps
      have hfind := find?_eq_some h hmem hid
      rw [honly, ← nodeIsSuperset_iff hid, compareWithTarget, htarget]
      by_cases hsame : compareNodes node target = true
      · have hsuperset := (nodeIsSuperset_iff hid).mpr (keeps_of_compareNodes hid hsame)
        simp [mergeNodes, hsame, hfind, hsuperset]
      · rcases hsuperset : nodeIsSuperset node target with _ | _
        · simp [mergeNodes, hsame, hfind, hsuperset]
        · simp [mergeNodes, hsame, hfind, hsuperset]

/-- **What the rule accepts**. -/
theorem mergeAdditiveChanges_iff (hprev : UniqueIds prev.nodes) (hnext : UniqueIds next.nodes) :
    mergeAdditiveChanges prev next (changeSet prev next) = .ok true ↔
      LooselyPreserved prev next := by
  have hvalues : (changeSet prev next).nodes.values = prev.nodes.map (fun node =>
      compareWithTarget (nodesById next.nodes) node.id node) ++
        (next.nodes.filter fun node => !(nodesById prev.nodes).has node.id).map
          fun node => ⟨.added, node⟩ := by
    rw [Dict.values, changeSet, entries_compareWorkflowsNodes hprev hnext, List.map_append,
      List.map_map, List.map_map]
    rfl
  have hnodes := mergeNodes_iff hnext (mergeNodes_added
    (next.nodes.filter fun node => !(nodesById prev.nodes).has node.id)) prev.nodes
  have hconnections : (changeSet prev next).connections.removedNames = [] ↔ _ :=
    ConnectionsDiff.removedNames_eq_nil_iff
  rw [mergeAdditiveChanges, hvalues]
  constructor
  · intro h
    obtain ⟨merged, hmerged, hreturn⟩ := exists_of_bind_eq_ok h
    cases merged with
    | false => cases hreturn
    | true =>
      exact ⟨hnodes.mp hmerged, hconnections.mp (List.isEmpty_iff.mp (Except.ok.inj hreturn))⟩
  · intro h
    rw [hnodes.mpr h.nodes]
    exact congrArg Except.ok (List.isEmpty_iff.mpr (hconnections.mpr h.connections))

theorem LooselyPreserved.iff_plain (hnext : UniqueIds next.nodes) (h : LooselyPreserved prev next) :
    Preserved prev next ↔ Plain prev next := by
  constructor
  · refine fun hkept => ⟨fun node hnode other hother hid => ?_, fun l hl _ => hkept.connections l hl⟩
    obtain ⟨target, htarget, hkeeps⟩ := hkept.nodes node hnode
    obtain rfl := List.inj_on_of_nodup_map hnext htarget hother (hkeeps.id.trans hid.symm)
    have hloose := hkeeps.parameters.mono (fun _ _ h => h) (fun _ => rfl)
    exact (JsValue.alike_iff_unmixed hloose).mp hkeeps.parameters
  · intro hplain
    refine ⟨fun node hnode => ?_, fun l hl => ?_⟩
    · obtain ⟨other, hother, hkeeps⟩ := h.nodes node hnode
      refine ⟨other, hother, { hkeeps with parameters := ?_ }⟩
      exact (JsValue.alike_iff_unmixed hkeeps.parameters).mpr
        (hplain.unmixed node hnode other hother hkeeps.id)
    · by_cases hinherited : l.node ∈ inheritedNames
      · exact hplain.connections l hl hinherited
      · exact h.connections l hl hinherited

/-- **When a merge loses nothing**: what the rule accepts is kept iff no version that keeps
everything loosely has an array in place of an object or misses a hidden connection; and to be kept
is reflexive and transitive. -/
theorem merge_preserves_iff (hprev : UniqueIds prev.nodes) (hnext : UniqueIds next.nodes) :
    ((mergeAdditiveChanges prev next (changeSet prev next) = .ok true → Preserved prev next) ↔
      (LooselyPreserved prev next → Plain prev next)) ∧
    (∀ workflow, Preserved workflow workflow) ∧
    ∀ first second third, Preserved first second → Preserved second third →
      Preserved first third := by
  refine ⟨?_, Preserved.refl, fun _ _ _ => Preserved.trans⟩
  rw [mergeAdditiveChanges_iff hprev hnext]
  exact forall_congr' fun h => h.iff_plain hnext

def withParameter (value : Json) : DiffableWorkflow where
  nodes := [{
    id := "1", name := "Set", parameters := ⟨.object [("options", value.1)],
      List.nodup_singleton _, value.2, trivial⟩ }]
  connections := Dict.empty

theorem uniqueIds_withParameter (value : Json) : UniqueIds (withParameter value).nodes :=
  List.nodup_singleton "1"

/-- A letter put in is kept, and so is the rest. -/
theorem merge_preserves_text :
    Preserved (withParameter ⟨.string "n8n", trivial⟩)
      (withParameter ⟨.string "n88n", trivial⟩) := by
  refine (merge_preserves_iff (uniqueIds_withParameter _) (uniqueIds_withParameter _)).1.mpr
    (fun _ => ?_) (by decide)
  refine ⟨fun node hnode other hother _ => ?_, fun l hl => by cases hl⟩
  obtain rfl := List.mem_singleton.mp hnode
  obtain rfl := List.mem_singleton.mp hother
  exact ⟨fun v hv => by cases hv; trivial, trivial⟩

/-- An empty array in place of an empty object is accepted, and is none. -/
theorem not_merge_preserves_array :
    ¬ (mergeAdditiveChanges (withParameter ⟨.object [], List.nodup_nil, trivial⟩)
      (withParameter ⟨.array [], trivial⟩)
      (changeSet (withParameter ⟨.object [], List.nodup_nil, trivial⟩)
        (withParameter ⟨.array [], trivial⟩)) = .ok true →
      Preserved (withParameter ⟨.object [], List.nodup_nil, trivial⟩)
        (withParameter ⟨.array [], trivial⟩)) := by
  intro h
  obtain ⟨other, hother, hkeeps⟩ := (h (by decide)).nodes _ (List.mem_singleton_self _)
  obtain rfl := List.mem_singleton.mp hother
  obtain ⟨-, ⟨v, hv, halike⟩, -⟩ := hkeeps.parameters
  cases hv
  exact absurd halike.1 Bool.false_ne_true

end N8n.WorkflowDiff
