/-
Programs on a view and on a copy.

A program that is run on `augmentObject(data)` shows the same, operation by operation, as the
program on a deep copy of the data, and the data stays as it is.

* **`augment_refines`** — what a careful program shows on the view it shows on the copy.
-/
import N8n.AugmentObjectTraps

namespace N8n.AugmentObject

open ObjectMemory

variable {π ρ : Type} {W : ℕ → Prop} {T : List ℕ} {v : Value π Handle} {m : Augmented π}
  {heap : Heap π ℕ}

theorem mem_plant {ρ' : Type} {tree : Json π ρ} {place : ℕ → ρ'} {held : ρ → Value π ρ'}
    {node : Node (Value π ρ')} (h : node ∈ tree.plant place held) :
    ∃ a ∈ tree.nodes, node = a.map (Item.plant place held) := by
  obtain ⟨a, ha, rfl⟩ := List.mem_map.mp h
  exact ⟨a, ha, rfl⟩

theorem plant_toCopy (tree : Json π ρ) (place : ℕ → Handle) (held : ρ → Value π Handle) :
    (tree.plant place held).map (Node.map toCopy) =
      tree.plant (fun i => (place i).node) fun r => toCopy (held r) := by
  rw [Json.plant, Json.plant, List.map_map]
  refine List.map_congr_left fun node _ => ?_
  refine congrArg (Node.mk node.length) ?_
  rw [Fields.mapValues, Node.map, Fields.mapValues, Fields.mapValues, List.map_map]
  refine List.map_congr_left fun s _ => ?_
  obtain ⟨key, item⟩ := s
  cases item <;> rfl

theorem plant_eq_raw {place : ℕ → Handle} {held : ρ → Value π Handle} {item : Item π ρ} {k : ℕ}
    (h : item.plant place held = .ref (.raw k)) :
    (∃ i, item = .node i ∧ place i = .raw k) ∨ ∃ r, item = .held r ∧ held r = .ref (.raw k) := by
  cases item with
  | prim p => cases h
  | node i => exact .inl ⟨i, rfl, Value.ref.inj h⟩
  | held r => exact .inr ⟨r, rfl, h⟩

section

variable (tree : Json π ρ) (held : ρ → Value π Handle) (base : ℕ)

theorem lt_of_mem {a : Node (Item π ρ)} (ha : a ∈ tree.nodes) {key : String} {i : ℕ}
    (hs : (key, Item.node i) ∈ a.slots) : i ≠ 0 ∧ i < tree.nodes.length :=
  tree.closed a ha key i (Fields.get_of_mem (tree.nodup a ha) hs)

theorem planted_given (hW : ∀ i, base ≤ i → ¬ W i)
    (hheld : ∀ a ∈ tree.nodes, ∀ s ∈ a.slots, ∀ r, s.2 = .held r →
      isRaw (held r) = false ∧ ∀ j i, held r = .ref (.proxy j i) → T[j]? = some i) :
    (∀ node ∈ tree.plant (fun i => Handle.raw (base + i)) held, node.keys.Nodup ∧ node.Dense ∧
      node.All (Pending W T (base + (tree.plant (fun i => Handle.raw (base + i)) held).length))) ∧
    (∀ node ∈ tree.plant (fun i => Handle.raw (base + i)) held, ∀ (key : String) (k : ℕ),
      Fields.get node.slots key = some (.ref (.raw k)) → base < k) ∧
    ∀ (i i' : ℕ) (a b : Node (Value π Handle)) (key key' : String) (k : ℕ),
      (tree.plant (fun i => Handle.raw (base + i)) held)[i]? = some a →
      (tree.plant (fun i => Handle.raw (base + i)) held)[i']? = some b →
      Fields.get a.slots key = some (.ref (.raw k)) →
      Fields.get b.slots key' = some (.ref (.raw k)) → i = i' ∧ key = key' := by
  have hlength : (tree.plant (fun i => Handle.raw (base + i)) held).length = tree.nodes.length :=
    List.length_map _
  -- a raw object in a slot is a node of the tree
  have hslot : ∀ a ∈ tree.nodes, ∀ (key : String) (k : ℕ),
      Fields.get (a.map (Item.plant (fun i => Handle.raw (base + i)) held)).slots key
        = some (.ref (.raw k)) →
      ∃ i, k = base + i ∧ Fields.get a.slots key = some (.node i) := by
    intro a ha key k hget
    rw [get_slots_map] at hget
    obtain ⟨item, hitem, hplant⟩ := Option.map_eq_some_iff.mp hget
    rcases plant_eq_raw hplant with ⟨i, rfl, hi⟩ | ⟨r, rfl, hr⟩
    · exact ⟨i, (Handle.raw.inj hi).symm, hitem⟩
    · have hraw := (hheld a ha _ (Fields.mem_of_get hitem) r rfl).1
      rw [hr] at hraw
      cases hraw
  refine ⟨fun node hnode => ?_, fun node hnode key k hget => ?_,
    fun i i' a b key key' k ha hb hget hget' => ?_⟩
  · obtain ⟨a, ha, rfl⟩ := mem_plant hnode
    refine ⟨?_, ?_, fun s hs => ?_⟩
    · rw [Node.keys_map]
      exact tree.nodup a ha
    · intro n hn
      rw [Node.keys_map]
      exact tree.dense a ha n hn
    · obtain ⟨⟨key, item⟩, hitem, rfl⟩ := List.mem_map.mp hs
      cases item with
      | prim p => exact ⟨nofun, nofun⟩
      | node i =>
        refine ⟨fun k hk => ?_, nofun⟩
        cases hk
        have hlt := (lt_of_mem tree ha hitem).2
        exact ⟨hW _ (Nat.le_add_right _ _), by rw [hlength]; omega⟩
      | held r =>
        obtain ⟨hraw, hproxy⟩ := hheld a ha _ hitem r rfl
        refine ⟨fun k hk => ?_, hproxy⟩
        have hk : held r = .ref (.raw k) := hk
        rw [hk] at hraw
        cases hraw
  · obtain ⟨a, ha, rfl⟩ := mem_plant hnode
    obtain ⟨i, rfl, hi⟩ := hslot a ha key k hget
    have hne := (tree.closed a ha key i hi).1
    omega
  · rw [Json.plant, List.getElem?_map] at ha hb
    obtain ⟨a', ha', rfl⟩ := Option.map_eq_some_iff.mp ha
    obtain ⟨b', hb', rfl⟩ := Option.map_eq_some_iff.mp hb
    obtain ⟨l, hl, hgeta⟩ := hslot a' (List.mem_of_getElem? ha') key k hget
    obtain ⟨l', hl', hgetb⟩ := hslot b' (List.mem_of_getElem? hb') key' k hget'
    have heq : l = l' := by omega
    subst heq
    exact tree.once i i' a' b' key key' l ha' hb' hgeta hgetb

theorem planted_assigned
    (hheld : ∀ a ∈ tree.nodes, ∀ s ∈ a.slots, ∀ r, s.2 = .held r → Held W T (held r)) :
    ∀ node ∈ tree.plant (fun i => Handle.raw (base + i)) held,
      node.All (Held (fun i => W i ∨ (base ≤ i ∧
        i < base + (tree.plant (fun i => Handle.raw (base + i)) held).length)) T) := by
  have hlength : (tree.plant (fun i => Handle.raw (base + i)) held).length = tree.nodes.length :=
    List.length_map _
  intro node hnode
  obtain ⟨a, ha, rfl⟩ := mem_plant hnode
  intro s hs
  obtain ⟨⟨key, item⟩, hitem, rfl⟩ := List.mem_map.mp hs
  cases item with
  | prim p => exact held_of_no_ref nofun
  | node i =>
    refine ⟨fun k hk => ?_, nofun⟩
    cases hk
    have hlt := (lt_of_mem tree ha hitem).2
    exact .inr ⟨Nat.le_add_right _ _, by rw [hlength]; omega⟩
  | held r => exact (hheld a ha _ hitem r rfl).mono (fun _ => .inl) List.prefix_rfl

end

/-- The copy has what the views show, under the same registers. -/
def Copied (st : State π Handle (Augmented π)) (st' : State π ℕ (Heap π ℕ)) : Prop :=
  ∃ W, Related W st.memory.targets st.memory st'.memory ∧
    (∀ v ∈ st.registers, Held W st.memory.targets v) ∧ st'.registers = st.registers.map toCopy

theorem copied_start (tree : Json π Empty) : Copied (augmentRoot tree) (deepCopy tree) := by
  have hempty : Related (fun _ => False) [] (⟨[], []⟩ : Augmented π) [] :=
    ⟨rfl, List.prefix_rfl, List.nodup_nil, nofun, nofun,
      fun _ _ => ⟨List.nodup_nil, nofun, nofun⟩, nofun, fun _ _ => rfl, nofun, nofun⟩
  obtain ⟨hnodes, hnew, honce⟩ := planted_given (W := fun _ => False) (T := []) tree
    (fun r => r.elim) 0 (fun _ _ => id) fun _ _ _ _ r => r.elim
  simp only [Nat.zero_add] at hnodes hnew honce
  have hnodes' : ∀ node ∈ originals tree, node.keys.Nodup ∧ node.Dense ∧
      node.All (Pending (fun _ => False) [] (([] : Heap π Handle).length
        + (originals tree).length)) := fun node hnode => by
    rw [List.length_nil, Nat.zero_add]
    exact hnodes node hnode
  have hallocated : Related (fun _ => False) [] (⟨originals tree, []⟩ : Augmented π)
      (deepCopy tree).memory := by
    have hcopy : (deepCopy tree).memory = [] ++ (originals tree).map (Node.map toCopy) := by
      rw [List.nil_append, originals, plant_toCopy, deepCopy]
      refine congrArg (Json.plant tree id) ?_
      funext r
      exact r.elim
    rw [hcopy]
    exact hempty.allocateGiven hnodes' (fun _ _ _ _ _ => Nat.zero_le _) honce
  have hlt : 0 < (originals tree).length := by
    rw [originals, Json.plant, List.length_map]
    exact List.length_pos_iff.mpr tree.ne_nil
  have hannounced : Related (fun _ => False) (Augmented.targets ⟨originals tree, []⟩ ++ [0])
      (⟨originals tree, []⟩ : Augmented π) (deepCopy tree).memory :=
    hallocated.announce List.not_mem_nil id hlt
  have hadopted := hannounced.adopt fun i key _ hget => by
    by_cases hi : i < (originals tree).length
    · have hat : (originals tree).at i ∈ originals tree := by
        rw [Heap.at_of_lt hi]
        exact List.getElem_mem hi
      exact absurd (hnew _ hat key 0 hget) (Nat.lt_irrefl 0)
    · rw [Heap.at_of_ge (Nat.not_lt.mp hi)] at hget
      cases hget
  have htargets : (augmentRoot tree).memory.targets = [0] := by
    show [(Proxy.create 0 ((originals tree).at 0).kind : Proxy π).target] = [0]
    cases ((originals tree).at 0).kind <;> rfl
  refine ⟨fun _ => False, ?_, ?_, rfl⟩
  · rw [htargets]
    exact hadopted
  · intro v hv
    rw [List.mem_singleton.mp hv, htargets]
    refine ⟨nofun, fun j i heq => ?_⟩
    cases heq
    rfl

variable {L : Lengths π} {st : State π Handle (Augmented π)} {st' : State π ℕ (Heap π ℕ)}

theorem held_of_dataIn (hheld : ∀ v ∈ st.registers, Held W T v) {r : ℕ}
    (h : dataIn st.registers r = some v) : Held W T v :=
  hheld v (List.mem_of_getElem? (getElem?_of_dataIn h))

variable {tree : Json π ℕ}

theorem registers_of_mem {a : Node (Item π ℕ)} (ha : a ∈ tree.nodes)
    {s : String × Item π ℕ} (hs : s ∈ a.slots) {r : ℕ} (hr : s.2 = .held r) :
    r ∈ (Operand.json tree).registers := by
  refine List.mem_flatMap.mpr ⟨a, ha, List.mem_flatMap.mpr ⟨s, hs, ?_⟩⟩
  rw [hr]
  exact List.mem_cons_self

def newNodes (st : State π Handle (Augmented π)) (tree : Json π ℕ) : Heap π Handle :=
  tree.plant (fun i => Handle.raw (st.memory.heap.length + i))
    fun r => (dataIn st.registers r).getD .undefined

theorem length_newNodes_pos (tree : Json π ℕ) : 0 < (newNodes st tree).length := by
  rw [newNodes, Json.plant, List.length_map]
  exact List.length_pos_iff.mpr tree.ne_nil

theorem newNodes_toCopy (h : Related W st.memory.targets st.memory st'.memory)
    (hregisters : st'.registers = st.registers.map toCopy) (tree : Json π ℕ) :
    (newNodes st tree).map (Node.map toCopy) = tree.plant (fun i => st'.memory.length + i)
      fun r => (dataIn st'.registers r).getD .undefined := by
  rw [newNodes, plant_toCopy]
  refine congrArg₂ tree.plant ?_ ?_
  · funext i
    exact congrArg (· + i) h.length_eq.symm
  · funext r
    rw [hregisters, dataIn_map]
    cases dataIn st.registers r <;> rfl

theorem held_of_mem_items (hheld : ∀ v ∈ st.registers, Held W T v)
    (hall : ∀ r ∈ (Operand.json tree).registers, (dataIn st.registers r).isSome) :
    ∀ a ∈ tree.nodes, ∀ s ∈ a.slots, ∀ r, s.2 = .held r →
      ∃ v, (dataIn st.registers r).getD .undefined = v ∧ Held W T v ∧
        r ∈ (Operand.json tree).registers ∧ st.registers[r]? = some v := by
  intro a ha s hs r hr
  have hmem := registers_of_mem ha hs hr
  obtain ⟨v, hv⟩ := Option.isSome_iff_exists.mp (hall r hmem)
  exact ⟨v, by rw [hv]; rfl, held_of_dataIn hheld hv, hmem, getElem?_of_dataIn hv⟩

theorem newNodes_given (h : Related W st.memory.targets st.memory st'.memory)
    (hheld : ∀ v ∈ st.registers, Held W st.memory.targets v)
    (hall : ∀ r ∈ (Operand.json tree).registers, (dataIn st.registers r).isSome)
    (hraw : ∀ r ∈ (Operand.json tree).registers, ∀ v ∈ st.registers[r]?, isRaw v = false) :
    Related W st.memory.targets ⟨st.memory.heap ++ newNodes st tree, st.memory.proxies⟩
        (st'.memory ++ (newNodes st tree).map (Node.map toCopy)) ∧
      ∀ (i : ℕ) (key : String), ¬ W i →
        Fields.get (Heap.at (st.memory.heap ++ newNodes st tree) i).slots key
          ≠ some (.ref (.raw st.memory.heap.length)) := by
  have hW : ∀ i, st.memory.heap.length ≤ i → ¬ W i := fun i hi hWi => by
    have hlt := (h.assigned i hWi).1
    omega
  obtain ⟨hnodes, hnew, honce⟩ := planted_given (T := st.memory.targets) tree
    (fun r => (dataIn st.registers r).getD .undefined) st.memory.heap.length hW
    fun a ha s hs r hr => by
      obtain ⟨v, hv, hvheld, hmem, hget⟩ := held_of_mem_items hheld hall a ha s hs r hr
      rw [hv]
      exact ⟨hraw r hmem v hget, hvheld.2⟩
  refine ⟨h.allocateGiven hnodes (fun node hnode key k hget =>
    Nat.le_of_lt (hnew node hnode key k hget)) honce, fun i key hi hget => ?_⟩
  by_cases hlt : i < st.memory.heap.length
  · rw [Heap.at_append_left hlt] at hget
    exact Nat.lt_irrefl _ (((h.given i hi).2.2 _ (Fields.mem_of_get hget)).1 _ rfl).2
  · rw [Heap.at_append_right (Nat.not_lt.mp hlt)] at hget
    by_cases hlt' : i - st.memory.heap.length < (newNodes st tree).length
    · rw [Heap.at_of_lt hlt'] at hget
      exact Nat.lt_irrefl _ (hnew _ (List.getElem_mem hlt') key _ hget)
    · rw [Heap.at_of_ge (Nat.not_lt.mp hlt')] at hget
      cases hget

theorem newNodes_assigned (h : Related W st.memory.targets st.memory st'.memory)
    (hheld : ∀ v ∈ st.registers, Held W st.memory.targets v)
    (hall : ∀ r ∈ (Operand.json tree).registers, (dataIn st.registers r).isSome) :
    Related (fun i => W i ∨ (st.memory.heap.length ≤ i ∧
        i < st.memory.heap.length + (newNodes st tree).length)) st.memory.targets
      ⟨st.memory.heap ++ newNodes st tree, st.memory.proxies⟩
      (st'.memory ++ (newNodes st tree).map (Node.map toCopy)) :=
  h.allocateAssigned (planted_assigned tree (fun r => (dataIn st.registers r).getD .undefined)
    st.memory.heap.length fun a ha s hs r hr => by
      obtain ⟨v, hv, hvheld, -⟩ := held_of_mem_items hheld hall a ha s hs r hr
      rw [hv]
      exact hvheld)

section

variable [DecidableEq π]

theorem eval_value (hheld : ∀ v ∈ st.registers, Held W T v)
    (hregisters : st'.registers = st.registers.map toCopy) (w : Value π ℕ) :
    ((Operand.value w).eval (augmentedMemory L) st = none ∧
      (Operand.value w).eval (copyMemory L) st' = none) ∨
    ∃ v, (Operand.value w).eval (augmentedMemory L) st = some (v, st.memory) ∧
      (Operand.value w).eval (copyMemory L) st' = some (toCopy v, st'.memory) ∧ Held W T v ∧
      (isRaw v = true → ∃ r ∈ (Operand.value w).registers, st.registers[r]? = some v) := by
  cases w with
  | undefined => exact .inr ⟨.undefined, rfl, rfl, held_of_no_ref nofun, nofun⟩
  | prim p => exact .inr ⟨.prim p, rfl, rfl, held_of_no_ref nofun, nofun⟩
  | builtin kind name => exact .inl ⟨rfl, rfl⟩
  | ref r =>
    rw [Operand.eval, Operand.eval, hregisters, dataIn_map]
    rcases hdata : dataIn st.registers r with _ | v
    · exact .inl ⟨rfl, rfl⟩
    · exact .inr ⟨v, rfl, rfl, held_of_dataIn hheld hdata, fun _ =>
        ⟨r, List.mem_cons_self, getElem?_of_dataIn hdata⟩⟩

theorem copied_set_value (h : Related W st.memory.targets st.memory st'.memory)
    (hheld : ∀ v ∈ st.registers, Held W st.memory.targets v)
    (hregisters : st'.registers = st.registers.map toCopy) {r : ℕ} {key : Key} {w : Value π ℕ}
    (hcareful : Careful L st (.set r key (.value w))) {o : Handle}
    (ho : objectIn st.registers r = some o) :
    (step (augmentedMemory L) st (.set r key (.value w))).2
        = (step (copyMemory L) st' (.set r key (.value w))).2 ∧
      Copied (step (augmentedMemory L) st (.set r key (.value w))).1
        (step (copyMemory L) st' (.set r key (.value w))).1 := by
  have ho' : objectIn st'.registers r = some o.node := by
    rw [hregisters, objectIn_map, ho]
    rfl
  rcases eval_value (L := L) hheld hregisters w with ⟨hnone, hnone'⟩ | ⟨v, hv, hv', hvheld, hraw⟩
  · rw [step_set_eq_impossible _ hnone, step_set_eq_impossible _ hnone']
    exact ⟨rfl, W, h, hheld, hregisters⟩
  · obtain ⟨hassigned, hview⟩ := hcareful o ho (v, st.memory) hv
    obtain ⟨hreturns, htargets, hrelated⟩ := h.set L (hheld _ (mem_of_objectIn ho))
      key hvheld hassigned fun p hp => by
        obtain ⟨hkey, harray⟩ := hview p hp
        refine ⟨hkey, fun hkind => ?_⟩
        by_contra hnot
        obtain ⟨i, hi, hget⟩ := hraw (by simpa using hnot)
        exact hnot (harray hkind i hi v hget)
    rw [step_set_eq _ ho hv, step_set_eq _ ho' hv']
    refine ⟨congrArg (fun b : Bool => if b then Seen.done else .thrown) hreturns.symm, W, ?_, ?_,
      hregisters⟩
    · rw [← htargets] at hrelated
      exact hrelated
    · show ∀ u ∈ st.registers, Held W (st.memory.set L o key v).2.targets u
      rw [htargets]
      exact hheld

theorem copied_set_json (h : Related W st.memory.targets st.memory st'.memory)
    (hheld : ∀ v ∈ st.registers, Held W st.memory.targets v)
    (hregisters : st'.registers = st.registers.map toCopy) {r : ℕ} {key : Key}
    (hcareful : Careful L st (.set r key (.json tree))) {o : Handle}
    (ho : objectIn st.registers r = some o) :
    (step (augmentedMemory L) st (.set r key (.json tree))).2
        = (step (copyMemory L) st' (.set r key (.json tree))).2 ∧
      Copied (step (augmentedMemory L) st (.set r key (.json tree))).1
        (step (copyMemory L) st' (.set r key (.json tree))).1 := by
  have ho' : objectIn st'.registers r = some o.node := by
    rw [hregisters, objectIn_map, ho]
    rfl
  have hdata : ∀ i, (dataIn st'.registers i).isSome = (dataIn st.registers i).isSome := fun i => by
    rw [hregisters, dataIn_map, Option.isSome_map]
  by_cases hall : ∀ i ∈ (Operand.json tree).registers, (dataIn st.registers i).isSome
  · have hall' : ∀ i ∈ (Operand.json tree).registers, (dataIn st'.registers i).isSome :=
      fun i hi => (hdata i).trans (hall i hi)
    have heval : (Operand.json tree).eval (augmentedMemory L) st =
        some (.ref (.raw st.memory.heap.length),
          ⟨st.memory.heap ++ newNodes st tree, st.memory.proxies⟩) := if_pos hall
    have heval' : (Operand.json tree).eval (copyMemory L) st' =
        some (toCopy (.ref (.raw st.memory.heap.length)),
          st'.memory ++ (newNodes st tree).map (Node.map toCopy)) := by
      rw [newNodes_toCopy h hregisters, Operand.eval, if_pos hall']
      exact congrArg (fun i => some (Value.ref i, _)) h.length_eq
    obtain ⟨hassigned, hview⟩ := hcareful o ho _ heval
    rw [step_set_eq _ ho heval, step_set_eq _ ho' heval']
    have hlt : st.memory.heap.length < (st.memory.heap ++ newNodes st tree).length := by
      rw [List.length_append]
      exact Nat.lt_add_of_pos_right (length_newNodes_pos tree)
    by_cases harray : ∃ p ∈ st.memory.proxy? o, p.kind = .array
    · obtain ⟨p, hp, hkind⟩ := harray
      obtain ⟨hgiven, hroot⟩ := newNodes_given h hheld hall ((hview p hp).2 hkind)
      rcases o with i | ⟨j, i⟩
      · cases hp
      obtain ⟨q, hq, rfl⟩ := Related.exists_proxy (hheld _ (mem_of_objectIn ho))
      cases Option.some.inj (hq.symm.trans hp)
      obtain ⟨hreturns, htargets, hrelated⟩ := Related.set_root
        (m := ⟨st.memory.heap ++ newNodes st tree, st.memory.proxies⟩) L hgiven hq hkind
        (fun hmem => Nat.lt_irrefl _ (h.given_of_mem _ hmem).2)
        (fun hW => Nat.lt_irrefl _ (h.assigned _ hW).1) hlt hroot
      refine ⟨congrArg (fun b : Bool => if b then Seen.done else .thrown) hreturns.symm, W, ?_, ?_,
        hregisters⟩
      · rw [← htargets] at hrelated
        exact hrelated
      · show ∀ u ∈ st.registers, Held W (Augmented.set L ⟨_, st.memory.proxies⟩
          (.proxy j p.target) key (.ref (.raw st.memory.heap.length))).2.targets u
        rw [htargets]
        exact fun u hu => (hheld u hu).mono (fun _ => id) (List.prefix_append _ _)
    · have hallocated := newNodes_assigned h hheld hall
      have hmono : ∀ u ∈ st.registers, Held (fun i => W i ∨ (st.memory.heap.length ≤ i ∧
          i < st.memory.heap.length + (newNodes st tree).length)) st.memory.targets u :=
        fun u hu => (hheld u hu).mono (fun i hi => .inl hi) List.prefix_rfl
      obtain ⟨hreturns, htargets, hrelated⟩ := Related.set
        (m := ⟨st.memory.heap ++ newNodes st tree, st.memory.proxies⟩) L hallocated
        (hmono _ (mem_of_objectIn ho)) key
        (v := .ref (.raw st.memory.heap.length))
        ⟨fun i hi => by
          cases hi
          exact .inr ⟨Nat.le_refl _, Nat.lt_add_of_pos_right (length_newNodes_pos tree)⟩, nofun⟩
        (fun _ _ => nofun) fun p hp => by
          refine ⟨?_, fun hkind => absurd ⟨p, hp, hkind⟩ harray⟩
          have hkey := (hview p hp).1
          have hmem : p.target ∈ st.memory.targets := by
            rcases o with i | ⟨j, i⟩
            · cases hp
            · exact Related.target_mem hp
          rw [Heap.at_append_left (h.given_of_mem _ hmem).2]
          exact hkey
      refine ⟨congrArg (fun b : Bool => if b then Seen.done else .thrown) hreturns.symm,
        fun i => W i ∨ (st.memory.heap.length ≤ i ∧
          i < st.memory.heap.length + (newNodes st tree).length), ?_, ?_, hregisters⟩
      · rw [← htargets] at hrelated
        exact hrelated
      · show ∀ u ∈ st.registers, Held _ (Augmented.set L
          ⟨st.memory.heap ++ newNodes st tree, st.memory.proxies⟩ o key
          (.ref (.raw st.memory.heap.length))).2.targets u
        rw [htargets]
        exact hmono
  · have hall' : ¬ ∀ i ∈ (Operand.json tree).registers, (dataIn st'.registers i).isSome :=
      fun hevery => hall fun i hi => (hdata i).symm.trans (hevery i hi)
    have hnone : (Operand.json tree).eval (augmentedMemory L) st = none := if_neg hall
    have hnone' : (Operand.json tree).eval (copyMemory L) st' = none := if_neg hall'
    rw [step_set_eq_impossible _ hnone, step_set_eq_impossible _ hnone']
    exact ⟨rfl, W, h, hheld, hregisters⟩

theorem Copied.step (h : Copied st st') {op : Op π} (hcareful : Careful L st op) :
    (step (augmentedMemory L) st op).2 = (step (copyMemory L) st' op).2 ∧
      Copied (step (augmentedMemory L) st op).1 (step (copyMemory L) st' op).1 := by
  have hcopied := h
  obtain ⟨W, hrelated, hheld, hregisters⟩ := h
  have hobject : ∀ r, objectIn st'.registers r = (objectIn st.registers r).map Handle.node :=
    fun r => by rw [hregisters, objectIn_map]
  cases op with
  | get r key =>
    rw [ObjectMemory.step, ObjectMemory.step, hobject]
    rcases ho : objectIn st.registers r with _ | o
    · exact ⟨rfl, hcopied⟩
    · obtain ⟨hvalue, htargets, hnew, hnext⟩ :=
        hrelated.get L (hheld _ (mem_of_objectIn ho)) (hcareful o ho)
      refine ⟨?_, W, hnext, ?_, ?_⟩
      · show Seen.value _ = Seen.value _
        rw [← hvalue, Value.map_map]
        exact congrArg Seen.value (Value.map_congr fun u hu => (hnext.kind_eq (hu ▸ hnew)).symm)
      · intro u hu
        rcases List.mem_append.mp hu with hu | hu
        · exact (hheld u hu).mono (fun _ => id) htargets
        · rw [List.mem_singleton.mp hu]
          exact hnew
      · show st'.registers ++ [(st'.memory.at o.node).get L key] =
          (st.registers ++ [(st.memory.get L o key).1]).map toCopy
        rw [hregisters, List.map_append, ← hvalue]
        rfl
  | set r key operand =>
    rcases ho : objectIn st.registers r with _ | o
    · have ho' : objectIn st'.registers r = none := by rw [hobject, ho]; rfl
      rw [ObjectMemory.step, ObjectMemory.step, ho, ho']
      exact ⟨rfl, hcopied⟩
    · cases operand with
      | value w => exact copied_set_value hrelated hheld hregisters hcareful ho
      | json tree => exact copied_set_json hrelated hheld hregisters hcareful ho
  | delete r key =>
    rw [ObjectMemory.step, ObjectMemory.step, hobject]
    rcases ho : objectIn st.registers r with _ | o
    · exact ⟨rfl, hcopied⟩
    · obtain ⟨hreturns, htargets, hnext⟩ := hrelated.delete (hheld _ (mem_of_objectIn ho)) key.1
      refine ⟨congrArg (fun b : Bool => if b then Seen.done else .thrown) hreturns.symm, W, ?_, ?_,
        hregisters⟩
      · rw [← htargets] at hnext
        exact hnext
      · show ∀ u ∈ st.registers, Held W (st.memory.delete o key).2.targets u
        rw [htargets]
        exact hheld
  | has r key =>
    rw [ObjectMemory.step, ObjectMemory.step, hobject]
    rcases ho : objectIn st.registers r with _ | o
    · exact ⟨rfl, hcopied⟩
    · exact ⟨congrArg Seen.bool
        (hrelated.has_eq (hheld _ (mem_of_objectIn ho)) (hcareful o ho)).symm, hcopied⟩
  | keys r =>
    rw [ObjectMemory.step, ObjectMemory.step, hobject]
    rcases ho : objectIn st.registers r with _ | o
    · exact ⟨rfl, hcopied⟩
    · exact ⟨congrArg Seen.keys (hrelated.keys_eq (hheld _ (mem_of_objectIn ho))).symm, hcopied⟩

end

/-- A value through which an object may be changed that was not there first. -/
def Later (n : ℕ) (v : Value π Handle) : Prop := ∀ i, v = .ref (.raw i) → n ≤ i

/-- What the view of an object hands out as it is was not there first. -/
def Proxy.IsLater (n : ℕ) : Proxy π → Prop
  | .object _ newData _ => ∀ s ∈ newData, Later n s.2
  | .array _ _ => True

/-- The data is as it was, and no object in it is handed out as it is. -/
structure Untouched (data : Heap π Handle) (m : Augmented π) : Prop where
  isPrefix : data <+: m.heap
  later : ∀ i, data.length ≤ i → (m.heap.at i).All (Later data.length)
  proxies : ∀ p ∈ m.proxies, p.IsLater data.length

variable {data : Heap π Handle}

theorem later_of_no_raw {n : ℕ} (h : ∀ i, v ≠ .ref (.raw i)) : Later n v :=
  fun i hi => absurd hi (h i)

theorem augment_not_raw (m : Augmented π) (v : Value π Handle) (i : ℕ) :
    (m.augment v).1 ≠ .ref (.raw i) := by
  rcases v with _ | _ | _ | (_ | _)
  · exact nofun
  · exact nofun
  · exact nofun
  · exact nofun
  · exact nofun

theorem isLater_create (n k : ℕ) (kind : Kind) : (Proxy.create k kind : Proxy π).IsLater n := by
  cases kind with
  | object => exact nofun
  | array => trivial

namespace Untouched

theorem augment (h : Untouched data m) (v : Value π Handle) : Untouched data (m.augment v).2 := by
  rcases v with _ | _ | _ | (i | _)
  · exact h
  · exact h
  · exact h
  · refine ⟨h.isPrefix, h.later, fun p hp => ?_⟩
    rcases List.mem_append.mp hp with hp | hp
    · exact h.proxies p hp
    · rw [List.mem_singleton.mp hp]
      exact isLater_create _ _ _
  · exact h

theorem setProxy (h : Untouched data m) (j : ℕ) {p : Proxy π} (hp : p.IsLater data.length) :
    Untouched data { m with proxies := m.proxies.set j p } := by
  refine ⟨h.isPrefix, h.later, fun q hq => ?_⟩
  rcases List.mem_or_eq_of_mem_set hq with hq | rfl
  · exact h.proxies q hq
  · exact hp

theorem change (h : Untouched data m) {i : ℕ} (hi : data.length ≤ i)
    {node? : Option (Node (Value π Handle))}
    (hnode : ∀ node ∈ node?, node.All (Later data.length)) : Untouched data { m with heap := (m.heap.change i node?).2 } := by
  rcases node? with _ | node
  · exact h
  · obtain ⟨rest, hrest⟩ := h.isPrefix
    refine ⟨⟨rest.set (i - data.length) node, ?_⟩, fun k hk => ?_, h.proxies⟩
    · show _ = m.heap.set i node
      rw [← hrest, List.set_append_right _ _ hi]
    · show (Heap.at (m.heap.set i node) k).All _
      by_cases hlt : i < m.heap.length
      · rw [Heap.at_set hlt]
        split
        · exact hnode node rfl
        · exact h.later k hk
      · rw [List.set_eq_of_length_le (Nat.not_lt.mp hlt)]
        exact h.later k hk

variable {o : Handle}

theorem get [DecidableEq π] (L : Lengths π) (h : Untouched data m)
    (ho : Later data.length (.ref o : Value π Handle)) (key : String) :
    Untouched data (m.get L o key).2 ∧ Later data.length (m.get L o key).1 := by
  cases o with
  | raw i =>
    refine ⟨h, fun k hk => ?_⟩
    exact h.later i (ho i rfl) _ (Fields.mem_of_get (get_of_get_eq_ref hk)) k rfl
  | proxy j i =>
    rw [Augmented.get]
    rcases hp : m.proxies[j]? with _ | p
    · exact ⟨h, later_of_no_raw fun _ h => by cases h⟩
    · have hlater := h.proxies p (List.mem_of_getElem? hp)
      dsimp only
      rcases hlookup : p.lookup L (m.heap.at p.target) key with v | v
      · refine ⟨h, fun k hk => ?_⟩
        cases p with
        | object target newData deletedProperties =>
          rw [Proxy.lookup] at hlookup
          split at hlookup
          · cases hlookup
            cases hk
          split at hlookup
          · cases hlookup
            cases hk
          · rcases hnew : Fields.get newData key with _ | w
            · rw [hnew] at hlookup
              cases hlookup
            · rw [hnew] at hlookup
              cases hlookup
              exact hlater _ (Fields.mem_of_get hnew) k hk
        | array target newData =>
          rw [Proxy.lookup] at hlookup
          split at hlookup
          · cases hlookup
            cases hk
          · cases hlookup
      · have hraw := augment_not_raw m v
        dsimp only
        split
        · refine ⟨(h.augment v).setProxy j ?_, later_of_no_raw hraw⟩
          cases p with
          | object target newData deletedProperties =>
            exact all_put hlater key (later_of_no_raw hraw)
          | array target newData => trivial
        · next heq =>
          rw [not_not] at heq
          exact ⟨h, later_of_no_raw fun k hk => hraw k (heq.trans hk)⟩

theorem set (L : Lengths π) (h : Untouched data m)
    (ho : Later data.length (.ref o : Value π Handle)) (key : String)
    (hv : Later data.length v) : Untouched data (m.set L o key v).2 := by
  cases o with
  | raw i =>
    exact h.change (ho i rfl) fun node hnode => (h.later i (ho i rfl)).set hv hnode
  | proxy j i =>
    rw [Augmented.set]
    rcases hp : m.proxies[j]? with _ | p
    · exact h
    · have hlater := h.proxies p (List.mem_of_getElem? hp)
      dsimp only
      cases p with
      | object target newData deletedProperties =>
        rw [if_neg fun h => by cases h]
        refine h.setProxy j ?_
        cases v with
        | undefined => exact all_erase hlater key
        | prim p => exact all_put hlater key hv
        | builtin kind name => exact all_put hlater key hv
        | ref r => exact all_put hlater key hv
      | array target newData =>
        have haugment : (if (Proxy.array target newData).kind = .array then m.augment v else (v, m))
            = m.augment v := if_pos rfl
        rw [haugment]
        refine (h.augment v).setProxy j ?_
        rw [Proxy.set]
        split
        · trivial
        · trivial

theorem delete (h : Untouched data m)
    (ho : Later data.length (.ref o : Value π Handle)) (key : String) :
    Untouched data (m.delete o key).2 := by
  cases o with
  | raw i => exact h.change (ho i rfl) fun node hnode => (h.later i (ho i rfl)).delete hnode
  | proxy j i =>
    rw [Augmented.delete]
    rcases hp : m.proxies[j]? with _ | p
    · exact h
    · have hlater := h.proxies p (List.mem_of_getElem? hp)
      refine h.setProxy j ?_
      cases p with
      | object target newData deletedProperties => exact all_erase hlater key
      | array target newData =>
        rw [Proxy.delete]
        split
        · trivial
        · trivial

theorem allocate (h : Untouched data m) {nodes : List (Node (Value π Handle))}
    (hnodes : ∀ node ∈ nodes, node.All (Later data.length)) :
    Untouched data { m with heap := m.heap ++ nodes } := by
  refine ⟨h.isPrefix.trans (List.prefix_append _ _), fun i hi => ?_, h.proxies⟩
  by_cases hlt : i < m.heap.length
  · rw [Heap.at_append_left hlt]
    exact h.later i hi
  · rw [Heap.at_append_right (Nat.not_lt.mp hlt)]
    by_cases hlt' : i - m.heap.length < nodes.length
    · rw [Heap.at_of_lt hlt']
      exact hnodes _ (List.getElem_mem hlt')
    · rw [Heap.at_of_ge (Nat.not_lt.mp hlt')]
      exact nofun

theorem eval [DecidableEq π] (L : Lengths π)
    (h : Untouched data st.memory) (hregisters : ∀ v ∈ st.registers, Later data.length v)
    {operand : Operand π} (heval : operand.eval (augmentedMemory L) st = some (v, m)) :
    Untouched data m ∧ Later data.length v := by
  have hdata : ∀ {r : ℕ} {w : Value π Handle}, dataIn st.registers r = some w →
      Later data.length w := fun hw =>
    hregisters _ (List.mem_of_getElem? (getElem?_of_dataIn hw))
  cases operand with
  | value w =>
    cases w with
    | undefined =>
      cases heval
      exact ⟨h, later_of_no_raw nofun⟩
    | prim p =>
      cases heval
      exact ⟨h, later_of_no_raw nofun⟩
    | builtin kind name => cases heval
    | ref r =>
      obtain ⟨w, hw, heq⟩ := Option.map_eq_some_iff.mp heval
      cases heq
      exact ⟨h, hdata hw⟩
  | json tree =>
    have hlength : data.length ≤ st.memory.heap.length := h.isPrefix.length_le
    rw [Operand.eval] at heval
    split at heval
    · cases heval
      refine ⟨h.allocate fun node hnode => ?_, fun i hi => ?_⟩
      · obtain ⟨a, ha, rfl⟩ := mem_plant hnode
        intro s hs
        obtain ⟨⟨key, item⟩, hitem, rfl⟩ := List.mem_map.mp hs
        cases item with
        | prim p => exact later_of_no_raw nofun
        | node k =>
          intro i hi
          cases hi
          exact Nat.le_trans hlength (Nat.le_add_right _ _)
        | held r =>
          intro i hi
          rcases hw : dataIn st.registers r with _ | w
          · have hnone : (dataIn st.registers r).getD .undefined = .ref (.raw i) := hi
            rw [hw] at hnone
            cases hnone
          · have hsome : (dataIn st.registers r).getD .undefined = .ref (.raw i) := hi
            rw [hw] at hsome
            exact hdata hw i hsome
      · cases hi
        exact hlength
    · cases heval

theorem step [DecidableEq π] (L : Lengths π) (op : Op π)
    (h : Untouched data st.memory ∧ ∀ v ∈ st.registers, Later data.length v) :
    Untouched data (ObjectMemory.step (augmentedMemory L) st op).1.memory ∧
      ∀ v ∈ (ObjectMemory.step (augmentedMemory L) st op).1.registers, Later data.length v := by
  obtain ⟨hmemory, hregisters⟩ := h
  have hobject : ∀ {r : ℕ} {o : Handle}, objectIn st.registers r = some o →
      Later data.length (.ref o : Value π Handle) := fun ho => hregisters _ (mem_of_objectIn ho)
  cases op with
  | get r key =>
    rw [ObjectMemory.step]
    rcases ho : objectIn st.registers r with _ | o
    · exact ⟨hmemory, hregisters⟩
    · obtain ⟨hnext, hvalue⟩ := hmemory.get L (hobject ho) key
      refine ⟨hnext, fun v hv => ?_⟩
      rcases List.mem_append.mp hv with hv | hv
      · exact hregisters v hv
      · rw [List.mem_singleton.mp hv]
        exact hvalue
  | set r key operand =>
    rcases ho : objectIn st.registers r with _ | o
    · rw [ObjectMemory.step, ho]
      exact ⟨hmemory, hregisters⟩
    · rcases hv : operand.eval (augmentedMemory L) st with _ | ⟨v, m⟩
      · rw [step_set_eq_impossible _ hv]
        exact ⟨hmemory, hregisters⟩
      · obtain ⟨hnext, hvalue⟩ := hmemory.eval L hregisters hv
        rw [step_set_eq _ ho hv]
        exact ⟨hnext.set L (hobject ho) key hvalue, hregisters⟩
  | delete r key =>
    rw [ObjectMemory.step]
    rcases ho : objectIn st.registers r with _ | o
    · exact ⟨hmemory, hregisters⟩
    · exact ⟨hmemory.delete (hobject ho) key, hregisters⟩
  | has r key =>
    rw [ObjectMemory.step]
    rcases objectIn st.registers r with _ | o
    · exact ⟨hmemory, hregisters⟩
    · exact ⟨hmemory, hregisters⟩
  | keys r =>
    rw [ObjectMemory.step]
    rcases objectIn st.registers r with _ | o
    · exact ⟨hmemory, hregisters⟩
    · exact ⟨hmemory, hregisters⟩

end Untouched

theorem untouched_start (tree : Json π Empty) :
    Untouched (originals tree) (augmentRoot tree).memory ∧
      ∀ v ∈ (augmentRoot tree).registers, Later (originals tree).length v := by
  have hstart : Untouched (originals tree) (⟨originals tree, []⟩ : Augmented π) :=
    ⟨List.prefix_rfl, fun i hi => by rw [Heap.at_of_ge hi]; exact nofun, nofun⟩
  refine ⟨hstart.augment (.ref (.raw 0)), fun v hv => ?_⟩
  rw [List.mem_singleton.mp hv]
  exact later_of_no_raw nofun

variable [DecidableEq π]

/-- The data is as it was, and the view showed what a copy shows. -/
def IsCopyOnWrite (L : Lengths π) (tree : Json π Empty) (ops : List (Op π)) : Prop :=
  originals tree <+: (run (augmentedMemory L) (augmentRoot tree) ops).memory.heap ∧
    sees (augmentedMemory L) (augmentRoot tree) ops = sees (copyMemory L) (deepCopy tree) ops

theorem run_untouched (L : Lengths π) (tree : Json π Empty) (ops : List (Op π)) :
    originals tree <+: (run (augmentedMemory L) (augmentRoot tree) ops).memory.heap :=
  (run_invariant (I := fun st => Untouched (originals tree) st.memory ∧
      ∀ v ∈ st.registers, Later (originals tree).length v)
    (fun _ op h => Untouched.step L op h) (untouched_start tree) ops).1.isPrefix

theorem get_constructor (L : Lengths π) {r : ℕ} {o : Handle}
    {p : Proxy π} (ho : objectIn st.registers r = some o) (hp : p ∈ st.memory.proxy? o) :
    (step (augmentedMemory L) st (.get r ⟨"constructor", by decide⟩)).2
      = .value (.builtin p.kind "constructor") := by
  rcases o with i | ⟨j, i⟩
  · cases hp
  have hlookup : p.lookup L (st.memory.heap.at p.target) "constructor"
      = .found (.builtin p.kind "constructor") := by
    cases p <;> rfl
  have hget : st.memory.get L (.proxy j i) "constructor"
      = (.builtin p.kind "constructor", st.memory) := by
    rw [Augmented.get, show st.memory.proxies[j]? = some p from hp]
    dsimp only
    rw [hlookup]
  rw [step, ho]
  show Seen.value ((st.memory.get L (.proxy j i) "constructor").1.map _) = _
  rw [hget]
  rfl

/-- The data stays as it is in every program, in a program all of whose operations are careful the
view shows what a copy shows, and under `constructor` a view shows the constructor of its kind. -/
theorem augment_refines (L : Lengths π) (tree : Json π Empty) (ops : List (Op π)) :
    originals tree <+: (run (augmentedMemory L) (augmentRoot tree) ops).memory.heap ∧
    (Allowed (augmentedMemory L) (Careful L) (augmentRoot tree) ops → IsCopyOnWrite L tree ops) ∧
    ∀ (r : ℕ) (o : Handle) (p : Proxy π),
      objectIn (run (augmentedMemory L) (augmentRoot tree) ops).registers r = some o →
      p ∈ (run (augmentedMemory L) (augmentRoot tree) ops).memory.proxy? o →
      (step (augmentedMemory L) (run (augmentedMemory L) (augmentRoot tree) ops)
        (.get r ⟨"constructor", by decide⟩)).2 = .value (.builtin p.kind "constructor") := by
  have huntouched := run_untouched L tree ops
  refine ⟨huntouched, fun hcareful => ⟨huntouched, ?_⟩, fun r o p ho hp => get_constructor L ho hp⟩
  exact sees_eq_of_simulation (R := Copied) (fun st st' op h hop => h.step hop)
    (copied_start tree) hcareful

def primitives (slots : List (String × π)) (h : (Fields.keys slots).Nodup) : Json π ρ where
  nodes := [⟨none, Fields.mapValues .prim slots⟩]
  ne_nil := List.cons_ne_nil _ _
  nodup := by
    intro node hnode
    rw [List.mem_singleton.mp hnode, Node.keys, Fields.keys_mapValues]
    exact h
  dense := by
    intro node hnode n hn
    rw [List.mem_singleton.mp hnode] at hn
    cases hn
  closed := by
    intro node hnode key k hget
    rw [List.mem_singleton.mp hnode, Fields.get_mapValues] at hget
    obtain ⟨p, -, hp⟩ := Option.map_eq_some_iff.mp hget
    cases hp
  once := by
    intro i j a b key key' k ha _ hget
    rw [List.mem_singleton.mp (List.mem_of_getElem? ha), Fields.get_mapValues] at hget
    obtain ⟨p, -, hp⟩ := Option.map_eq_some_iff.mp hget
    cases hp

instance decidableCareful (L : Lengths π) (st : State π Handle (Augmented π)) :
    ∀ op, Decidable (Careful L st op)
  | .get r key => inferInstanceAs (Decidable (∀ o ∈ objectIn st.registers r,
      ∀ p ∈ st.memory.proxy? o, if key.1 = "constructor"
        then ¬ p.Shows (st.memory.heap.at p.target) key else ¬ p.Hides key))
  | .set r key operand => inferInstanceAs (Decidable (∀ o ∈ objectIn st.registers r,
      ∀ e ∈ operand.eval (augmentedMemory L) st,
        (st.memory.proxy? o = none → st.memory.kind o = .object → e.1 ≠ .undefined) ∧
        ∀ p ∈ st.memory.proxy? o,
          (e.1 = .undefined ∨ p.Shows (st.memory.heap.at p.target) key ∨
            p.InPlace (st.memory.heap.at p.target) key) ∧
          (p.kind = .array → ∀ i ∈ operand.registers, ∀ v ∈ st.registers[i]?, isRaw v = false)))
  | .delete _ _ => isTrue trivial
  | .has r key => inferInstanceAs (Decidable (∀ o ∈ objectIn st.registers r,
      ∀ p ∈ st.memory.proxy? o, ¬ p.Hides key))
  | .keys _ => isTrue trivial

instance decidableAllowed (L : Lengths π) : ∀ (st : State π Handle (Augmented π))
    (ops : List (Op π)), Decidable (Allowed (augmentedMemory L) (Careful L) st ops)
  | _, [] => isTrue trivial
  | st, op :: ops =>
    have := decidableAllowed L (step (augmentedMemory L) st op).1 ops
    inferInstanceAs (Decidable (_ ∧ _))

/-- A view that is changed, read and listed. -/
theorem augment_refines_changed : IsCopyOnWrite (⟨id, some⟩ : Lengths ℕ)
    (primitives [("a", 1), ("b", 2)] (by decide))
    [.set 0 ⟨"a", by decide⟩ (.value (.prim 3)), .get 0 ⟨"a", by decide⟩,
      .set 0 ⟨"c", by decide⟩ (.json (primitives [("d", 4)] (by decide))),
      .delete 0 ⟨"b", by decide⟩, .keys 0, .get 0 ⟨"c", by decide⟩, .has 2 ⟨"d", by decide⟩] :=
  (augment_refines _ _ _).2.1 (by decide)

/-- A view is no copy where an own property is called `constructor`, where a name is deleted that
every object has, where a property is deleted and made again before another one, and where a
property of an assigned object is set to `undefined`. -/
theorem not_isCopyOnWrite :
    ¬ IsCopyOnWrite (⟨id, some⟩ : Lengths ℕ) (primitives [("constructor", 1)] (by decide))
      [.get 0 ⟨"constructor", by decide⟩] ∧
    ¬ IsCopyOnWrite (⟨id, some⟩ : Lengths ℕ) (primitives [("toString", 1)] (by decide))
      [.delete 0 ⟨"toString", by decide⟩, .has 0 ⟨"toString", by decide⟩] ∧
    ¬ IsCopyOnWrite (⟨id, some⟩ : Lengths ℕ) (primitives [("a", 1), ("b", 2)] (by decide))
      [.delete 0 ⟨"a", by decide⟩, .set 0 ⟨"a", by decide⟩ (.value (.prim 3)), .keys 0] ∧
    ¬ IsCopyOnWrite (⟨id, some⟩ : Lengths ℕ) (primitives [] (by decide))
      [.set 0 ⟨"a", by decide⟩ (.json (primitives [] (by decide))), .get 0 ⟨"a", by decide⟩,
        .set 1 ⟨"b", by decide⟩ (.value .undefined), .has 1 ⟨"b", by decide⟩] := by
  refine ⟨fun h => absurd h.2 (by decide), fun h => absurd h.2 (by decide),
    fun h => absurd h.2 (by decide), fun h => absurd h.2 (by decide)⟩

end N8n.AugmentObject
