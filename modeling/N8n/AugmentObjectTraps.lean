/-
What a program does through a view it does to the copy.

The view of a node and the node of the copy are the same object, so that the traps, which change
the view as the language changes an object, keep the two related.

* `Related.get`, `Related.set`, `Related.delete` — one operation on an object in a register;
* `Related.get_toAugment` — the first time that a view hands out a node, and makes a proxy for it.
-/
import N8n.AugmentObjectSteps

namespace N8n.AugmentObject

open ObjectMemory

variable {π : Type} {W : ℕ → Prop} {T : List ℕ} {n : ℕ} {v : Value π Handle} {m : Augmented π}
  {heap : Heap π ℕ} {data : Node (Value π Handle)}

variable {key : String} {newData : Option (Node (Value π Handle))}

theorem held_array_slot {target : ℕ}
    (h : (Proxy.array target newData).HasHeld W T data) (hdata : data.All (Pending W T n))
    (hget : Fields.get ((Proxy.array target newData).view data).slots key = some v) :
    (∀ i, v = .ref (.raw i) → Fields.get data.slots key = some v) ∧
      ∀ j i, v = .ref (.proxy j i) → T[j]? = some i := by
  rcases newData with _ | copy
  · exact ⟨fun _ _ => hget, (hdata _ (Fields.mem_of_get hget)).2⟩
  · exact h copy rfl key v hget

variable (L : Lengths π) {p : Proxy π}

theorem held_found (h : p.HasHeld W T data)
    (hlookup : p.lookup L data key = .found v) : Held W T v := by
  cases p with
  | object target newData deletedProperties =>
    rw [Proxy.lookup] at hlookup
    split at hlookup
    · cases hlookup
      exact held_of_no_ref fun _ h => by cases h
    split at hlookup
    · cases hlookup
      exact held_of_no_ref fun _ h => by cases h
    · rcases hnew : Fields.get newData key with _ | w
      · rw [hnew] at hlookup
        cases hlookup
      · rw [hnew] at hlookup
        cases hlookup
        exact h _ (Fields.mem_of_get hnew)
  | array target newData =>
    rw [Proxy.lookup] at hlookup
    split at hlookup
    · cases hlookup
      exact held_of_no_ref fun _ h => by cases h
    · cases hlookup

theorem held_toAugment (h : p.HasHeld W T data)
    (hdata : data.All (Pending W T n))
    (hlookup : p.lookup L data key = .toAugment v) :
    (∀ i, v = .ref (.raw i) → Fields.get data.slots key = some v) ∧
      ∀ j i, v = .ref (.proxy j i) → T[j]? = some i := by
  cases p with
  | object target newData deletedProperties =>
    rw [Proxy.lookup] at hlookup
    split at hlookup
    · cases hlookup
    split at hlookup
    · cases hlookup
    · rcases hnew : Fields.get newData key with _ | w
      · rw [hnew] at hlookup
        cases hlookup
        refine ⟨fun i hi => ?_, fun j i hi => ?_⟩
        · rw [hi]
          exact get_of_get_eq_ref hi
        · exact (hdata _ (Fields.mem_of_get (get_of_get_eq_ref hi))).2 j i rfl
      · rw [hnew] at hlookup
        cases hlookup
  | array target newData =>
    rw [Proxy.lookup] at hlookup
    split at hlookup
    · cases hlookup
    · cases hlookup
      refine ⟨fun i hi => ?_, fun j i hi => ?_⟩
      · have hslot := get_of_get_eq_ref hi
        rw [hi]
        exact (held_array_slot h hdata hslot).1 i rfl
      · exact (held_array_slot h hdata (get_of_get_eq_ref hi)).2 j i rfl

theorem not_passed_of_toAugment {k : ℕ}
    (hlookup : p.lookup L data key = .toAugment (.ref (.raw k))) : ¬ p.Passed key k := by
  cases p with
  | object target newData deletedProperties =>
    rw [Proxy.lookup] at hlookup
    split at hlookup
    · cases hlookup
    split at hlookup
    · cases hlookup
    next hdeleted =>
      rcases hnew : Fields.get newData key with _ | w
      · exact fun hor => hor.elim (Fields.get_eq_none.mp hnew) hdeleted
      · rw [hnew] at hlookup
        cases hlookup
  | array target newData =>
    rw [Proxy.lookup] at hlookup
    split at hlookup
    · cases hlookup
    · rintro ⟨copy, hcopy, hne⟩
      cases hcopy
      exact hne (get_of_get_eq_ref (Lookup.toAugment.inj hlookup))

theorem held_array {target : ℕ}
    (h : (Proxy.array target newData).HasHeld W T data) (hdata : data.All (Pending W T n))
    {node : Node (Value π Handle)}
    (hnode : ∀ (key : String) (w : Value π Handle), Fields.get node.slots key = some w →
      Fields.get ((Proxy.array target newData).view data).slots key = some w ∨
        (isRaw w = false ∧ Held W T w)) :
    (Proxy.array target (some node)).HasHeld W T data ∧ ∀ (key : String) (k : ℕ),
      (Proxy.array target newData).Passed key k →
        (Proxy.array target (some node)).Passed key k := by
  constructor
  · intro copy hcopy key w hget
    cases hcopy
    rcases hnode key w hget with hget | ⟨hraw, hheld⟩
    · exact held_array_slot h hdata hget
    · refine ⟨fun i hi => ?_, hheld.2⟩
      rw [hi] at hraw
      cases hraw
  · rintro key k ⟨copy, hcopy, hne⟩
    cases hcopy
    refine ⟨node, rfl, fun hget => ?_⟩
    rcases hnode key _ hget with hget | ⟨hraw, -⟩
    · exact hne hget
    · cases hraw

theorem held_set (key : String) (hfits : p.Fits data)
    (h : p.HasHeld W T data) (hdata : data.All (Pending W T n)) (hv : Held W T v)
    (harray : p.kind = .array → isRaw v = false) :
    (p.set L data key v).2.HasHeld W T data ∧ ∀ (key' : String) (k : ℕ),
      Fields.get data.slots key' = some (.ref (.raw k)) →
      p.Passed key' k → (p.set L data key v).2.Passed key' k := by
  cases p with
  | object target newData deletedProperties =>
    have hput : (Proxy.object target (Fields.put newData key v)
          (deletedProperties.filter fun name => name ≠ key)).HasHeld W T data ∧
        ∀ (key' : String) (k : ℕ), (Proxy.object target newData deletedProperties).Passed key' k →
          (Proxy.object target (Fields.put newData key v)
            (deletedProperties.filter fun name => name ≠ key)).Passed key' k := by
      refine ⟨all_put h key hv, fun key' k hpassed => ?_⟩
      by_cases hkey : key' = key
      · exact .inl (Fields.mem_keys_put.mpr (.inl hkey))
      · refine hpassed.imp (fun hnew => Fields.mem_keys_put.mpr (.inr hnew)) fun hdeleted => ?_
        exact JsSet.mem_filter.mpr ⟨hdeleted, decide_eq_true hkey⟩
    cases v with
    | undefined =>
      refine ⟨all_erase h key, fun key' k hget hpassed => ?_⟩
      show key' ∈ Fields.keys (Fields.erase newData key) ∨ key' ∈ markDeleted _ _ _
      rw [mem_markDeleted, Fields.keys_erase, List.mem_filter]
      by_cases hkey : key' = key
      · refine .inr (.inr ⟨?_, hkey⟩)
        rw [Node.has, hasOwn_of_length_eq_none hfits.1, ← hkey, hget]
        rfl
      · exact hpassed.imp (fun hnew => ⟨hnew, decide_eq_true hkey⟩) .inl
    | prim p => exact ⟨hput.1, fun key' k _ => hput.2 key' k⟩
    | builtin kind name => exact ⟨hput.1, fun key' k _ => hput.2 key' k⟩
    | ref r => exact ⟨hput.1, fun key' k _ => hput.2 key' k⟩
  | array target newData =>
    rw [Proxy.set, getD_spread hfits]
    rcases hnode : ((Proxy.array target newData).view data).set L key v with _ | node
    · obtain ⟨hheld, hpassed⟩ := held_array h hdata fun _ _ hget => .inl hget
      exact ⟨hheld, fun key' k _ => hpassed key' k⟩
    · obtain ⟨hheld, hpassed⟩ := held_array h hdata fun key' w hget => by
        rcases get_of_set hnode hget with ⟨-, rfl⟩ | hget
        · exact .inr ⟨harray rfl, hv⟩
        · exact .inl hget
      exact ⟨hheld, fun key' k _ => hpassed key' k⟩

theorem held_delete (hfits : p.Fits data) (h : p.HasHeld W T data)
    (hdata : data.All (Pending W T n)) (key : String) :
    (p.delete data key).2.HasHeld W T data ∧ ∀ (key' : String) (k : ℕ),
      Fields.get data.slots key' = some (.ref (.raw k)) →
      p.Passed key' k → (p.delete data key).2.Passed key' k := by
  cases p with
  | object target newData deletedProperties =>
    refine ⟨all_erase h key, fun key' k hget hpassed => ?_⟩
    show key' ∈ Fields.keys (Fields.erase newData key) ∨ key' ∈ markDeleted _ _ _
    rw [mem_markDeleted, Fields.keys_erase, List.mem_filter]
    by_cases hkey : key' = key
    · refine .inr (.inr ⟨?_, hkey⟩)
      rw [hasOwn_of_length_eq_none hfits.1, ← hkey, hget]
      rfl
    · exact hpassed.imp (fun hnew => ⟨hnew, decide_eq_true hkey⟩) .inl
  | array target newData =>
    rw [Proxy.delete, getD_spread hfits]
    rcases hnode : ((Proxy.array target newData).view data).delete key with _ | node
    · obtain ⟨hheld, hpassed⟩ := held_array h hdata fun _ _ hget => .inl hget
      exact ⟨hheld, fun key' k _ => hpassed key' k⟩
    · obtain ⟨hheld, hpassed⟩ := held_array h hdata fun key' w hget =>
        .inl (get_of_delete hnode hget)
      exact ⟨hheld, fun key' k _ => hpassed key' k⟩

theorem held_store (hfits : p.Fits data) (h : p.HasHeld W T data)
    (hdata : data.All (Pending W T n)) {r : Handle}
    (hlookup : p.lookup L data key = .toAugment (.ref r)) (hv : Held W T v)
    (hraw : isRaw v = false) :
    (p.store L data key v).HasHeld W T data ∧
      (∀ (key' : String) (k : ℕ), p.Passed key' k → (p.store L data key v).Passed key' k) ∧
      ∀ k, (p.store L data key v).Passed key k := by
  cases p with
  | object target newData deletedProperties =>
    exact ⟨all_put h key hv,
      fun key' k hpassed => hpassed.imp (fun hnew => Fields.mem_keys_put.mpr (.inr hnew)) id,
      fun k => .inl (Fields.mem_keys_put.mpr (.inl rfl))⟩
  | array target newData =>
    have harray := isArray_view hfits
    rw [Proxy.lookup] at hlookup
    split at hlookup
    · cases hlookup
    · have hget : Fields.get ((Proxy.array target newData).view data).slots key = some (.ref r) :=
        get_of_get_eq_ref (Lookup.toAugment.inj hlookup)
      obtain ⟨node, hnode, hslot⟩ := harray.exists_set (L := L) hget v
      obtain ⟨hheld, hpassed⟩ := held_array h hdata fun key' w hget => by
        rcases get_of_set hnode hget with ⟨-, rfl⟩ | hget
        · exact .inr ⟨hraw, hv⟩
        · exact .inl hget
      rw [Proxy.store, getD_spread hfits, hnode]
      refine ⟨hheld, hpassed, fun k => ⟨node, rfl, fun hget => ?_⟩⟩
      rw [Option.some.inj (hslot.symm.trans hget)] at hraw
      cases hraw

namespace Related

theorem at_raw (h : Related W T m heap) {i : ℕ} (hi : W i) :
    heap.at i = (m.heap.at i).map toCopy :=
  h.bare i fun hmem => (h.given_of_mem i (h.isPrefix.subset hmem)).1 hi

theorem exists_proxy {j i : ℕ} (ho : Held W m.targets (.ref (.proxy j i) : Value π Handle)) :
    ∃ p, m.proxies[j]? = some p ∧ p.target = i := by
  have hj := ho.2 j i rfl
  rw [Augmented.targets, List.getElem?_map] at hj
  exact Option.map_eq_some_iff.mp hj

section

variable (h : Related W m.targets m heap) {o : Handle}
  (ho : Held W m.targets (.ref o : Value π Handle))
include h ho

theorem kind_eq :
    (heap.at o.node).kind = m.kind o := by
  cases o with
  | raw i =>
    rw [Handle.node, h.at_raw (ho.1 i rfl), Node.kind_map]
    rfl
  | proxy j i =>
    obtain ⟨p, hp, rfl⟩ := exists_proxy ho
    obtain ⟨hfits, -, hview⟩ := h.viewed j p hp
    rw [Handle.node, hview, Node.kind_map, kind_view hfits, Augmented.kind, hp]

theorem has_eq
    (hkey : ∀ p ∈ m.proxy? o, ¬ p.Hides key) : (heap.at o.node).has key = m.has o key := by
  cases o with
  | raw i =>
    rw [Handle.node, h.at_raw (ho.1 i rfl), Node.has_map]
    rfl
  | proxy j i =>
    obtain ⟨p, hp, rfl⟩ := exists_proxy ho
    obtain ⟨hfits, -, hview⟩ := h.viewed j p hp
    rw [Handle.node, hview, Node.has_map, ← has_view hfits (hkey p hp), Augmented.has, hp]

theorem keys_eq : (heap.at o.node).keys = m.keys o := by
  cases o with
  | raw i =>
    rw [Handle.node, h.at_raw (ho.1 i rfl), Node.keys_map]
    rfl
  | proxy j i =>
    obtain ⟨p, hp, rfl⟩ := exists_proxy ho
    obtain ⟨hfits, -, hview⟩ := h.viewed j p hp
    rw [Handle.node, hview, Node.keys_map, ← keys_eq_view hfits, Augmented.keys, hp]

end

variable {j : ℕ}

theorem lt_of_getElem? (hp : m.proxies[j]? = some p) :
    j < m.proxies.length := (List.getElem?_eq_some_iff.mp hp).1

theorem get_toAugment (L : Lengths π) (h : Related W m.targets m heap)
    (hp : m.proxies[j]? = some p) {k : ℕ}
    (hlookup : p.lookup L (m.heap.at p.target) key = .toAugment (.ref (.raw k))) :
    Augmented.targets ⟨m.heap, (m.proxies ++ [Proxy.create k (m.heap.at k).kind]).set j
        (p.store L (m.heap.at p.target) key (.ref (.proxy m.proxies.length k)))⟩
      = m.targets ++ [k] ∧
    Related W (m.targets ++ [k])
      ⟨m.heap, (m.proxies ++ [Proxy.create k (m.heap.at k).kind]).set j
        (p.store L (m.heap.at p.target) key (.ref (.proxy m.proxies.length k)))⟩ heap := by
  obtain ⟨hfits, hheld, hview⟩ := h.viewed j p hp
  obtain ⟨hW, -⟩ := h.given_of_mem _ (target_mem hp)
  have hpending := (h.given p.target hW).2.2
  have hslot := (held_toAugment L hheld hpending hlookup).1 k rfl
  obtain ⟨hWk, hlt⟩ := (hpending _ (Fields.mem_of_get hslot)).1 k rfl
  have hfresh : k ∉ m.targets := fun hk => by
    obtain ⟨j', p', hp', htarget, hpassed⟩ := h.taken p.target key k hW hslot hk
    obtain ⟨-, rfl⟩ := h.proxy_eq hp hp' htarget.symm
    exact not_passed_of_toAugment L hlookup hpassed
  have hannounced := h.announce hfresh hWk hlt
  have hlast : (m.targets ++ [k])[m.proxies.length]? = some k := by
    rw [List.getElem?_append_right (by rw [Augmented.targets, List.length_map]), Augmented.targets,
      List.length_map, Nat.sub_self]
    rfl
  have hnew : Held W (m.targets ++ [k]) (.ref (.proxy m.proxies.length k) : Value π Handle) :=
    ⟨fun _ h => (by cases h), fun j' i' heq => by
      cases heq
      exact hlast⟩
  obtain ⟨htarget, -, hfits', hview'⟩ := store_view L Handle.node hfits hlookup
    (v := .ref (.proxy m.proxies.length k)) rfl
  obtain ⟨hheld', hpassed', hpassednew⟩ := held_store L hfits (hannounced.viewed j p hp).2.1
    (hannounced.given p.target hW).2.2 hlookup hnew rfl
  have hupdated := hannounced.update hp htarget hfits' hheld' fun key' k' _ => hpassed' key' k'
  rw [hview', ← hview, Heap.set_at] at hupdated
  have htargets : Augmented.targets ⟨m.heap, m.proxies.set j
      (p.store L (m.heap.at p.target) key (.ref (.proxy m.proxies.length k)))⟩ = m.targets :=
    targets_set hp htarget
  rw [← htargets] at hupdated
  have hadopted := hupdated.adopt fun i' key' hWi hget => by
    obtain ⟨rfl, rfl⟩ := h.once i' p.target key' key k hWi hW hget hslot
    refine ⟨j, _, ?_, htarget, hpassednew k⟩
    rw [List.getElem?_set, if_pos rfl, if_pos (lt_of_getElem? hp)]
  rw [htargets] at hadopted
  rw [List.set_append_left _ _ (lt_of_getElem? hp)]
  refine ⟨?_, hadopted⟩
  rw [Augmented.targets, List.map_append, ← htargets, Augmented.targets]
  cases (m.heap.at k).kind <;> rfl

variable {o : Handle}

theorem get [DecidableEq π] (L : Lengths π) (h : Related W m.targets m heap)
    (ho : Held W m.targets (.ref o : Value π Handle))
    (hkey : ∀ p ∈ m.proxy? o, if key = "constructor" then ¬ p.Shows (m.heap.at p.target) key
      else ¬ p.Hides key) :
    toCopy (m.get L o key).1 = (heap.at o.node).get L key ∧
      m.targets <+: (m.get L o key).2.targets ∧
      Held W (m.get L o key).2.targets (m.get L o key).1 ∧
      Related W (m.get L o key).2.targets (m.get L o key).2 heap := by
  cases o with
  | raw i =>
    have hi := ho.1 i rfl
    rw [Handle.node, h.at_raw hi, Node.get_map]
    exact ⟨rfl, List.prefix_rfl, held_get (h.assigned i hi).2, h⟩
  | proxy j i =>
    obtain ⟨p, hp, rfl⟩ := exists_proxy ho
    obtain ⟨hfits, hheld, hview⟩ := h.viewed j p hp
    obtain ⟨hW, -⟩ := h.given_of_mem _ (target_mem hp)
    have hvalue := lookup_view L hfits (hkey p hp)
    rw [Handle.node, hview, Node.get_map, ← hvalue, Augmented.get, hp]
    dsimp only
    rcases hlookup : p.lookup L (m.heap.at p.target) key with v | v
    · exact ⟨rfl, List.prefix_rfl, held_found L hheld hlookup, h⟩
    · have hslot := held_toAugment L hheld (h.given p.target hW).2.2 hlookup
      dsimp only [Lookup.value]
      have hsame : (∀ k, v ≠ .ref (.raw k)) → m.augment v = (v, m) := fun hraw => by
        rcases v with _ | _ | _ | (k | _)
        · rfl
        · rfl
        · rfl
        · exact absurd rfl (hraw k)
        · rfl
      by_cases hraw : ∃ k, v = .ref (.raw k)
      · obtain ⟨k, rfl⟩ := hraw
        obtain ⟨htargets, hrelated⟩ := h.get_toAugment L hp hlookup
        rw [Augmented.augment, if_pos nofun]
        dsimp only
        rw [htargets]
        refine ⟨rfl, List.prefix_append _ _, ⟨nofun, fun j' i' heq => ?_⟩, hrelated⟩
        cases heq
        rw [List.getElem?_append_right (by rw [Augmented.targets, List.length_map]),
          Augmented.targets, List.length_map, Nat.sub_self]
        rfl
      · rw [hsame fun k heq => hraw ⟨k, heq⟩]
        dsimp only
        rw [if_neg (not_not.mpr rfl)]
        exact ⟨rfl, List.prefix_rfl, ⟨fun k heq => absurd ⟨k, heq⟩ hraw, hslot.2⟩, h⟩

theorem follows (h : Related W m.targets m heap)
    (hp : m.proxies[j]? = some p) {result : Bool × Proxy π}
    {node? : Option (Node (Value π Handle))}
    (hfollows : p.Follows (m.heap.at p.target) result node?)
    (hheld : result.2.HasHeld W m.targets (m.heap.at p.target))
    (hpassed : ∀ (key : String) (k : ℕ),
      Fields.get (m.heap.at p.target).slots key = some (.ref (.raw k)) →
      p.Passed key k → result.2.Passed key k) :
    (heap.change p.target (node?.map (Node.map toCopy))).1 = result.1 ∧
      Related W m.targets ⟨m.heap, m.proxies.set j result.2⟩
        (heap.change p.target (node?.map (Node.map toCopy))).2 := by
  have hupdated := h.update hp hfollows.target_eq hfollows.fits hheld hpassed
  rw [hfollows.returns]
  rcases node? with _ | node
  · have hview := hfollows.view_eq
    rw [Option.getD_none] at hview
    rw [hview, ← (h.viewed j p hp).2.2, Heap.set_at] at hupdated
    exact ⟨rfl, hupdated⟩
  · rw [hfollows.view_eq] at hupdated
    exact ⟨rfl, hupdated⟩

theorem setOrDelete_eq_set {ρ : Type} (L : Lengths π) {node : Node (Value π ρ)} (key : String)
    {v : Value π ρ} (h : node.kind = .object → v ≠ .undefined) :
    node.setOrDelete L key v = node.set L key v := by
  cases v with
  | undefined => exact if_neg fun hkind => h hkind rfl
  | _ => rfl

theorem set (L : Lengths π) (h : Related W m.targets m heap)
    (ho : Held W m.targets (.ref o : Value π Handle)) (key : String) (hv : Held W m.targets v)
    (hraw : m.proxy? o = none → m.kind o = .object → v ≠ .undefined)
    (hview : ∀ p ∈ m.proxy? o, (v = .undefined ∨ p.Shows (m.heap.at p.target) key ∨
      p.InPlace (m.heap.at p.target) key) ∧ (p.kind = .array → isRaw v = false)) :
    (heap.change o.node ((heap.at o.node).setOrDelete L key (toCopy v))).1
        = (m.set L o key v).1 ∧
      (m.set L o key v).2.targets = m.targets ∧
      Related W m.targets (m.set L o key v).2
        (heap.change o.node ((heap.at o.node).setOrDelete L key (toCopy v))).2 := by
  cases o with
  | raw i =>
    have hi := ho.1 i rfl
    rw [Handle.node, h.at_raw hi, Node.setOrDelete_map, setOrDelete_eq_set L key (hraw rfl),
      Augmented.set]
    rcases hset : (m.heap.at i).set L key v with _ | node
    · exact ⟨rfl, rfl, h⟩
    · exact ⟨rfl, rfl, h.write hi ((h.assigned i hi).2.set hv hset)⟩
  | proxy j i =>
    obtain ⟨p, hp, rfl⟩ := exists_proxy ho
    obtain ⟨hfits, hheld, hshown⟩ := h.viewed j p hp
    obtain ⟨hkey, harray⟩ := hview p hp
    obtain ⟨hW, -⟩ := h.given_of_mem _ (target_mem hp)
    obtain ⟨hheld', hpassed⟩ := held_set L key hfits hheld (h.given p.target hW).2.2 hv harray
    have hfollows := set_view L hfits hkey
    obtain ⟨hreturns, hrelated⟩ := h.follows hp hfollows hheld' hpassed
    have haugment : (if p.kind = .array then m.augment v else (v, m)) = (v, m) := by
      split
      · next hkind =>
        have hnot := harray hkind
        rcases v with _ | _ | _ | (k | _)
        · rfl
        · rfl
        · rfl
        · cases hnot
        · rfl
      · rfl
    rw [Handle.node, hshown, Node.setOrDelete_map, Augmented.set, hp]
    dsimp only
    rw [haugment]
    exact ⟨hreturns, targets_set hp hfollows.target_eq, hrelated⟩

theorem set_root (L : Lengths π) (h : Related W m.targets m heap)
    (hp : m.proxies[j]? = some p) (hkind : p.kind = .array) {k : ℕ}
    (hk : k ∉ m.targets) (hW : ¬ W k) (hlt : k < m.heap.length)
    (hroot : ∀ (i : ℕ) (key : String), ¬ W i →
      Fields.get (m.heap.at i).slots key ≠ some (.ref (.raw k))) :
    (heap.change p.target ((heap.at p.target).setOrDelete L key (.ref k))).1
        = (m.set L (.proxy j p.target) key (.ref (.raw k))).1 ∧
      (m.set L (.proxy j p.target) key (.ref (.raw k))).2.targets = m.targets ++ [k] ∧
      Related W (m.targets ++ [k]) (m.set L (.proxy j p.target) key (.ref (.raw k))).2
        (heap.change p.target ((heap.at p.target).setOrDelete L key (.ref k))).2 := by
  have hadopted := (h.announce hk hW hlt).adopt fun i key' hWi hget =>
    absurd hget (hroot i key' hWi)
  have htargets : Augmented.targets ⟨m.heap, m.proxies ++ [.create k (m.heap.at k).kind]⟩
      = m.targets ++ [k] := by
    rw [Augmented.targets, List.map_append]
    cases (m.heap.at k).kind <;> rfl
  have hlast : (m.targets ++ [k])[m.proxies.length]? = some k := by
    rw [List.getElem?_append_right (by rw [Augmented.targets, List.length_map]), Augmented.targets,
      List.length_map, Nat.sub_self]
    rfl
  have hp' : (m.proxies ++ [Proxy.create k (m.heap.at k).kind])[j]? = some p := by
    rw [List.getElem?_append_left (lt_of_getElem? hp)]
    exact hp
  rw [← htargets] at hadopted hlast
  have ho : Held W (Augmented.targets ⟨m.heap, m.proxies ++ [.create k (m.heap.at k).kind]⟩)
      (.ref (.proxy j p.target) : Value π Handle) := by
    refine ⟨fun _ h => (by cases h), fun j' i heq => ?_⟩
    cases heq
    exact getElem?_targets (m := ⟨m.heap, _⟩) hp'
  have hv : Held W (Augmented.targets ⟨m.heap, m.proxies ++ [.create k (m.heap.at k).kind]⟩)
      (.ref (.proxy m.proxies.length k) : Value π Handle) := by
    refine ⟨fun _ h => (by cases h), fun j' i heq => ?_⟩
    cases heq
    exact hlast
  obtain ⟨hreturns, hsame, hrelated⟩ := hadopted.set L ho key hv
    (fun hnone => by
      rw [Augmented.proxy?, hp'] at hnone
      cases hnone)
    (fun q hq => by
      rw [Augmented.proxy?, hp'] at hq
      cases hq
      refine ⟨.inr (.inr ?_), fun _ => rfl⟩
      cases p with
      | object => cases hkind
      | array => trivial)
  have hset : m.set L (.proxy j p.target) key (.ref (.raw k)) =
      Augmented.set L ⟨m.heap, m.proxies ++ [.create k (m.heap.at k).kind]⟩ (.proxy j p.target) key
        (.ref (.proxy m.proxies.length k)) := by
    rw [Augmented.set, Augmented.set, hp, hp']
    dsimp only
    rw [if_pos hkind, if_pos hkind]
    rfl
  rw [hset, hsame, htargets] at *
  exact ⟨hreturns, rfl, hrelated⟩

theorem delete (h : Related W m.targets m heap)
    (ho : Held W m.targets (.ref o : Value π Handle)) (key : String) :
    (heap.change o.node ((heap.at o.node).delete key)).1 = (m.delete o key).1 ∧
      (m.delete o key).2.targets = m.targets ∧
      Related W m.targets (m.delete o key).2
        (heap.change o.node ((heap.at o.node).delete key)).2 := by
  cases o with
  | raw i =>
    have hi := ho.1 i rfl
    rw [Handle.node, h.at_raw hi, Node.delete_map, Augmented.delete]
    rcases hdelete : (m.heap.at i).delete key with _ | node
    · exact ⟨rfl, rfl, h⟩
    · exact ⟨rfl, rfl, h.write hi ((h.assigned i hi).2.delete hdelete)⟩
  | proxy j i =>
    obtain ⟨p, hp, rfl⟩ := exists_proxy ho
    obtain ⟨hfits, hheld, hshown⟩ := h.viewed j p hp
    obtain ⟨hW, -⟩ := h.given_of_mem _ (target_mem hp)
    obtain ⟨hheld', hpassed⟩ := held_delete hfits hheld (h.given p.target hW).2.2 key
    have hfollows := delete_view hfits key
    obtain ⟨hreturns, hrelated⟩ := h.follows hp hfollows hheld' hpassed
    rw [Handle.node, hshown, Node.delete_map, Augmented.delete, hp]
    exact ⟨hreturns, targets_set hp hfollows.target_eq, hrelated⟩

end Related

end N8n.AugmentObject
