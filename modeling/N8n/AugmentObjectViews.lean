/-
The object that a view shows: `Proxy.view`.

The traps of a proxy do with its variables what the language does with an object; the view is that
object.  Of an object it has the properties of the target that were not deleted, with their new
values, and the new properties; of an array it is the copy, if there is one.

* **`has_view`, `keys_eq_view`, `lookup_view`** — what is read is read of the view;
* **`delete_view`, `set_view`** — what is changed is changed in the view.
-/
import N8n.AugmentObject
import Mathlib.Data.List.TakeWhile

namespace N8n.AugmentObject

open ObjectMemory

variable {π : Type}

def Proxy.view (data : Node (Value π Handle)) : Proxy π → Node (Value π Handle)
  | .object _ newData deletedProperties =>
    ⟨none, ((data.slots.filter fun s => s.1 ∉ deletedProperties).map fun s =>
        (s.1, (Fields.get newData s.1).getD s.2))
      ++ newData.filter fun s => s.1 ∉ data.keys⟩
  | .array _ newData => newData.getD data

/-- What holds of the target of a proxy and of the variables of the proxy. -/
def Proxy.Fits (data : Node (Value π Handle)) : Proxy π → Prop
  | .object _ newData deletedProperties =>
    data.length = none ∧ data.keys.Nodup ∧ (Fields.keys newData).Nodup ∧
      Fields.Ordered (Fields.keys newData) ∧
      ∀ key ∈ Fields.keys newData, key ∉ deletedProperties
  | .array _ newData =>
    data.IsArray ∧ data.Dense ∧ ∀ copy ∈ newData, copy.IsArray

variable {data copy : Node (Value π Handle)} {target : ℕ}
  {newData : List (String × Value π Handle)} {deletedProperties : JsSet String}

theorem get_overridden (slots : List (String × Value π Handle)) (key : String) :
    Fields.get (slots.map fun s => (s.1, (Fields.get newData s.1).getD s.2)) key =
      (Fields.get slots key).map fun v => (Fields.get newData key).getD v := by
  induction slots with
  | nil => rfl
  | cons slot slots ih =>
    rw [List.map_cons, Fields.get_cons, Fields.get_cons, ih]
    split
    · next hkey => rw [Option.map_some, ← hkey]
    · rfl

theorem get_view (h : (Proxy.object target newData deletedProperties).Fits data)
    (key : String) :
    Fields.get ((Proxy.object target newData deletedProperties).view data).slots key =
      if key ∈ deletedProperties then none
      else (Fields.get newData key).or (Fields.get data.slots key) := by
  obtain ⟨-, -, -, -, hapart⟩ := h
  have hfilter : ∀ slots : List (String × Value π Handle),
      Fields.get (slots.filter fun s => s.1 ∉ deletedProperties) key
        = if key ∉ deletedProperties then Fields.get slots key else none := fun slots => by
    simpa using Fields.get_filter (fun k => k ∉ deletedProperties) slots key
  have hnew : Fields.get (newData.filter fun s => s.1 ∉ data.keys) key
      = if key ∉ data.keys then Fields.get newData key else none := by
    simpa using Fields.get_filter (fun k => k ∉ data.keys) newData key
  rw [Proxy.view, Fields.get_append, get_overridden, hfilter, hnew]
  by_cases hdeleted : key ∈ deletedProperties
  · have hnone : Fields.get newData key = none :=
      Fields.get_eq_none.mpr fun hkey => hapart key hkey hdeleted
    simp [hdeleted, hnone]
  · rcases hget : Fields.get data.slots key with _ | v
    · have hkey : key ∉ data.keys := Fields.get_eq_none.mp hget
      simp [hdeleted, hkey]
    · have hkey : key ∈ data.keys := Fields.get_isSome.mp (by rw [hget]; rfl)
      cases Fields.get newData key <;> simp [hdeleted, hkey]

theorem keys_view (data : Node (Value π Handle)) (target : ℕ)
    (newData : List (String × Value π Handle)) (deletedProperties : JsSet String) :
    ((Proxy.object target newData deletedProperties).view data).keys =
    (data.keys.filter fun key => key ∉ deletedProperties)
      ++ (Fields.keys newData).filter fun key => key ∉ data.keys := by
  rw [Proxy.view, Node.keys, Fields.keys, List.map_append, List.map_map]
  congr 1
  · exact Fields.keys_filter (fun key => key ∉ deletedProperties) data.slots
  · exact Fields.keys_filter (fun key => key ∉ data.keys) newData

theorem nodup_view (h : (Proxy.object target newData deletedProperties).Fits data) :
    ((Proxy.object target newData deletedProperties).view data).keys.Nodup := by
  obtain ⟨-, hdata, hnew, -, -⟩ := h
  rw [keys_view, List.nodup_append']
  refine ⟨hdata.filter _, hnew.filter _, fun key hkey hkey' => ?_⟩
  simpa [(List.mem_filter.mp hkey).1] using (List.mem_filter.mp hkey').2

variable {node : Node (Value π Handle)}

theorem view_eq
    (h : (Proxy.object target newData deletedProperties).Fits data) (hlength : node.length = none)
    (hkeys : ((Proxy.object target newData deletedProperties).view data).keys = node.keys)
    (hget : ∀ key, Fields.get ((Proxy.object target newData deletedProperties).view data).slots key
      = Fields.get node.slots key) :
    (Proxy.object target newData deletedProperties).view data = node := by
  have hslots := Fields.ext_get (nodup_view h) hkeys hget
  obtain ⟨length, slots⟩ := node
  subst hlength
  exact congrArg (Node.mk none) hslots

theorem hasOwn_of_length_eq_none (h : node.length = none)
    (key : String) : node.hasOwn key = (Fields.get node.slots key).isSome := by
  rw [Node.hasOwn, h]
  rfl

theorem kind_of_length_eq_none (h : node.length = none) : node.kind = .object := by
  rw [Node.kind, h]
  rfl

theorem kind_of_isSome (h : node.length.isSome) : node.kind = .array := if_pos h

theorem get_of_length_eq_none (L : Lengths π)
    (h : node.length = none) (key : String) : node.get L key =
      (Fields.get node.slots key).getD
        (if Kind.object.inherits key then .builtin .object key else .undefined) := by
  rw [Node.get, h, ite_self, kind_of_length_eq_none h]
  rcases Fields.get node.slots key with _ | v
  · rfl
  · rfl

theorem isArray_view {newData : Option (Node (Value π Handle))}
    (h : (Proxy.array target newData).Fits data) :
    ((Proxy.array target newData).view data).IsArray := by
  obtain ⟨hdata, -, hcopy⟩ := h
  rcases newData with _ | copy
  · exact hdata
  · exact hcopy copy rfl

variable {p : Proxy π}

theorem kind_view (h : p.Fits data) : (p.view data).kind = p.kind := by
  cases p with
  | object => rfl
  | array target newData =>
    exact kind_of_isSome (isArray_view h).isSome

variable {key : String}

theorem has_view (h : p.Fits data) (hhides : ¬ p.Hides key) :
    p.has data key = (p.view data).has key := by
  cases p with
  | array => rfl
  | object target newData deletedProperties =>
    rw [Proxy.has, Node.has, Node.has, Node.has, hasOwn_of_length_eq_none h.1,
      hasOwn_of_length_eq_none rfl, hasOwn_of_length_eq_none rfl, get_view h,
      kind_of_length_eq_none h.1]
    by_cases hdeleted : key ∈ deletedProperties
    · have hinherits : Kind.object.inherits key = false := by
        simpa using fun hkey => hhides ⟨hdeleted, hkey⟩
      rw [if_pos hdeleted, if_pos hdeleted]
      exact hinherits.symm
    · rw [if_neg hdeleted, if_neg hdeleted]
      rcases Fields.get newData key with _ | v
      · rfl
      · rfl

theorem filter_ownKeys (hlength : node.length.isSome) {p : String → Bool} (hp : p "length" = false)
    (hall : ∀ key ∈ node.keys, p key = true) : (ownKeys node).filter p = node.keys := by
  rw [ownKeys, if_pos hlength, List.filter_append, List.filter_eq_self.mpr hall, List.filter_cons,
    if_neg (by simp [hp])]
  exact List.append_nil _

theorem isEnumerable_of_mem (h : key ∈ node.keys)
    (hlength : node.length.isSome → key ≠ "length") : isEnumerable node key = true := by
  have hown : node.hasOwn key = true := by
    rw [Node.hasOwn, Bool.or_eq_true]
    exact .inr (Fields.get_isSome.mpr h)
  rw [isEnumerable, hown, Bool.true_and, decide_eq_true_iff]
  exact fun hboth => hlength hboth.1 hboth.2

theorem isEnumerable_length (h : node.length.isSome) : isEnumerable node "length" = false := by
  simp [isEnumerable, h]

theorem keys_eq_view (h : p.Fits data) : p.keys data = (p.view data).keys := by
  cases p with
  | object target newData deletedProperties =>
    have hview := keys_view data target newData deletedProperties
    obtain ⟨hlength, hdata, hnew, -, hapart⟩ := h
    have hown : (Proxy.object target newData deletedProperties).ownKeys data
        = ((Proxy.object target newData deletedProperties).view data).keys := by
      rw [Proxy.ownKeys, ownKeys, hlength, hview]
      show ((JsSet.ofList ((data.keys ++ []) ++ Fields.keys newData)).elems.filter _) = _
      rw [List.append_nil, JsSet.elems_ofList_append hdata hnew, List.filter_append]
      congr 1
      exact List.filter_eq_self.mpr fun key hkey => by
        simpa using hapart key (List.mem_filter.mp hkey).1
    rw [Proxy.keys, hown]
    refine List.filter_eq_self.mpr fun key hkey => ?_
    rw [hview, List.mem_append, List.mem_filter, List.mem_filter] at hkey
    rw [Proxy.isEnumerable]
    rcases hkey with ⟨hkey, hdeleted⟩ | ⟨hkey, -⟩
    · rw [if_neg (by simpa using hdeleted)]
      split
      · rfl
      · exact isEnumerable_of_mem hkey fun hsome => by
          rw [hlength] at hsome
          cases hsome
    · rw [if_neg (hapart key hkey), if_pos (Fields.get_isSome.mpr hkey)]
  | array target newData =>
    obtain ⟨hdata, -, hcopy⟩ := h
    rcases newData with _ | copy
    · refine filter_ownKeys hdata.isSome (isEnumerable_length hdata.isSome) fun key hkey => ?_
      exact isEnumerable_of_mem hkey fun _ heq => hdata.length_not_mem (heq ▸ hkey)
    · refine filter_ownKeys (hcopy copy rfl).isSome ?_ fun key hkey => ?_
      · exact isEnumerable_length (hcopy copy rfl).isSome
      · have hne : key ≠ "length" := fun heq => (hcopy copy rfl).length_not_mem (heq ▸ hkey)
        rw [Proxy.isEnumerable, if_neg hne]
        split
        · next hown =>
          rw [isEnumerable, hown]
          simp [hne]
        · rfl

theorem lookup_view (L : Lengths π) (h : p.Fits data)
    (hkey : if key = "constructor" then ¬ p.Shows data key else ¬ p.Hides key) :
    (p.lookup L data key).value = (p.view data).get L key := by
  cases p with
  | object target newData deletedProperties =>
    rw [get_of_length_eq_none L rfl, get_view h, Proxy.lookup]
    by_cases hconstructor : key = "constructor"
    · subst hconstructor
      rw [if_pos rfl] at hkey
      rw [if_pos rfl]
      have hnone : (if "constructor" ∈ deletedProperties then none
          else (Fields.get newData "constructor").or (Fields.get data.slots "constructor"))
          = none := by
        split
        · rfl
        · next hdeleted =>
          rw [Fields.get_eq_none.mpr fun hnew => hkey ⟨hdeleted, .inl hnew⟩,
            Fields.get_eq_none.mpr fun hdata => hkey ⟨hdeleted, .inr hdata⟩]
          rfl
      rw [hnone]
      rfl
    · rw [if_neg hconstructor] at hkey
      rw [if_neg hconstructor]
      by_cases hdeleted : key ∈ deletedProperties
      · rw [if_pos hdeleted, if_pos hdeleted, if_neg fun hinherits => hkey ⟨hdeleted, hinherits⟩]
        rfl
      · rw [if_neg hdeleted, if_neg hdeleted]
        rcases Fields.get newData key with _ | v
        · exact get_of_length_eq_none L h.1 key
        · rfl
  | array target newData =>
    rw [Proxy.lookup]
    by_cases hconstructor : key = "constructor"
    · subst hconstructor
      rw [if_pos rfl] at hkey
      have hkind := kind_view h
      have hnone : Fields.get (newData.getD data).slots "constructor" = none := by
        rcases hget : Fields.get (newData.getD data).slots "constructor" with _ | v
        · rfl
        · refine absurd ?_ hkey
          show Node.hasOwn _ _ = true
          rw [Node.hasOwn, hget]
          exact Bool.or_true _
      rw [if_pos rfl, Node.get, if_neg (by decide), hkind, Proxy.view, hnone]
      rfl
    · rw [if_neg hconstructor]
      rfl

/-- A trap that was called on the proxy changed the object that it shows as the language does, or
both throw and the object stays. -/
structure Proxy.Follows (data : Node (Value π Handle)) (p : Proxy π) (result : Bool × Proxy π)
    (node? : Option (Node (Value π Handle))) : Prop where
  target_eq : result.2.target = p.target
  kind_eq : result.2.kind = p.kind
  fits : result.2.Fits data
  returns : result.1 = node?.isSome
  view_eq : result.2.view data = node?.getD (p.view data)

theorem spread_eq (h : data.IsArray) (hdense : data.Dense) : spread data = data := by
  obtain ⟨n, hn⟩ := Option.isSome_iff_exists.mp h.isSome
  have hkeys := hdense n hn
  have hslots := Fields.map_get h.nodup .undefined
  rw [← Node.keys, hkeys, List.map_map] at hslots
  rw [spread, hn]
  obtain ⟨length, slots⟩ := data
  cases hn
  exact congrArg (Node.mk (some n)) hslots

theorem getD_spread {newData : Option (Node (Value π Handle))}
    (h : (Proxy.array target newData).Fits data) :
    newData.getD (spread data) = (Proxy.array target newData).view data := by
  rw [spread_eq h.1 h.2.1]
  rfl

theorem mem_markDeleted {key' : String} {c : Bool} :
    key' ∈ markDeleted deletedProperties key c ↔
      key' ∈ deletedProperties ∨ (c = true ∧ key' = key) := by
  rw [markDeleted]
  split
  · simp [*]
  · simp [*]

theorem erase_view (h : (Proxy.object target newData deletedProperties).Fits data) (key : String)
    {c : Bool} (hc : key ∈ data.keys → c = true) :
    (Proxy.object target (Fields.erase newData key)
        (markDeleted deletedProperties key c)).Fits data ∧
      (Proxy.object target (Fields.erase newData key)
        (markDeleted deletedProperties key c)).view data =
      ⟨none,
        Fields.erase ((Proxy.object target newData deletedProperties).view data).slots key⟩ := by
  have hview := get_view h
  have hlist := keys_view data target newData deletedProperties
  obtain ⟨hlength, hdata, hnew, hordered, hapart⟩ := h
  have hfits : (Proxy.object target (Fields.erase newData key)
      (markDeleted deletedProperties key c)).Fits data := by
    refine ⟨hlength, hdata, Fields.nodup_erase hnew key, Fields.ordered_erase hordered key, ?_⟩
    intro k hk hdeleted
    rw [Fields.keys_erase, List.mem_filter] at hk
    rcases mem_markDeleted.mp hdeleted with hdeleted | ⟨-, rfl⟩
    · exact hapart k hk.1 hdeleted
    · simp at hk
  refine ⟨hfits, view_eq hfits rfl ?_ fun k => ?_⟩
  · rw [keys_view, Fields.keys_erase]
    refine Eq.trans ?_ (Fields.keys_erase _ key).symm
    rw [← Node.keys, hlist, List.filter_append, List.filter_filter, List.filter_filter,
      List.filter_filter]
    congr 1
    · refine List.filter_congr fun k hk => ?_
      have hmark : k ∈ markDeleted deletedProperties key c ↔ k ∈ deletedProperties ∨ k = key := by
        rw [mem_markDeleted]
        exact or_congr_right (and_iff_right_of_imp fun heq => hc (heq ▸ hk))
      rw [Bool.eq_iff_iff, decide_eq_true_iff, Bool.and_eq_true, decide_eq_true_iff,
        decide_eq_true_iff, hmark, not_or, and_comm]
    · exact List.filter_congr fun k _ => Bool.and_comm _ _
  · rw [get_view hfits, Fields.get_erase, Fields.get_erase, hview]
    by_cases hkey : k = key
    · subst hkey
      rw [if_pos rfl, if_pos rfl, Option.none_or]
      split
      · rfl
      · next hmark =>
        refine Fields.get_eq_none.mpr fun hk => hmark ?_
        exact mem_markDeleted.mpr (.inr ⟨hc hk, rfl⟩)
    · rw [if_neg hkey, if_neg hkey]
      have hmark : k ∈ markDeleted deletedProperties key c ↔ k ∈ deletedProperties := by
        rw [mem_markDeleted]
        exact or_iff_left fun hboth => hkey hboth.2
      simp [hmark]

theorem delete_view (h : p.Fits data) (key : String) :
    p.Follows data (p.delete data key) ((p.view data).delete key) := by
  cases p with
  | object target newData deletedProperties =>
    obtain ⟨hfits, hview⟩ := erase_view h key (c := data.hasOwn key) fun hkey => by
      rw [hasOwn_of_length_eq_none h.1]
      exact Fields.get_isSome.mpr hkey
    exact ⟨rfl, rfl, hfits, rfl, hview⟩
  | array target newData =>
    have hcopy := getD_spread h
    have harray := isArray_view h
    rw [Proxy.delete, hcopy]
    rcases hdelete : ((Proxy.array target newData).view data).delete key with _ | node
    · exact ⟨rfl, rfl, ⟨h.1, h.2.1, fun copy heq => Option.some.inj heq ▸ harray⟩, rfl, rfl⟩
    · refine ⟨rfl, rfl, ⟨h.1, h.2.1, fun copy heq => ?_⟩, rfl, rfl⟩
      cases heq
      exact harray.delete hdelete

theorem mem_keys_view (h : (Proxy.object target newData deletedProperties).Fits data) : key ∈ ((Proxy.object target newData deletedProperties).view data).keys ↔
      (Proxy.object target newData deletedProperties).Shows data key := by
  obtain ⟨-, -, -, -, hapart⟩ := h
  rw [keys_view, List.mem_append, List.mem_filter, List.mem_filter, decide_eq_true_iff,
    decide_eq_true_iff]
  constructor
  · rintro (⟨hkey, hdeleted⟩ | ⟨hkey, -⟩)
    · exact ⟨hdeleted, .inr hkey⟩
    · exact ⟨hapart key hkey, .inl hkey⟩
  · rintro ⟨hdeleted, hkey | hkey⟩
    · by_cases hdata : key ∈ data.keys
      · exact .inl ⟨hdata, hdeleted⟩
      · exact .inr ⟨hkey, hdata⟩
    · exact .inl ⟨hkey, hdeleted⟩

theorem filter_of_split {p : String → Bool} {as bs : List String} (has : ∀ a ∈ as, p a = true)
    (hbs : ∀ b ∈ bs, p b = false) :
    (as ++ bs).filter p = as ∧ (as ++ bs).filter (fun k => ¬ p k) = bs := by
  have hno : bs.filter p = [] := List.filter_eq_nil_iff.mpr fun b hb => by simp [hbs b hb]
  have hno' : as.filter (fun k => ¬ p k) = [] :=
    List.filter_eq_nil_iff.mpr fun a ha => by simp [has a ha]
  have hall : bs.filter (fun k => ¬ p k) = bs :=
    List.filter_eq_self.mpr fun b hb => by simp [hbs b hb]
  rw [List.filter_append, List.filter_append, List.filter_eq_self.mpr has, hno, hno', hall]
  exact ⟨List.append_nil as, rfl⟩

theorem keys_put_view (h : (Proxy.object target newData deletedProperties).Fits data) (hkey : (Proxy.object target newData deletedProperties).Shows data key ∨
      (Proxy.object target newData deletedProperties).InPlace data key) (v : Value π Handle) :
    ((Proxy.object target (Fields.put newData key v)
        (deletedProperties.filter fun name => name ≠ key)).view data).keys =
      Fields.keys (Fields.put
        ((Proxy.object target newData deletedProperties).view data).slots key v) := by
  have hlist := keys_view data target newData deletedProperties
  have hshows : key ∈ _ ↔ _ := mem_keys_view h
  obtain ⟨-, hdata, -, hordered, hapart⟩ := h
  have hcleared : ∀ k ≠ key, decide (k ∉ deletedProperties.filter fun name => name ≠ key)
      = decide (k ∉ deletedProperties) := fun k hk => by
    rw [decide_eq_decide, JsSet.mem_filter]
    simp [hk]
  rw [keys_view]
  by_cases hshown : (Proxy.object target newData deletedProperties).Shows data key
  · rw [Fields.keys_put_of_mem (hshows.mpr hshown), ← Node.keys, hlist]
    congr 1
    · refine List.filter_congr fun k _ => ?_
      by_cases hk : k = key
      · simp [hk, hshown.1]
      · exact hcleared k hk
    · rcases hshown.2 with hnew | hkeydata
      · rw [Fields.keys_put_of_mem hnew]
      · exact Fields.filter_keys_put hordered (by simp [hkeydata]) v
  · rw [Fields.keys_put_of_not_mem (fun hk => hshown (hshows.mp hk)), ← Node.keys, hlist]
    obtain ⟨hbefore, hafter, hnew⟩ := hkey.resolve_left hshown
    by_cases hkeydata : key ∈ data.keys
    · have hdeleted : key ∈ deletedProperties := by
        by_contra hdeleted
        exact hshown ⟨hdeleted, .inr hkeydata⟩
      rw [Fields.filter_keys_put hordered (by simp [hkeydata])]
      obtain ⟨before, after, hsplit, hnot⟩ := List.eq_append_cons_of_mem hkeydata
      have hne : ∀ k ∈ before, decide (k ≠ key) = true := fun k hk =>
        decide_eq_true fun heq => hnot (heq ▸ hk)
      have hne' : ∀ k ∈ after, k ≠ key := by
        rw [hsplit, List.nodup_append', List.nodup_cons] at hdata
        exact fun k hk heq => hdata.2.1.1 (heq ▸ hk)
      rw [hsplit, List.takeWhile_append_of_pos hne, List.takeWhile_cons_of_neg (by simp),
        List.append_nil] at hbefore
      rw [hsplit, List.dropWhile_append_of_pos hne, List.dropWhile_cons_of_neg (by simp)] at hafter
      have hcleared' : data.keys.filter
            (fun k => k ∉ deletedProperties.filter fun name => name ≠ key)
          = before.filter (fun k => k ∉ deletedProperties)
            ++ key :: after.filter fun k => k ∉ deletedProperties := by
        rw [hsplit, List.filter_append, List.filter_cons, if_pos (by simp),
          List.filter_congr fun k hk => hcleared k (of_decide_eq_true (hne k hk)),
          List.filter_congr fun k hk => hcleared k (hne' k hk)]
      have hshownkeys : data.keys.filter (fun k => k ∉ deletedProperties)
          = before.filter (fun k => k ∉ deletedProperties)
            ++ after.filter fun k => k ∉ deletedProperties := by
        rw [hsplit, List.filter_append, List.filter_cons, if_neg (by simp [hdeleted])]
      rw [hcleared', hshownkeys, List.append_assoc, List.append_assoc, List.cons_append]
      have hfirst : ∀ k ∈ before.filter (fun k => k ∉ deletedProperties),
          comesBefore k key = true := fun k hk =>
        hbefore k (List.mem_filter.mp hk).1 (by simpa using (List.mem_filter.mp hk).2)
      have hrest : ∀ k ∈ after.filter (fun k => k ∉ deletedProperties)
          ++ (Fields.keys newData).filter (fun k => k ∉ data.keys), comesBefore k key = false := by
        intro k hk
        rcases List.mem_append.mp hk with hk | hk
        · exact hafter k (List.mem_cons_of_mem _ (List.mem_filter.mp hk).1)
            (by simpa using (List.mem_filter.mp hk).2)
        · exact hnew hkeydata k (List.mem_filter.mp hk).1 (by simpa using (List.mem_filter.mp hk).2)
      rw [(filter_of_split hfirst hrest).1, (filter_of_split hfirst hrest).2]
    · have hnotnew : key ∉ Fields.keys newData := fun hk => hshown ⟨hapart key hk, .inl hk⟩
      have hne : ∀ k ∈ data.keys, k ≠ key := fun k hk heq => hkeydata (heq ▸ hk)
      rw [List.takeWhile_eq_self_iff.mpr fun k hk => decide_eq_true (hne k hk)] at hbefore
      have hcleared' : data.keys.filter
            (fun k => k ∉ deletedProperties.filter fun name => name ≠ key)
          = data.keys.filter fun k => k ∉ deletedProperties :=
        List.filter_congr fun k hk => hcleared k (hne k hk)
      have hfirst : ∀ k ∈ data.keys.filter (fun k => k ∉ deletedProperties),
          comesBefore k key = true := fun k hk =>
        hbefore k (List.mem_filter.mp hk).1 (by simpa using (List.mem_filter.mp hk).2)
      have hall := filter_of_split hfirst (List.forall_mem_nil (comesBefore · key = false))
      rw [List.append_nil] at hall
      rw [hcleared', Fields.keys_put_of_not_mem hnotnew, List.filter_append, List.filter_cons,
        if_pos (by simpa using hkeydata), List.filter_append (p := fun k => comesBefore k key),
        List.filter_append (p := fun k => ¬ comesBefore k key), hall.1, hall.2, List.nil_append,
        List.append_assoc, List.filter_comm, List.filter_comm (fun k => k ∉ data.keys)]

theorem put_view (h : (Proxy.object target newData deletedProperties).Fits data)
    (hkey : (Proxy.object target newData deletedProperties).Shows data key ∨
      (Proxy.object target newData deletedProperties).InPlace data key) (v : Value π Handle) :
    (Proxy.object target (Fields.put newData key v)
        (deletedProperties.filter fun name => name ≠ key)).Fits data ∧
      (Proxy.object target (Fields.put newData key v)
        (deletedProperties.filter fun name => name ≠ key)).view data =
      ⟨none,
        Fields.put ((Proxy.object target newData deletedProperties).view data).slots key v⟩ := by
  have hkeys := keys_put_view h hkey v
  have hview := get_view h
  obtain ⟨hlength, hdata, hnew, hordered, hapart⟩ := h
  have hfits : (Proxy.object target (Fields.put newData key v)
      (deletedProperties.filter fun name => name ≠ key)).Fits data := by
    refine ⟨hlength, hdata, Fields.nodup_put hnew key v, Fields.ordered_put hordered key v, ?_⟩
    intro k hk hdeleted
    obtain ⟨hdeleted, hne⟩ := JsSet.mem_filter.mp hdeleted
    rcases Fields.mem_keys_put.mp hk with rfl | hk
    · simp at hne
    · exact hapart k hk hdeleted
  refine ⟨hfits, view_eq hfits rfl hkeys fun k => ?_⟩
  rw [get_view hfits, Fields.get_put, Fields.get_put, hview]
  by_cases hk : k = key
  · rw [if_neg (by simp [hk]), if_pos hk, if_pos hk, Option.some_or]
  · simp [hk]

variable {v : Value π Handle}

theorem set_view (L : Lengths π) (h : p.Fits data) (hkey : v = .undefined ∨ p.Shows data key ∨ p.InPlace data key) :
    p.Follows data (p.set L data key v) ((p.view data).setOrDelete L key v) := by
  cases p with
  | object target newData deletedProperties =>
    have hput : ∀ v : Value π Handle,
        (Proxy.object target newData deletedProperties).Shows data key ∨
          (Proxy.object target newData deletedProperties).InPlace data key →
        (Proxy.object target newData deletedProperties).Follows data
          (true, .object target (Fields.put newData key v)
            (deletedProperties.filter fun name => name ≠ key))
          (((Proxy.object target newData deletedProperties).view data).set L key v) := by
      intro v hkey
      obtain ⟨hfits, hview⟩ := put_view h hkey v
      exact ⟨rfl, rfl, hfits, rfl, hview⟩
    cases v with
    | undefined =>
      obtain ⟨hfits, hview⟩ := erase_view h key (c := data.has key) fun hkeydata => by
        rw [Node.has, hasOwn_of_length_eq_none h.1, Fields.get_isSome.mpr hkeydata, Bool.true_or]
      exact ⟨rfl, rfl, hfits, rfl, hview⟩
    | prim p => exact hput (.prim p) (hkey.resolve_left fun h => by cases h)
    | builtin kind name => exact hput (.builtin kind name) (hkey.resolve_left fun h => by cases h)
    | ref r => exact hput (.ref r) (hkey.resolve_left fun h => by cases h)
  | array target newData =>
    have hcopy := getD_spread h
    have harray := isArray_view h
    have hset : ((Proxy.array target newData).view data).setOrDelete L key v
        = ((Proxy.array target newData).view data).set L key v := by
      cases v with
      | undefined =>
        rw [Node.setOrDelete, kind_of_isSome harray.isSome]
        rfl
      | _ => rfl
    rw [Proxy.set, hcopy, hset]
    rcases hnode : ((Proxy.array target newData).view data).set L key v with _ | node
    · exact ⟨rfl, rfl, ⟨h.1, h.2.1, fun copy heq => Option.some.inj heq ▸ harray⟩, rfl, rfl⟩
    · refine ⟨rfl, rfl, ⟨h.1, h.2.1, fun copy heq => ?_⟩, rfl, rfl⟩
      cases heq
      exact harray.set hnode

theorem store_view {ρ : Type} (L : Lengths π) (f : Handle → ρ) (h : p.Fits data) {r : Handle} (hlookup : p.lookup L data key = .toAugment (.ref r)) (hv : v.map f = .ref (f r)) :
    (p.store L data key v).target = p.target ∧ (p.store L data key v).kind = p.kind ∧
      (p.store L data key v).Fits data ∧
      ((p.store L data key v).view data).map (Value.map f)
        = (p.view data).map (Value.map f) := by
  cases p with
  | object target newData deletedProperties =>
    rw [Proxy.lookup] at hlookup
    split at hlookup
    · cases hlookup
    split at hlookup
    · cases hlookup
    next hdeleted =>
      rcases hnew : Fields.get newData key with _ | w
      · rw [hnew] at hlookup
        have hdata : Fields.get data.slots key = some (.ref r) :=
          get_of_get_eq_ref (Lookup.toAugment.inj hlookup)
        have hsame : deletedProperties.filter (fun name => name ≠ key) = deletedProperties := by
          obtain ⟨elems, hnodup⟩ := deletedProperties
          rw [JsSet.filter, JsSet.mk.injEq]
          exact List.filter_eq_self.mpr fun k hk => decide_eq_true fun heq => hdeleted (heq ▸ hk)
        have hkey : key ∈ data.keys := Fields.get_isSome.mp (by rw [hdata]; rfl)
        obtain ⟨hfits, hview⟩ := put_view h (.inl ⟨hdeleted, .inr hkey⟩) v
        rw [hsame] at hfits hview
        refine ⟨rfl, rfl, hfits, ?_⟩
        have hget := get_view h key
        rw [if_neg hdeleted, hnew, hdata, Option.none_or] at hget
        have hnodup : (Fields.keys (Fields.mapValues (Value.map f)
            ((Proxy.object target newData deletedProperties).view data).slots)).Nodup := by
          rw [Fields.keys_mapValues]
          exact nodup_view h
        rw [Proxy.store, hview]
        refine congrArg (Node.mk none) ?_
        rw [← Fields.put_mapValues, Fields.put_get hnodup]
        rw [Fields.get_mapValues, hget, hv]
        rfl
      · rw [hnew] at hlookup
        cases hlookup
  | array target newData =>
    have hcopy := getD_spread h
    have harray := isArray_view h
    rw [Proxy.lookup] at hlookup
    split at hlookup
    · cases hlookup
    · have hget : Fields.get ((Proxy.array target newData).view data).slots key = some (.ref r) :=
        get_of_get_eq_ref (Lookup.toAugment.inj hlookup)
      have hmap := Node.set_map L f ((Proxy.array target newData).view data) key v
      have harray' : (((Proxy.array target newData).view data).map (Value.map f)).IsArray :=
        harray.map (Value.map f)
      rw [hv, harray'.set_get (by rw [get_slots_map, hget]; rfl)] at hmap
      obtain ⟨node, hnode, hsame⟩ := Option.map_eq_some_iff.mp hmap.symm
      rw [Proxy.store, hcopy, hnode]
      refine ⟨rfl, rfl, ⟨h.1, h.2.1, fun copy heq => ?_⟩, hsame⟩
      cases heq
      exact harray.set hnode

theorem create_view (target : ℕ) (hnodup : data.keys.Nodup) (hdense : data.Dense) :
    (Proxy.create target data.kind : Proxy π).Fits data ∧
      (Proxy.create target data.kind : Proxy π).view data = data := by
  obtain ⟨length, slots⟩ := data
  rcases length with _ | n
  · refine ⟨⟨rfl, hnodup, List.nodup_nil, List.Pairwise.nil, fun key hkey => by cases hkey⟩, ?_⟩
    refine congrArg (Node.mk none) ?_
    rw [List.filter_nil, List.append_nil, List.filter_eq_self.mpr fun s _ => by simp]
    exact List.map_id slots
  · exact ⟨⟨hdense.isArray rfl hnodup, hdense, fun copy hcopy => by cases hcopy⟩, rfl⟩

end N8n.AugmentObject
