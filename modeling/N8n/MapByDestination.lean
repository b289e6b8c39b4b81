/-
`mapConnectionsByDestination` as the relational inverse.

The loops call `hasOwnProperty` as a method of the map they read and of the map they build, and
an assignment to the key `__proto__` of the map they build sets its prototype.  Apart from these
two names the built map is the inverse of the given one.

* `relationalInverse_iff` — **it is the inverse iff no connection mentions `__proto__`, and
  neither a source nor the end of a connection is named `hasOwnProperty`**.
-/
import N8n.Workflow
import N8n.Runs
import Mathlib.Data.List.Count

namespace N8n

section Count

variable {α β τ : Type*} [DecidableEq β] {as : List α} {f : α → List β} {b : β}
  (key : β → τ) (tag : α → τ)

theorem count_flatMap_eq_zero (hkey : ∀ a ∈ as, ∀ b ∈ f a, key b = tag a)
    (h : ∀ a ∈ as, key b ≠ tag a) : (as.flatMap f).count b = 0 := by
  refine List.count_eq_zero.mpr fun hb => ?_
  obtain ⟨a, ha, hb⟩ := List.mem_flatMap.mp hb
  exact h a ha (hkey a ha b hb)

theorem count_flatMap_of_mem (hkey : ∀ a ∈ as, ∀ b ∈ f a, key b = tag a)
    (hnd : (as.map tag).Nodup) {a : α} (ha : a ∈ as) (hb : key b = tag a) :
    (as.flatMap f).count b = (f a).count b := by
  induction as with
  | nil => cases ha
  | cons a' as ih =>
    obtain ⟨hnew, hnd⟩ := List.nodup_cons.mp hnd
    obtain ⟨hhead, htail⟩ := List.forall_mem_cons.mp hkey
    rw [List.flatMap_cons, List.count_append]
    rcases List.mem_cons.mp ha with rfl | ha
    · have hrest : (as.flatMap f).count b = 0 := count_flatMap_eq_zero key tag htail fun c hc heq =>
        hnew (List.mem_map.mpr ⟨c, hc, heq.symm.trans hb⟩)
      rw [hrest, Nat.add_zero]
    · have hfirst : (f a').count b = 0 := List.count_eq_zero.mpr fun hmem =>
        hnew (List.mem_map.mpr ⟨a, ha, hb.symm.trans (hhead b hmem)⟩)
      rw [hfirst, Nat.zero_add, ih htail hnd ha]

end Count

def connectionsAt (connections : IConnections) (node : String) (type : NodeConnectionType)
    (index : ℕ) : List IConnection :=
  let byType := (connections.get? node).getD .empty
  let slots := (byType.get? type).getD []
  (slots[index]?.join).getD []

theorem count_linksOfArray {node : String} {type : NodeConnectionType}
    {slots : NodeInputConnections} {l : Link} (hnode : l.node = node) (htype : l.type = type) :
    (linksOfArray node type slots).count l =
      ((slots[l.index]?.join).getD []).count l.connection := by
  subst hnode htype
  have hkey : ∀ s ∈ slots.zipIdx, ∀ m ∈ (s.1.getD []).map (Link.mk l.node l.type s.2),
      m.index = s.2 := by
    intro s _ m hm
    obtain ⟨c, -, rfl⟩ := List.mem_map.mp hm
    rfl
  rw [linksOfArray]
  rcases hslot : slots[l.index]? with _ | slot
  · refine count_flatMap_eq_zero Link.index Prod.snd hkey fun s hs heq => ?_
    have := List.mk_mem_zipIdx_iff_getElem?.mp hs
    rw [← heq, hslot] at this
    cases this
  · rw [count_flatMap_of_mem Link.index Prod.snd hkey (by simp [List.nodup_range'])
      (List.mk_mem_zipIdx_iff_getElem?.mpr hslot) rfl]
    have hinj : Function.Injective (Link.mk l.node l.type l.index) := fun c d h =>
      congrArg Link.connection h
    exact List.count_map_of_injective _ _ hinj l.connection

theorem node_of_mem_linksOfNode {node : String} {byType : INodeConnections} {l : Link}
    (h : l ∈ linksOfNode node byType) : l.node = node := by
  obtain ⟨e, -, hl⟩ := List.mem_flatMap.mp h
  exact (mem_linksOfArray.mp hl).1

theorem count_links (connections : IConnections) (l : Link) :
    (links connections).count l =
      (connectionsAt connections l.node l.type l.index).count l.connection := by
  have hkey : ∀ node ∈ connections.objectKeys,
      ∀ m ∈ linksOfNode node ((connections.get? node).getD .empty), m.node = node :=
    fun node _ m hm => node_of_mem_linksOfNode hm
  rw [links, connectionsAt]
  rcases hnode : connections.get? l.node with _ | byType
  · refine count_flatMap_eq_zero Link.node id hkey fun node hmem heq => ?_
    exact Dict.get?_eq_none_iff.mp hnode (heq ▸ Dict.mem_objectKeys.mp hmem)
  · have hmem := Dict.mem_objectKeys.mpr (Dict.mem_keys_iff.mpr ⟨byType, hnode⟩)
    have hnd : (connections.objectKeys.map id).Nodup := by
      rw [List.map_id]
      exact Dict.nodup_objectKeys connections
    rw [count_flatMap_of_mem Link.node id hkey hnd hmem rfl, hnode]
    -- and within the node, of its type
    have hkeyType : ∀ e ∈ byType.entries, ∀ m ∈ linksOfArray l.node e.1 e.2, m.type = e.1 :=
      fun e _ m hm => (mem_linksOfArray.mp hm).2.1
    rw [Option.getD_some, linksOfNode]
    rcases htype : byType.get? l.type with _ | slots
    · refine count_flatMap_eq_zero Link.type Prod.fst hkeyType fun e he heq => ?_
      exact Dict.get?_eq_none_iff.mp htype (heq ▸ List.mem_map_of_mem he)
    · rw [count_flatMap_of_mem Link.type Prod.fst hkeyType byType.nodup
        (Dict.mem_entries_iff.mpr htype) rfl]
      exact count_linksOfArray rfl rfl

/-- The map that is built, and the prototype that an assignment to `__proto__` gave it. -/
structure ReturnConnection where
  own : IConnections := .empty
  proto : Option INodeConnections := none
  deriving DecidableEq

namespace ReturnConnection

def get? (r : ReturnConnection) (node : String) : Option INodeConnections :=
  if node = "__proto__" then r.proto else r.own.get? node

def entriesAt (r : ReturnConnection) (node : String) (type : NodeConnectionType) (index : ℕ) :
    List IConnection :=
  let byType := (r.get? node).getD .empty
  let slots := (byType.get? type).getD []
  (slots[index]?.join).getD []

/-- The body of the innermost loop.  `__proto__` is never an own key, and each time the prototype
is a new object. -/
def fileLink (r : ReturnConnection) (l : Link) : Except JsError ReturnConnection :=
  if r.own.has "hasOwnProperty" then .error .typeError
  else if l.connection.node = "__proto__" then .ok { r with
    proto := some (Dict.empty.set l.connection.type
      (pushAt (padTo [] l.connection.index) l.connection.index ⟨l.node, l.type, l.index⟩)) }
  else .ok { r with own := addLink r.own l }

end ReturnConnection
variable (connections : IConnections)

/-- `connections.hasOwnProperty(sourceNode)`, called for each key. -/
def assertHasOwnProperty : Except JsError Unit :=
  if connections.has "hasOwnProperty" then .error .typeError else .ok ()

/-- `mapConnectionsByDestination` with what it throws. -/
def mapConnectionsByDestinationOf : Except JsError ReturnConnection :=
  connections.objectKeys.foldlM (fun r sourceNode => do
    assertHasOwnProperty connections
    ((connections.get? sourceNode).getD .empty).entries.foldlM (fun r e =>
      e.2.zipIdx.foldlM (fun r slot =>
        (slot.1.getD []).foldlM (fun r connectionInfo =>
          r.fileLink ⟨sourceNode, e.1, slot.2, connectionInfo⟩) r) r) r) {}

def Workflow.getConnectionsByDestination : Except JsError ReturnConnection :=
  connections.objectKeys.foldlM (fun r sourceNode => do
    assertHasOwnProperty connections
    ((connections.get? sourceNode).getD .empty).entries.foldlM (fun r e =>
      e.2.zipIdx.foldlM (fun r slot =>
        (slot.1.getD []).foldlM (fun r connectionInfo =>
          r.fileLink ⟨sourceNode, e.1, slot.2, connectionInfo⟩) r) r) r) {}

theorem foldlM_flatMap_eq {σ α β ε : Type} (f : α → List β) (body : σ → β → Except ε σ)
    (as : List α) : ∀ s : σ,
    (as.flatMap f).foldlM body s = as.foldlM (fun s a => (f a).foldlM body s) s := by
  induction as with
  | nil => exact fun _ => rfl
  | cons a as ih =>
    intro s
    rw [List.flatMap_cons, List.foldlM_append, List.foldlM_cons]
    exact congrArg _ (funext ih)

theorem mapConnectionsByDestinationOf_eq : mapConnectionsByDestinationOf connections =
      if connections.has "hasOwnProperty" then .error .typeError
      else (links connections).foldlM ReturnConnection.fileLink {} := by
  rw [mapConnectionsByDestinationOf]
  split
  · rename_i hown
    have hmem := Dict.mem_objectKeys.mpr (Dict.has_iff.mp hown)
    obtain ⟨first, rest, hkeys⟩ := List.exists_cons_of_ne_nil (List.ne_nil_of_mem hmem)
    rw [hkeys, List.foldlM_cons, assertHasOwnProperty, if_pos hown]
    rfl
  · rename_i hown
    simp only [assertHasOwnProperty, if_neg hown, links, linksOfNode, linksOfArray,
      foldlM_flatMap_eq, List.foldlM_map]
    rfl

/-- The links that become own entries. -/
def ownLinks (ls : List Link) : List Link := ls.filter (·.connection.node ≠ "__proto__")

/-- **What the loop over the links builds**, if it returns. -/
theorem foldlM_fileLink : ∀ {ls : List Link} {r r' : ReturnConnection},
    ls.foldlM ReturnConnection.fileLink r = .ok r' →
      r'.own = (ownLinks ls).foldl addLink r.own := by
  intro ls
  induction ls with
  | nil =>
    intro r r' h
    cases h
    rfl
  | cons l ls ih =>
    intro r r' h
    rw [List.foldlM_cons] at h
    obtain ⟨s, hs, hrest⟩ := exists_of_bind_eq_ok h
    rw [ih hrest]
    rw [ReturnConnection.fileLink] at hs
    split at hs
    · cases hs
    split at hs
    · rename_i hproto
      cases hs
      rw [ownLinks, ownLinks, List.filter_cons_of_neg (by simpa using hproto)]
    · rename_i hproto
      cases hs
      rw [ownLinks, ownLinks, List.filter_cons_of_pos (by simpa using hproto), List.foldl_cons]

theorem has_addLink {r : IConnections} {l : Link} {node : String} :
    (addLink r l).has node = true ↔ node = l.connection.node ∨ r.has node = true := by
  rw [Dict.has_iff, addLink, Dict.mem_keys_set, Dict.has_iff]

theorem has_foldl_addLink {node : String} : ∀ {ls : List Link} {r : IConnections},
    (ls.foldl addLink r).has node = true ↔
      (∃ l ∈ ls, l.connection.node = node) ∨ r.has node = true := by
  intro ls
  induction ls with
  | nil => simp
  | cons l ls ih =>
    intro r
    rw [List.foldl_cons, ih, has_addLink]
    simp only [List.mem_cons, exists_eq_or_imp, eq_comm (a := node)]
    rw [or_left_comm, or_assoc]

theorem foldlM_fileLink_of_plain : ∀ {ls : List Link} {r : ReturnConnection},
    r.own.has "hasOwnProperty" = false →
    (∀ l ∈ ls, l.connection.node ≠ "hasOwnProperty" ∧ l.connection.node ≠ "__proto__") →
    ls.foldlM ReturnConnection.fileLink r = .ok { r with own := ls.foldl addLink r.own } := by
  intro ls
  induction ls with
  | nil => exact fun _ _ => rfl
  | cons l ls ih =>
    intro r hr h
    obtain ⟨⟨hown, hproto⟩, hls⟩ := List.forall_mem_cons.mp h
    have hstep : r.fileLink l = .ok { r with own := addLink r.own l } := by
      rw [ReturnConnection.fileLink, hr, if_neg hproto]
      rfl
    rw [List.foldlM_cons, hstep]
    refine ih ?_ hls
    rw [Bool.eq_false_iff, ne_eq, has_addLink, not_or]
    exact ⟨Ne.symm hown, Bool.eq_false_iff.mp hr⟩

theorem links_foldl_addLink : ∀ (ls : List Link) {r : IConnections}, NoNull r →
    NoNull (ls.foldl addLink r) ∧
      (links (ls.foldl addLink r)).Perm (ls.map Link.flip ++ links r) := by
  intro ls
  induction ls with
  | nil => exact fun hr => ⟨hr, List.Perm.refl _⟩
  | cons l ls ih =>
    intro r hr
    obtain ⟨hnull, hlinks⟩ := ih (noNull_addLink hr l)
    exact ⟨hnull, hlinks.trans (((links_addLink hr l).append_left _).trans List.perm_middle)⟩

variable {r : ReturnConnection}

theorem links_own {connections : IConnections}
    (h : mapConnectionsByDestinationOf connections = .ok r) :
    (links r.own).Perm ((ownLinks (links connections)).map Link.flip) := by
  rw [mapConnectionsByDestinationOf_eq] at h
  split at h
  · cases h
  · have hlinks := (links_foldl_addLink (ownLinks (links connections)) noNull_empty).2
    rw [← foldlM_fileLink h] at hlinks
    have hempty : links (Dict.empty : IConnections) = [] := rfl
    rwa [hempty, List.append_nil] at hlinks

theorem noNull_own {connections : IConnections}
    (h : mapConnectionsByDestinationOf connections = .ok r) : NoNull r.own := by
  rw [mapConnectionsByDestinationOf_eq] at h
  split at h
  · cases h
  · rw [foldlM_fileLink h]
    exact (links_foldl_addLink _ noNull_empty).1

/-- The map lists every connection at its other end, as often as the given one; its arrays have no
gaps; and turned around again it lists the connections that were given.  An entry of a prototype is
read, but it is not an own key for the second time. -/
structure InvertedBy (r : ReturnConnection) : Prop where
  counts : ∀ l : Link, (r.entriesAt l.connection.node l.connection.type l.connection.index).count
    ⟨l.node, l.type, l.index⟩ = (links connections).count l
  arrays : ∀ node byType type slots, r.get? node = some byType →
    byType.get? type = some slots → none ∉ slots
  twice : ∃ r', mapConnectionsByDestinationOf r.own = .ok r' ∧
    (links r'.own).Perm (links connections)

/-- Both versions return the same map, and it is the relational inverse. -/
def RelationalInverse : Prop :=
  (∃ r, mapConnectionsByDestinationOf connections = .ok r ∧ InvertedBy connections r) ∧
    Workflow.getConnectionsByDestination connections = mapConnectionsByDestinationOf connections

/-- No source and no end of a connection is named `hasOwnProperty`, and no connection starts or
ends at `__proto__`. -/
structure PlainNames : Prop where
  source : "hasOwnProperty" ∉ connections.keys
  destination : ∀ l ∈ links connections, l.connection.node ≠ "hasOwnProperty"
  proto : ∀ l ∈ links connections, l.node ≠ "__proto__" ∧ l.connection.node ≠ "__proto__"

section

variable {connections : IConnections}

theorem mapConnectionsByDestinationOf_of_plain
    (hsource : "hasOwnProperty" ∉ connections.keys) (hdest : ∀ l ∈ links connections,
      l.connection.node ≠ "hasOwnProperty" ∧ l.connection.node ≠ "__proto__") :
    mapConnectionsByDestinationOf connections =
      .ok { own := mapConnectionsByDestination connections } := by
  have hhas : ¬ connections.has "hasOwnProperty" = true := fun h => hsource (Dict.has_iff.mp h)
  rw [mapConnectionsByDestinationOf_eq, if_neg hhas, foldlM_fileLink_of_plain rfl hdest]
  rfl

theorem mem_keys_of_mem_links {l : Link}
    (h : l ∈ links connections) : l.node ∈ connections.keys := by
  obtain ⟨byType, slots, cs, hb, -⟩ := mem_links.mp h
  exact Dict.mem_keys_iff.mpr ⟨byType, hb⟩

theorem not_mem_keys_of_map {r : ReturnConnection}
    (h : mapConnectionsByDestinationOf connections = .ok r) :
    "hasOwnProperty" ∉ connections.keys := by
  rw [mapConnectionsByDestinationOf_eq] at h
  split at h
  · cases h
  · rename_i hhas
    exact fun hmem => hhas (Dict.has_iff.mpr hmem)

theorem PlainNames.invertedBy (h : PlainNames connections) :
    InvertedBy connections { own := mapConnectionsByDestination connections } where
  counts := fun l => by
    have hperm := links_mapConnectionsByDestination connections
    have hcount : (links (mapConnectionsByDestination connections)).count l.flip
        = (links connections).count l := by
      have hinj : Function.Injective Link.flip := fun a b hab => by
        rw [← a.flip_flip, hab, b.flip_flip]
      rw [hperm.count_eq, List.count_map_of_injective _ _ hinj]
    rw [← hcount, count_links, ReturnConnection.entriesAt, ReturnConnection.get?]
    split
    · -- nothing ends at `__proto__`
      rename_i hproto
      have hzero : (connectionsAt (mapConnectionsByDestination connections) l.flip.node l.flip.type
          l.flip.index).count l.flip.connection = 0 := by
        rw [← count_links]
        refine List.count_eq_zero.mpr fun hmem => ?_
        rw [mem_links_mapConnectionsByDestination, Link.flip_flip] at hmem
        exact (h.proto l hmem).2 hproto
      rw [hzero]
      rfl
    · rfl
  arrays := fun node byType type slots hnode htype => by
    rw [ReturnConnection.get?] at hnode
    split at hnode
    · cases hnode
    · exact noNull_own (mapConnectionsByDestinationOf_of_plain h.source fun l hl =>
        ⟨h.destination l hl, (h.proto l hl).2⟩) node byType type slots hnode htype
  twice := by
    have hflip : ∀ l ∈ links (mapConnectionsByDestination connections),
        l.flip ∈ links connections := fun l hl => mem_links_mapConnectionsByDestination.mp hl
    refine ⟨_, mapConnectionsByDestinationOf_of_plain (fun hmem => ?_) fun l hl => ⟨?_, ?_⟩, ?_⟩
    · rw [← Dict.has_iff, mapConnectionsByDestination, has_foldl_addLink] at hmem
      rcases hmem with ⟨l, hl, heq⟩ | hempty
      · exact h.destination l hl heq
      · cases hempty
    · intro heq
      exact h.source (heq ▸ mem_keys_of_mem_links (hflip l hl))
    · exact (h.proto _ (hflip l hl)).1
    · have htwice := links_mapConnectionsByDestination (mapConnectionsByDestination connections)
      refine htwice.trans (((links_mapConnectionsByDestination connections).map _).trans ?_)
      rw [List.map_map]
      exact List.Perm.of_eq (List.map_id _)

theorem length_twice {r r' : ReturnConnection}
    (h : mapConnectionsByDestinationOf connections = .ok r)
    (h' : mapConnectionsByDestinationOf r.own = .ok r') :
    (links r'.own).length = ((links connections).filter fun l =>
      l.node ≠ "__proto__" ∧ l.connection.node ≠ "__proto__").length := by
  have hown := links_own h
  rw [(links_own h').length_eq, List.length_map, ownLinks, (hown.filter _).length_eq, ownLinks,
    List.filter_map, List.length_map, List.filter_filter]
  congr 1
  refine List.filter_congr fun l _ => ?_
  by_cases hnode : l.node = "__proto__" <;> simp [Link.flip, hnode]

theorem RelationalInverse.plainNames
    (h : RelationalInverse connections) : PlainNames connections := by
  obtain ⟨⟨r, hr, hinv⟩, -⟩ := h
  obtain ⟨r', hr', hperm⟩ := hinv.twice
  have hlen := hperm.length_eq
  rw [length_twice hr hr', List.length_filter_eq_length_iff] at hlen
  have hproto : ∀ l ∈ links connections, l.node ≠ "__proto__" ∧ l.connection.node ≠ "__proto__" :=
    fun l hl => of_decide_eq_true (hlen l hl)
  refine ⟨not_mem_keys_of_map hr, fun l hl heq => not_mem_keys_of_map hr' ?_, hproto⟩
  -- the connection makes an own entry, whose key hides the method the second time
  have hflip : l.flip ∈ links r.own := by
    rw [(links_own hr).mem_iff]
    exact List.mem_map_of_mem (List.mem_filter.mpr ⟨hl, by simpa using (hproto l hl).2⟩)
  exact heq ▸ mem_keys_of_mem_links hflip

end

/-- **The built map is the inverse of the given one iff the names are plain.** -/
theorem relationalInverse_iff : RelationalInverse connections ↔ PlainNames connections := by
  refine ⟨RelationalInverse.plainNames, fun h => ⟨⟨_, ?_, h.invertedBy⟩, rfl⟩⟩
  exact mapConnectionsByDestinationOf_of_plain h.source fun l hl =>
    ⟨h.destination l hl, (h.proto l hl).2⟩

/-- A node that feeds one named `hasOwnProperty`, and another. -/
theorem not_relationalInverse_hasOwnProperty : ¬ ∀ connections, RelationalInverse connections := by
  intro h
  obtain ⟨⟨r, hr, -⟩, -⟩ := h (Dict.empty.set "Trigger"
    (Dict.empty.set .main [some [⟨"hasOwnProperty", .main, 0⟩, ⟨"Set", .main, 0⟩]]))
  have hthrows : mapConnectionsByDestinationOf (Dict.empty.set "Trigger"
      (Dict.empty.set .main [some [⟨"hasOwnProperty", .main, 0⟩, ⟨"Set", .main, 0⟩]])) =
      .error .typeError := by decide +kernel
  rw [hthrows] at hr
  cases hr

end N8n
