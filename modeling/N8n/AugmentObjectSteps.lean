/-
The heap of a copy beside the heap and the proxies of views: `Related`.

A node of the heap is either given, as the target of a view, there or to come, or assigned, and
then it is handed out as it is.  Given nodes never change, and each of them is in one slot at most,
so that a second proxy for it is never made: the slot from which it was taken holds the proxy.

* `Related.update`, `Related.adopt` — a proxy changes its variables, a new proxy is made;
* `Related.write` — an assigned object changes.
-/
import N8n.AugmentObjectViews

namespace N8n.AugmentObject

open ObjectMemory

variable {π : Type}

def Handle.node : Handle → ℕ
  | .raw i => i
  | .proxy _ i => i

abbrev toCopy : Value π Handle → Value π ℕ := Value.map Handle.node

def Augmented.targets (m : Augmented π) : List ℕ := m.proxies.map Proxy.target

/-- A value that a program can have, if `W` are the nodes that were assigned and `T` the targets of
the proxies. -/
def Held (W : ℕ → Prop) (T : List ℕ) (v : Value π Handle) : Prop :=
  (∀ i, v = .ref (.raw i) → W i) ∧ ∀ j i, v = .ref (.proxy j i) → T[j]? = some i

/-- A value in a slot of a given node. -/
def Pending (W : ℕ → Prop) (T : List ℕ) (n : ℕ) (v : Value π Handle) : Prop :=
  (∀ i, v = .ref (.raw i) → ¬ W i ∧ i < n) ∧ ∀ j i, v = .ref (.proxy j i) → T[j]? = some i

/-- The values that the variables of a proxy have: those of a copy of an array are as in the
target, or augmented. -/
def Proxy.HasHeld (W : ℕ → Prop) (T : List ℕ) (data : Node (Value π Handle)) : Proxy π → Prop
  | .object _ newData _ => ∀ s ∈ newData, Held W T s.2
  | .array _ newData => ∀ copy ∈ newData, ∀ (key : String) (v : Value π Handle),
    Fields.get copy.slots key = some v →
      (∀ i, v = .ref (.raw i) → Fields.get data.slots key = some v) ∧
      ∀ j i, v = .ref (.proxy j i) → T[j]? = some i

/-- The proxy does not hand out any more what is in the slot of its target. -/
def Proxy.Passed (key : String) (k : ℕ) : Proxy π → Prop
  | .object _ newData deletedProperties => key ∈ Fields.keys newData ∨ key ∈ deletedProperties
  | .array _ newData => ∃ copy ∈ newData, Fields.get copy.slots key ≠ some (.ref (.raw k))

/-- The copy has the objects that the views show.  `T` has the targets of the proxies and of those
that are about to be made. -/
structure Related (W : ℕ → Prop) (T : List ℕ) (m : Augmented π) (heap : Heap π ℕ) : Prop where
  length_eq : heap.length = m.heap.length
  isPrefix : m.targets <+: T
  nodup : T.Nodup
  given_of_mem : ∀ i ∈ T, ¬ W i ∧ i < m.heap.length
  assigned : ∀ i, W i → i < m.heap.length ∧ (m.heap.at i).All (Held W T)
  given : ∀ i, ¬ W i → (m.heap.at i).keys.Nodup ∧ (m.heap.at i).Dense ∧
    (m.heap.at i).All (Pending W T m.heap.length)
  once : ∀ (i i' : ℕ) (key key' : String) (k : ℕ), ¬ W i → ¬ W i' →
    Fields.get (m.heap.at i).slots key = some (.ref (.raw k)) →
    Fields.get (m.heap.at i').slots key' = some (.ref (.raw k)) → i = i' ∧ key = key'
  bare : ∀ i, i ∉ m.targets → heap.at i = (m.heap.at i).map toCopy
  viewed : ∀ (j : ℕ) (p : Proxy π), m.proxies[j]? = some p →
    p.Fits (m.heap.at p.target) ∧ p.HasHeld W T (m.heap.at p.target) ∧
      heap.at p.target = (p.view (m.heap.at p.target)).map toCopy
  taken : ∀ (i : ℕ) (key : String) (k : ℕ), ¬ W i →
    Fields.get (m.heap.at i).slots key = some (.ref (.raw k)) → k ∈ m.targets →
    ∃ (j : ℕ) (p : Proxy π), m.proxies[j]? = some p ∧ p.target = i ∧ p.Passed key k

variable {W W' : ℕ → Prop} {T T' : List ℕ} {n : ℕ} {v : Value π Handle} {m : Augmented π}
  {heap : Heap π ℕ} {data : Node (Value π Handle)}

theorem getElem?_of_isPrefix (h : T <+: T') {j i : ℕ} (hj : T[j]? = some i) : T'[j]? = some i := by
  obtain ⟨rest, rfl⟩ := h
  rw [List.getElem?_append_left (List.getElem?_eq_some_iff.mp hj).1]
  exact hj

theorem Held.mono (h : Held W T v) (hW : ∀ i, W i → W' i) (hT : T <+: T') : Held W' T' v :=
  ⟨fun i hi => hW i (h.1 i hi), fun j i hi => getElem?_of_isPrefix hT (h.2 j i hi)⟩

theorem Pending.mono {n' : ℕ} (h : Pending W T n v) (hW : ∀ i < n, W' i → W i) (hT : T <+: T')
    (hn : n ≤ n') : Pending W' T' n' v :=
  ⟨fun i hi =>
      ⟨fun hW' => (h.1 i hi).1 (hW i (h.1 i hi).2 hW'), Nat.lt_of_lt_of_le (h.1 i hi).2 hn⟩,
    fun j i hi => getElem?_of_isPrefix hT (h.2 j i hi)⟩

theorem Proxy.HasHeld.mono {p : Proxy π} (h : p.HasHeld W T data) (hW : ∀ i, W i → W' i)
    (hT : T <+: T') : p.HasHeld W' T' data := by
  cases p with
  | object target newData deletedProperties => exact fun s hs => (h s hs).mono hW hT
  | array target newData =>
    intro copy hcopy key v hget
    obtain ⟨hraw, hproxy⟩ := h copy hcopy key v hget
    exact ⟨hraw, fun j i hi => getElem?_of_isPrefix hT (hproxy j i hi)⟩

theorem held_of_no_ref (h : ∀ r, v ≠ .ref r) : Held W T v :=
  ⟨fun _ hi => absurd hi (h _), fun _ _ hi => absurd hi (h _)⟩

theorem held_get {L : Lengths π} {key : String} (h : data.All (Held W T)) :
    Held W T (data.get L key) := by
  have hslot : ∀ r, data.get L key = .ref r → Held W T (.ref r) := fun r hr =>
    h _ (Fields.mem_of_get (get_of_get_eq_ref hr))
  exact ⟨fun i hi => (hslot _ hi).1 i rfl, fun j i hi => (hslot _ hi).2 j i rfl⟩

namespace Related

theorem announce (h : Related W T m heap) {k : ℕ} (hk : k ∉ T) (hW : ¬ W k)
    (hlt : k < m.heap.length) : Related W (T ++ [k]) m heap where
  length_eq := h.length_eq
  isPrefix := h.isPrefix.trans (List.prefix_append T [k])
  nodup := List.nodup_append'.mpr
    ⟨h.nodup, List.nodup_singleton k, fun i hi hik => hk (List.mem_singleton.mp hik ▸ hi)⟩
  given_of_mem := by
    intro i hi
    rcases List.mem_append.mp hi with hi | hi
    · exact h.given_of_mem i hi
    · rw [List.mem_singleton.mp hi]
      exact ⟨hW, hlt⟩
  assigned i hi := ⟨(h.assigned i hi).1, fun s hs =>
    ((h.assigned i hi).2 s hs).mono (fun _ => id) (List.prefix_append T [k])⟩
  given i hi := ⟨(h.given i hi).1, (h.given i hi).2.1, fun s hs =>
    ((h.given i hi).2.2 s hs).mono (fun _ _ => id) (List.prefix_append T [k]) (Nat.le_refl _)⟩
  once := h.once
  bare := h.bare
  viewed j p hp := ⟨(h.viewed j p hp).1,
    (h.viewed j p hp).2.1.mono (fun _ => id) (List.prefix_append T [k]), (h.viewed j p hp).2.2⟩
  taken := h.taken

variable {j : ℕ} {p : Proxy π}

theorem target_mem (hp : m.proxies[j]? = some p) : p.target ∈ m.targets :=
  List.mem_map_of_mem (List.mem_of_getElem? hp)

theorem getElem?_targets (hp : m.proxies[j]? = some p) :
    m.targets[j]? = some p.target := by
  rw [Augmented.targets, List.getElem?_map, hp]
  rfl

theorem nodup_targets (h : Related W T m heap) : m.targets.Nodup :=
  h.nodup.sublist h.isPrefix.sublist

variable {p' : Proxy π}

theorem proxy_eq (h : Related W T m heap) {j' : ℕ}
    (hp : m.proxies[j]? = some p) (hp' : m.proxies[j']? = some p')
    (htarget : p.target = p'.target) : j = j' ∧ p = p' := by
  have hj := getElem?_targets hp
  have hj' := getElem?_targets hp'
  rw [← htarget] at hj'
  obtain ⟨hlt, hget⟩ := List.getElem?_eq_some_iff.mp hj
  obtain ⟨hlt', hget'⟩ := List.getElem?_eq_some_iff.mp hj'
  have heq := h.nodup_targets.getElem_inj_iff.mp (hget.trans hget'.symm)
  subst heq
  exact ⟨rfl, Option.some.inj (hp.symm.trans hp')⟩

theorem targets_set (hp : m.proxies[j]? = some p)
    (htarget : p'.target = p.target) : (m.proxies.set j p').map Proxy.target = m.targets := by
  rw [List.map_set, htarget]
  obtain ⟨hlt, hget⟩ := List.getElem?_eq_some_iff.mp (getElem?_targets hp)
  rw [← hget]
  exact List.set_getElem_self hlt

theorem update (h : Related W T m heap) (hp : m.proxies[j]? = some p)
    (htarget : p'.target = p.target) (hfits : p'.Fits (m.heap.at p.target))
    (hheld : p'.HasHeld W T (m.heap.at p.target))
    (hpassed : ∀ (key : String) (k : ℕ),
      Fields.get (m.heap.at p.target).slots key = some (.ref (.raw k)) →
      p.Passed key k → p'.Passed key k) :
    Related W T { m with proxies := m.proxies.set j p' }
      (heap.set p.target ((p'.view (m.heap.at p.target)).map toCopy)) := by
  have htargets : Augmented.targets ⟨m.heap, m.proxies.set j p'⟩ = m.targets :=
    targets_set hp htarget
  have hlt : p.target < heap.length := by
    rw [h.length_eq]
    exact (h.given_of_mem _ (h.isPrefix.subset (target_mem hp))).2
  have hother : ∀ {j' : ℕ} {q : Proxy π}, (m.proxies.set j p')[j']? = some q →
      (j' = j ∧ q = p') ∨ (m.proxies[j']? = some q ∧ q.target ≠ p.target) := by
    intro j' q hq
    rw [List.getElem?_set] at hq
    by_cases hj : j = j'
    · subst hj
      rw [if_pos rfl, if_pos (List.getElem?_eq_some_iff.mp hp).1] at hq
      exact .inl ⟨rfl, (Option.some.inj hq).symm⟩
    · rw [if_neg hj] at hq
      exact .inr ⟨hq, fun heq => hj (h.proxy_eq hp hq heq.symm).1⟩
  refine ⟨?_, by rw [htargets]; exact h.isPrefix, h.nodup, h.given_of_mem, h.assigned, h.given,
    h.once, fun i hi => ?_, fun j' q hq => ?_, fun i key k hW hget hk => ?_⟩
  · rw [List.length_set]
    exact h.length_eq
  · rw [htargets] at hi
    have hne : i ≠ p.target := fun heq => hi (heq ▸ target_mem hp)
    rw [Heap.at_set hlt, if_neg hne]
    exact h.bare i hi
  · rcases hother hq with ⟨-, rfl⟩ | ⟨hq, hne⟩
    · refine ⟨htarget.symm ▸ hfits, htarget.symm ▸ hheld, ?_⟩
      rw [htarget, Heap.at_set hlt, if_pos rfl]
    · rw [Heap.at_set hlt, if_neg hne]
      exact h.viewed j' q hq
  · rw [htargets] at hk
    obtain ⟨j', q, hq, htargetq, hpassedq⟩ := h.taken i key k hW hget hk
    by_cases hj : j = j'
    · subst hj
      cases Option.some.inj (hp.symm.trans hq)
      refine ⟨j, p', ?_, htarget.trans htargetq, hpassed key k (htargetq ▸ hget) hpassedq⟩
      rw [List.getElem?_set, if_pos rfl, if_pos (List.getElem?_eq_some_iff.mp hp).1]
    · refine ⟨j', q, ?_, htargetq, hpassedq⟩
      rw [List.getElem?_set, if_neg hj]
      exact hq

theorem adopt {k : ℕ} (h : Related W (m.targets ++ [k]) m heap)
    (hpassed : ∀ (i : ℕ) (key : String), ¬ W i →
      Fields.get (m.heap.at i).slots key = some (.ref (.raw k)) →
      ∃ (j : ℕ) (p : Proxy π), m.proxies[j]? = some p ∧ p.target = i ∧ p.Passed key k) :
    Related W (m.targets ++ [k])
      { m with proxies := m.proxies ++ [.create k (m.heap.at k).kind] } heap := by
  have hcreate : (Proxy.create k (m.heap.at k).kind : Proxy π).target = k := by
    cases (m.heap.at k).kind <;> rfl
  have htargets : Augmented.targets ⟨m.heap, m.proxies ++ [.create k (m.heap.at k).kind]⟩
      = m.targets ++ [k] := by
    rw [Augmented.targets, List.map_append, List.map_singleton, hcreate]
    rfl
  obtain ⟨hW, hlt⟩ := h.given_of_mem k (List.mem_append_right _ List.mem_cons_self)
  have hnew : k ∉ m.targets := fun hk =>
    (List.nodup_append'.mp h.nodup).2.2 hk List.mem_cons_self
  have hold : ∀ {j : ℕ} {p : Proxy π}, m.proxies[j]? = some p →
      (m.proxies ++ [Proxy.create k (m.heap.at k).kind])[j]? = some p := fun {j p} hp => by
    rw [List.getElem?_append_left (List.getElem?_eq_some_iff.mp hp).1]
    exact hp
  refine ⟨h.length_eq, htargets ▸ List.prefix_rfl, h.nodup, h.given_of_mem,
    h.assigned, h.given, h.once, fun i hi => ?_, fun j p hp => ?_, fun i key k' hWi hget hk' => ?_⟩
  · rw [htargets] at hi
    exact h.bare i fun hmem => hi (List.mem_append_left _ hmem)
  · rw [List.getElem?_append] at hp
    split at hp
    · exact h.viewed j p hp
    · have hp : p = .create k (m.heap.at k).kind := by
        rw [List.getElem?_singleton] at hp
        split at hp
        · exact (Option.some.inj hp).symm
        · cases hp
      subst hp
      obtain ⟨hnodup, hdense, -⟩ := h.given k hW
      obtain ⟨hfits, hview⟩ := create_view k hnodup hdense
      rw [hcreate]
      refine ⟨hfits, ?_, ?_⟩
      · cases (m.heap.at k).kind with
        | object => exact fun s hs => by cases hs
        | array => exact fun copy hcopy => by cases hcopy
      · rw [hview]
        exact h.bare k hnew
  · rw [htargets] at hk'
    rcases List.mem_append.mp hk' with hk' | hk'
    · obtain ⟨j, p, hp, htarget, hpass⟩ := h.taken i key k' hWi hget hk'
      exact ⟨j, p, hold hp, htarget, hpass⟩
    · rw [List.mem_singleton.mp hk'] at hget ⊢
      obtain ⟨j, p, hp, htarget, hpass⟩ := hpassed i key hWi hget
      exact ⟨j, p, hold hp, htarget, hpass⟩

theorem write (h : Related W T m heap) {i : ℕ} (hi : W i) {node : Node (Value π Handle)}
    (hnode : node.All (Held W T)) :
    Related W T { m with heap := m.heap.set i node } (heap.set i (node.map toCopy)) := by
  have hlt := (h.assigned i hi).1
  have hlt' : i < heap.length := h.length_eq.symm ▸ hlt
  have hat : ∀ k, ¬ W k → Heap.at (m.heap.set i node) k = m.heap.at k := fun k hk => by
    have hne : k ≠ i := fun heq => hk (heq ▸ hi)
    rw [Heap.at_set hlt, if_neg hne]
  have hlength : (m.heap.set i node).length = m.heap.length := List.length_set
  have hmem : ∀ {j : ℕ} {p : Proxy π}, m.proxies[j]? = some p → ¬ W p.target := fun hp =>
    (h.given_of_mem _ (h.isPrefix.subset (target_mem hp))).1
  refine ⟨?_, h.isPrefix, h.nodup, fun k hk => ?_, fun k hk => ?_, fun k hk => ?_,
    fun k k' key key' l hk hk' => ?_, fun k hk => ?_, fun j p hp => ?_, fun k key l hk => ?_⟩
  · rw [List.length_set, List.length_set]
    exact h.length_eq
  · rw [hlength]
    exact h.given_of_mem k hk
  · rw [hlength, Heap.at_set hlt]
    refine ⟨(h.assigned k hk).1, ?_⟩
    split
    · exact hnode
    · exact (h.assigned k hk).2
  · rw [hat k hk, hlength]
    exact h.given k hk
  · rw [hat k hk, hat k' hk']
    exact h.once k k' key key' l hk hk'
  · rw [Heap.at_set hlt', Heap.at_set hlt]
    split
    · rfl
    · exact h.bare k hk
  · have hne : p.target ≠ i := fun heq => hmem hp (heq.symm ▸ hi)
    rw [hat _ (hmem hp), Heap.at_set hlt', if_neg hne]
    exact h.viewed j p hp
  · rw [hat k hk]
    exact h.taken k key l hk

variable {nodes : List (Node (Value π Handle))}

theorem allocateAssigned (h : Related W T m heap)
    (hnodes : ∀ node ∈ nodes, node.All (Held (fun i => W i ∨
      (m.heap.length ≤ i ∧ i < m.heap.length + nodes.length)) T)) :
    Related (fun i => W i ∨ (m.heap.length ≤ i ∧ i < m.heap.length + nodes.length)) T
      { m with heap := m.heap ++ nodes } (heap ++ nodes.map (Node.map toCopy)) := by
  have hat : ∀ i, i < m.heap.length → Heap.at (m.heap ++ nodes) i = m.heap.at i :=
    fun i hi => Heap.at_append_left hi nodes
  have hnew : ∀ i, m.heap.length + nodes.length ≤ i →
      Heap.at (m.heap ++ nodes) i = ⟨none, []⟩ := fun i hi =>
    Heap.at_of_ge (by rw [List.length_append]; exact hi)
  have hold : ∀ (i : ℕ) (key : String) (v : Value π Handle),
      ¬ (W i ∨ (m.heap.length ≤ i ∧ i < m.heap.length + nodes.length)) →
      Fields.get (Heap.at (m.heap ++ nodes) i).slots key = some v →
      Fields.get (m.heap.at i).slots key = some v := by
    intro i key v hi hget
    by_cases hlt : i < m.heap.length
    · rw [hat i hlt] at hget
      exact hget
    · rw [hnew i (by omega)] at hget
      cases hget
  have hlt : ∀ {j : ℕ} {p : Proxy π}, m.proxies[j]? = some p → p.target < m.heap.length :=
    fun hp => (h.given_of_mem _ (h.isPrefix.subset (target_mem hp))).2
  refine ⟨?_, h.isPrefix, h.nodup, fun i hi => ?_, fun i hi => ?_, fun i hi => ?_,
    fun i i' key key' k hi hi' hget hget' => ?_, fun i hi => ?_, fun j p hp => ?_,
    fun i key k hi hget hk => ?_⟩
  · rw [List.length_append, List.length_append, List.length_map, h.length_eq]
  · obtain ⟨hW, hi⟩ := h.given_of_mem i hi
    refine ⟨fun hor => ?_, ?_⟩
    · rcases hor with hor | ⟨hge, -⟩
      · exact hW hor
      · omega
    · rw [List.length_append]
      omega
  · rw [List.length_append]
    rcases hi with hi | ⟨hge, hi⟩
    · obtain ⟨hi, hall⟩ := h.assigned i hi
      rw [hat i hi]
      exact ⟨by omega, fun s hs => (hall s hs).mono (fun _ => .inl) List.prefix_rfl⟩
    · have hlt : i - m.heap.length < nodes.length := by omega
      rw [Heap.at_append_right hge, Heap.at_of_lt hlt]
      exact ⟨hi, hnodes _ (List.getElem_mem hlt)⟩
  · rw [List.length_append]
    by_cases hlt : i < m.heap.length
    · obtain ⟨hnodup, hdense, hall⟩ := h.given i fun hW => hi (.inl hW)
      rw [hat i hlt]
      refine ⟨hnodup, hdense, fun s hs => (hall s hs).mono (fun k hk hor => ?_) List.prefix_rfl
        (by omega)⟩
      rcases hor with hor | ⟨hge, -⟩
      · exact hor
      · omega
    · rw [hnew i (by omega)]
      exact ⟨List.nodup_nil, nofun, nofun⟩
  · exact h.once i i' key key' k (fun hW => hi (.inl hW)) (fun hW => hi' (.inl hW))
      (hold i key _ hi hget) (hold i' key' _ hi' hget')
  · exact Heap.at_append_map h.length_eq nodes fun _ => h.bare i hi
  · rw [hat _ (hlt hp), Heap.at_append_left (h.length_eq.symm ▸ hlt hp)]
    obtain ⟨hfits, hheld, hview⟩ := h.viewed j p hp
    exact ⟨hfits, hheld.mono (fun _ => .inl) List.prefix_rfl, hview⟩
  · exact h.taken i key k (fun hW => hi (.inl hW)) (hold i key _ hi hget) hk

theorem allocateGiven (h : Related W T m heap)
    (hnodes : ∀ node ∈ nodes, node.keys.Nodup ∧ node.Dense ∧
      node.All (Pending W T (m.heap.length + nodes.length)))
    (hnew : ∀ node ∈ nodes, ∀ (key : String) (k : ℕ),
      Fields.get node.slots key = some (.ref (.raw k)) → m.heap.length ≤ k)
    (honce : ∀ (i i' : ℕ) (a b : Node (Value π Handle)) (key key' : String) (k : ℕ),
      nodes[i]? = some a → nodes[i']? = some b →
      Fields.get a.slots key = some (.ref (.raw k)) →
      Fields.get b.slots key' = some (.ref (.raw k)) → i = i' ∧ key = key') :
    Related W T { m with heap := m.heap ++ nodes } (heap ++ nodes.map (Node.map toCopy)) := by
  have hat : ∀ i, i < m.heap.length → Heap.at (m.heap ++ nodes) i = m.heap.at i :=
    fun i hi => Heap.at_append_left hi nodes
  have hlater : ∀ i, m.heap.length ≤ i → Heap.at (m.heap ++ nodes) i = ⟨none, []⟩ ∨
      ∃ node ∈ nodes, nodes[i - m.heap.length]? = some node ∧
        Heap.at (m.heap ++ nodes) i = node := by
    intro i hi
    by_cases hlt : i - m.heap.length < nodes.length
    · rw [Heap.at_append_right hi, Heap.at_of_lt hlt]
      exact .inr ⟨_, List.getElem_mem hlt, List.getElem?_eq_getElem hlt, rfl⟩
    · exact .inl (Heap.at_of_ge (by rw [List.length_append]; omega))
  -- a slot that holds a given node is one of the old nodes, or of the new ones
  have hslot : ∀ (i : ℕ) (key : String) (k : ℕ), ¬ W i →
      Fields.get (Heap.at (m.heap ++ nodes) i).slots key = some (.ref (.raw k)) →
      (k < m.heap.length ∧ Fields.get (m.heap.at i).slots key = some (.ref (.raw k))) ∨
      (m.heap.length ≤ k ∧ m.heap.length ≤ i ∧ ∃ node, nodes[i - m.heap.length]? = some node ∧
        Fields.get node.slots key = some (.ref (.raw k))) := by
    intro i key k hi hget
    by_cases hlt : i < m.heap.length
    · rw [hat i hlt] at hget
      exact .inl ⟨(((h.given i hi).2.2 _ (Fields.mem_of_get hget)).1 k rfl).2, hget⟩
    · rcases hlater i (Nat.not_lt.mp hlt) with hnone | ⟨node, hnode, hi, heq⟩
      · rw [hnone] at hget
        cases hget
      · rw [heq] at hget
        exact .inr ⟨hnew node hnode key k hget, Nat.not_lt.mp hlt, node, hi, hget⟩
  have hlt : ∀ {j : ℕ} {p : Proxy π}, m.proxies[j]? = some p → p.target < m.heap.length :=
    fun hp => (h.given_of_mem _ (h.isPrefix.subset (target_mem hp))).2
  refine ⟨?_, h.isPrefix, h.nodup, fun i hi => ?_, fun i hi => ?_, fun i hi => ?_,
    fun i i' key key' k hi hi' hget hget' => ?_, fun i hi => ?_, fun j p hp => ?_,
    fun i key k hi hget hk => ?_⟩
  · rw [List.length_append, List.length_append, List.length_map, h.length_eq]
  · rw [List.length_append]
    exact ⟨(h.given_of_mem i hi).1, Nat.lt_add_right _ (h.given_of_mem i hi).2⟩
  · rw [List.length_append, hat i (h.assigned i hi).1]
    exact ⟨Nat.lt_add_right _ (h.assigned i hi).1, (h.assigned i hi).2⟩
  · rw [List.length_append]
    by_cases hlt : i < m.heap.length
    · obtain ⟨hnodup, hdense, hall⟩ := h.given i hi
      rw [hat i hlt]
      exact ⟨hnodup, hdense, fun s hs => (hall s hs).mono (fun _ _ => id) List.prefix_rfl
        (Nat.le_add_right _ _)⟩
    · rcases hlater i (Nat.not_lt.mp hlt) with hnone | ⟨node, hnode, -, heq⟩
      · rw [hnone]
        exact ⟨List.nodup_nil, nofun, nofun⟩
      · rw [heq]
        exact hnodes node hnode
  · rcases hslot i key k hi hget with ⟨hk, hget⟩ | ⟨hk, hge, a, ha, hget⟩
    · rcases hslot i' key' k hi' hget' with ⟨-, hget'⟩ | ⟨hk', -⟩
      · exact h.once i i' key key' k hi hi' hget hget'
      · omega
    · rcases hslot i' key' k hi' hget' with ⟨hk', -⟩ | ⟨-, hge', b, hb, hget'⟩
      · omega
      · obtain ⟨heq, hkey⟩ := honce _ _ a b key key' k ha hb hget hget'
        exact ⟨by omega, hkey⟩
  · exact Heap.at_append_map h.length_eq nodes fun _ => h.bare i hi
  · rw [hat _ (hlt hp), Heap.at_append_left (h.length_eq.symm ▸ hlt hp)]
    exact h.viewed j p hp
  · rcases hslot i key k hi hget with ⟨-, hget⟩ | ⟨hge, -⟩
    · exact h.taken i key k hi hget hk
    · have hlt := (h.given_of_mem k (h.isPrefix.subset hk)).2
      omega

end Related

end N8n.AugmentObject
