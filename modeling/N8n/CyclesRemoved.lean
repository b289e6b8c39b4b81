/-
Which graphs have no cycle left after `removeCircularRefs`.

The search goes on from every object that it meets, and every reference that it sees has its turn
once.  A reference that is left leads to an object that was met later, so that no cycle is left of
references that the search sees.

* **`removesCycles_of_enteredOnce`** — where each component is entered by one reference and the
  search sees every cycle, none is left, and what was replaced closed one.
-/
import N8n.RemoveCircularRefs

namespace N8n.CircularReferences

open DeepCopy (Value)
open ObjectMemory (Node)
open Relation (ReflTransGen TransGen)

def unseen (nodes : Heap) (st : RemovalState) : ℕ :=
  ((List.range nodes.length).filter (· ∉ st.seen)).length

/-- The references of `obj` in `K`, and all those of the objects that were met meanwhile, had their
turn, and no others. -/
structure Progress (nodes : Heap) (root obj : ℕ) (K : Sight → Prop) (st : RemovalState)
    (log : List Sight) (st' : RemovalState) (log' : List Sight) : Prop where
  kept : Kept nodes root st' log'
  seen : st.seen <+: st'.seen
  logged : log ⊆ log'
  fresh : ∀ s ∈ log', s ∈ log ∨ s.holder ∉ st.seen ∨ (s.holder = obj ∧ K s)
  done : ∀ s p x, Target nodes s p x → s.holder ∈ st'.seen →
    s.holder ∉ st.seen ∨ (s.holder = obj ∧ K s) → s ∈ log'

variable {nodes : Heap} {root obj depth : ℕ} {st st' st₁ : RemovalState}
  {log log' log₁ : List Sight} {s : Sight} {p : ℕ × String} {x i : ℕ} {K K' : Sight → Prop}

theorem Progress.refl (h : Kept nodes root st log) (hK : ∀ s p x, s.holder = obj →
    Target nodes s p x → ¬ K s) : Progress nodes root obj K st log st log :=
  ⟨h, List.prefix_rfl, List.Subset.refl _, fun _ hs => .inl hs, fun s p x ht hseen hor =>
    (hor.elim (fun hnot => hnot hseen) fun hs => hK s p x hs.1 ht hs.2).elim⟩

theorem Progress.trans (h : Progress nodes root obj K st log st₁ log₁)
    (h' : Progress nodes root obj K' st₁ log₁ st' log') :
    Progress nodes root obj (fun s => K s ∨ K' s) st log st' log' where
  kept := h'.kept
  seen := h.seen.trans h'.seen
  logged := List.Subset.trans h.logged h'.logged
  fresh s hs := by
    rcases h'.fresh s hs with hs | hs | ⟨heq, hs⟩
    · exact (h.fresh s hs).imp_right fun hs => hs.imp_right fun hs => ⟨hs.1, .inl hs.2⟩
    · exact .inr (.inl fun hmem => hs (h.seen.subset hmem))
    · exact .inr (.inr ⟨heq, .inr hs⟩)
  done s p x ht hseen hor := by
    by_cases hmem : s.holder ∈ st₁.seen
    · rcases hor with hnot | ⟨heq, hs | hs⟩
      · exact h'.logged (h.done s p x ht hmem (.inl hnot))
      · exact h'.logged (h.done s p x ht hmem (.inr ⟨heq, hs⟩))
      · exact h'.done s p x ht hseen (.inr ⟨heq, hs⟩)
    · exact h'.done s p x ht hseen (.inl hmem)

theorem Progress.weaken (h : Progress nodes root obj K st log st' log') (hsub : ∀ s, K s → K' s)
    (hK : ∀ s p x, s.holder = obj → Target nodes s p x → K' s → K s) :
    Progress nodes root obj K' st log st' log' where
  kept := h.kept
  seen := h.seen
  logged := h.logged
  fresh s hs := (h.fresh s hs).imp_right fun hs => hs.imp_right fun hs => ⟨hs.1, hsub s hs.2⟩
  done s p x ht hseen hor := h.done s p x ht hseen
    (hor.imp_right fun hs => ⟨hs.1, hK s p x hs.1 ht hs.2⟩)

theorem unseen_le (h : st.seen <+: st'.seen) : unseen nodes st' ≤ unseen nodes st := by
  refine List.Sublist.length_le (List.monotone_filter_right _ fun i hi => ?_)
  exact decide_eq_true fun hmem => of_decide_eq_true hi (h.subset hmem)

theorem unseen_see_lt (hi : i < nodes.length) (hnot : i ∉ st.seen) :
    unseen nodes (st.see i) < unseen nodes st := by
  have hperm : unseen nodes (st.see i)
      = ((List.range nodes.length).filter (· ∉ i :: st.seen)).length := by
    refine congrArg List.length (List.filter_congr fun j _ => decide_eq_decide.mpr ?_)
    rw [RemovalState.see, List.mem_append, List.mem_singleton, List.mem_cons, or_comm]
  rw [hperm]
  exact PathSearch.length_filter_lt (List.mem_range.mpr hi) hnot

theorem exists_foldlM {α : Type} {f : RemovalState → α → Option RemovalState}
    {K : α → Sight → Prop} {l : List α} (hdisjoint : l.Pairwise fun a b => ∀ s, K a s → ¬ K b s)
    (hturn : ∀ a ∈ l, ∀ st log, Kept nodes root st log → obj ∈ st.seen → unseen nodes st ≤ depth →
      (∀ s ∈ log, s.holder = obj → ¬ K a s) →
      ∃ st' log', f st a = some st' ∧ Progress nodes root obj (K a) st log st' log')
    (h : Kept nodes root st log) (hobj : obj ∈ st.seen) (hdepth : unseen nodes st ≤ depth)
    (hfresh : ∀ a ∈ l, ∀ s ∈ log, s.holder = obj → ¬ K a s) :
    ∃ st' log', l.foldlM f st = some st' ∧
      Progress nodes root obj (fun s => ∃ a ∈ l, K a s) st log st' log' := by
  induction l generalizing st log with
  | nil =>
    refine ⟨st, log, rfl, .refl h ?_⟩
    rintro s p x - - ⟨a, ha, -⟩
    cases ha
  | cons a l ih =>
    rw [List.pairwise_cons] at hdisjoint
    obtain ⟨st₁, log₁, hf, hprogress⟩ :=
      hturn a List.mem_cons_self st log h hobj hdepth (hfresh a List.mem_cons_self)
    obtain ⟨st', log', hloop, hrest⟩ := ih hdisjoint.2
      (fun b hb => hturn b (List.mem_cons_of_mem _ hb)) hprogress.kept
      (hprogress.seen.subset hobj) ((unseen_le hprogress.seen).trans hdepth)
      fun b hb s hs heq hK => by
        rcases hprogress.fresh s hs with hs | hs | ⟨-, hKa⟩
        · exact hfresh b (List.mem_cons_of_mem _ hb) s hs heq hK
        · exact hs (heq ▸ hobj)
        · exact hdisjoint.1 b hb s hKa hK
    refine ⟨st', log', ?_, (hprogress.trans hrest).weaken (fun s hs => ?_)
      fun s p x _ _ ⟨b, hb, hK⟩ => ?_⟩
    · rw [List.foldlM_cons, hf]
      exact hloop
    · rcases hs with hs | ⟨b, hb, hs⟩
      · exact ⟨a, List.mem_cons_self, hs⟩
      · exact ⟨b, List.mem_cons_of_mem _ hb, hs⟩
    · rcases List.mem_cons.mp hb with rfl | hb
      · exact .inl hK
      · exact .inr ⟨b, hb, hK⟩

/-- The call for an object that is met has done all its references. -/
def Removes (nodes : Heap) (root depth : ℕ) (remove : ℕ → RemovalState → Option RemovalState) :
    Prop :=
  ∀ i st log, i ∉ st.seen → isTraversableObject st.heap i = true → unseen nodes st ≤ depth →
    (∀ s ∈ log, s.holder ≠ i) → Kept nodes root (st.see i) log →
    ∃ st' log', remove i st = some st' ∧
      Progress nodes root i (fun _ => True) (st.see i) log st' log'

theorem Kept.isTraversableObject_eq (h : Kept nodes root st log) (hi : i < nodes.length) :
    isTraversableObject st.heap i = isTraversableObject nodes i ∧
      isArray st.heap i = isArray nodes i :=
  CircularReferences.isTraversableObject_eq (h.node i hi)

theorem Kept.isTraversable_marker (h : Kept nodes root st log) (hi : nodes.length ≤ i)
    (hlt : i < st.heap.length) : isTraversableObject st.heap i = true := by
  rw [isTraversableObject, h.marker i hi hlt]
  rfl

theorem Kept.exists_slotAt (h : Kept nodes root st log) (ht : Target nodes s p x) :
    ∃ i, slotAt st.heap p = some (.ref i) ∧ isTraversableObject st.heap i = true := by
  rcases h.value p _ ht.ref with hslot | ⟨-, m, -, hslot, hle, hlt, -⟩
  · refine ⟨x, hslot, ?_⟩
    rw [(h.isTraversableObject_eq (lt_of_isTraversableObject ht.traversable)).1]
    exact ht.traversable
  · exact ⟨m, hslot, h.isTraversable_marker hle hlt⟩

variable {remove : ℕ → RemovalState → Option RemovalState}

theorem exists_progress_sight (hremove : Removes nodes root depth remove)
    (hentered : EnteredOnce nodes root) (h : Kept nodes root st log) (hs : s.holder ∈ st.seen)
    (hnew : s ∉ log) (ht : Target nodes s p x) (hdepth : unseen nodes st ≤ depth)
    (hslot : slotAt st.heap p = some (.ref i)) (hi : isTraversableObject st.heap i = true) :
    ∃ st' log', (if i ∈ st.seen then some (st.cut p) else remove i st) = some st' ∧
      Progress nodes root s.holder (· = s) st log st' log' := by
  have hkept := h.advance hentered hs hnew ht
  rw [advance, hslot] at hkept
  dsimp only at hkept
  by_cases hmem : i ∈ st.seen
  · rw [if_pos hmem] at hkept ⊢
    refine ⟨_, _, rfl, hkept, List.prefix_rfl, List.subset_append_left _ _, fun s' hs' => ?_,
      fun s' _ _ _ hseen hor => ?_⟩
    · rcases List.mem_append.mp hs' with hs' | hs'
      · exact .inl hs'
      · obtain rfl := List.mem_singleton.mp hs'
        exact .inr (.inr ⟨rfl, rfl⟩)
    · rcases hor with hnot | ⟨-, rfl⟩
      · exact absurd hseen hnot
      · exact List.mem_append_right _ List.mem_cons_self
  · rw [if_neg hmem] at hkept ⊢
    have hholder : ∀ s' ∈ log ++ [s], s'.holder ≠ i := fun s' hs' heq => by
      rcases List.mem_append.mp hs' with hs' | hs'
      · exact hmem (heq ▸ h.holder s' hs')
      · rw [List.mem_singleton.mp hs'] at heq
        exact hmem (heq ▸ hs)
    obtain ⟨st', log', hcall, hprogress⟩ := hremove i st _ hmem hi hdepth hholder hkept
    have hseen : ∀ c, c ∈ (st.see i).seen ↔ c ∈ st.seen ∨ c = i := fun c => by
      rw [RemovalState.see, List.mem_append, List.mem_singleton]
    refine ⟨st', log', hcall, hprogress.kept, (List.prefix_append _ _).trans hprogress.seen,
      List.Subset.trans (List.subset_append_left _ _) hprogress.logged, fun s' hs' => ?_,
      fun s' p' x' ht' hseen' hor => ?_⟩
    · rcases hprogress.fresh s' hs' with hs' | hs' | ⟨rfl, -⟩
      · rcases List.mem_append.mp hs' with hs' | hs'
        · exact .inl hs'
        · obtain rfl := List.mem_singleton.mp hs'
          exact .inr (.inr ⟨rfl, rfl⟩)
      · exact .inr (.inl fun hc => hs' ((hseen _).mpr (.inl hc)))
      · exact .inr (.inl hmem)
    · rcases hor with hnot | ⟨-, rfl⟩
      · refine hprogress.done s' p' x' ht' hseen' ?_
        by_cases heq : s'.holder = i
        · exact .inr ⟨heq, trivial⟩
        · exact .inl fun hc => ((hseen _).mp hc).elim hnot heq
      · exact hprogress.logged (List.mem_append_right _ List.mem_cons_self)

variable {v : Value Primitive}

theorem Kept.slotAt_eq (h : Kept nodes root st log)
    (hv : slotAt nodes p = some v) (hnot : ∀ i, v = .ref i → isTraversableObject nodes i = false) :
    slotAt st.heap p = some v := by
  rcases h.value p v hv with hslot | ⟨j, _, rfl, -, -, -, -, htrav, -⟩
  · exact hslot
  · rw [hnot j rfl] at htrav
    cases htrav

theorem exists_removeInItem (hremove : Removes nodes root depth remove)
    (hentered : EnteredOnce nodes root) (h : Kept nodes root st log) (hobj : obj ∈ st.seen)
    (hdepth : unseen nodes st ≤ depth) {key index : String} {array : ℕ}
    (hkey : slotAt nodes (obj, key) = some (.ref array)) (harray : isArray nodes array = true) (hv : slotAt nodes (array, index) = some v)
    (hclosed : ∀ i, v = .ref i → i < nodes.length)
    (hfresh : ∀ s ∈ log, s.holder = obj → s ≠ ⟨obj, key, some index⟩) :
    ∃ st' log', removeInItem remove array st index = some st' ∧
      Progress nodes root obj (· = ⟨obj, key, some index⟩) st log st' log' := by
  have hplace : Sight.place nodes ⟨obj, key, some index⟩ = some (array, index) := by
    rw [Sight.place, hkey]
    exact if_pos harray
  by_cases htrav : ∃ i, v = .ref i ∧ isTraversableObject nodes i = true
  · obtain ⟨x, rfl, hx⟩ := htrav
    have ht : Target nodes ⟨obj, key, some index⟩ (array, index) x := ⟨hplace, hv, hx⟩
    obtain ⟨i, hslot, hi⟩ := h.exists_slotAt ht
    have hnew : (⟨obj, key, some index⟩ : Sight) ∉ log := fun hmem => hfresh _ hmem rfl rfl
    obtain ⟨st', log', hcall, hprogress⟩ :=
      exists_progress_sight hremove hentered h hobj hnew ht hdepth hslot hi
    refine ⟨st', log', ?_, hprogress⟩
    rw [removeInItem, hslot]
    simp only [hi, if_true]
    exact hcall
  · push Not at htrav
    have hnot : ∀ i, v = .ref i → isTraversableObject nodes i = false := fun i hi =>
      Bool.not_eq_true _ ▸ htrav i hi
    refine ⟨st, log, ?_, .refl h fun s p x _ ht hs => ?_⟩
    · rw [removeInItem, h.slotAt_eq hv hnot]
      cases v with
      | prim p => rfl
      | ref i =>
        have hfalse := hnot i rfl
        have hmem : i ∉ st.seen := fun hmem => by
          rw [(h.seen i hmem (hclosed i rfl)).1] at hfalse
          cases hfalse
        rw [← (h.isTraversableObject_eq (hclosed i rfl)).1] at hfalse
        dsimp only
        rw [if_neg hmem, hfalse]
        rfl
    · subst hs
      obtain rfl := Option.some.inj (ht.place.symm.trans hplace)
      obtain rfl := Option.some.inj (ht.ref.symm.trans hv)
      exact htrav x rfl ht.traversable

theorem Target.cases (ht : Target nodes s p x)
    (hv : slotAt nodes (s.holder, s.key) = some v) : (s.index = none ∧ v = .ref x) ∨
    ∃ index a, s.index = some index ∧ v = .ref a ∧ isArray nodes a = true ∧ p = (a, index) := by
  rcases Sight.place_cases ht.place with ⟨hindex, rfl⟩ | ⟨index, a, hindex, hslot, harray, rfl⟩
  · exact .inl ⟨hindex, Option.some.inj (hv.symm.trans ht.ref)⟩
  · exact .inr ⟨index, a, hindex, Option.some.inj (hv.symm.trans hslot), harray, rfl⟩

theorem isArray_eq_false (h : isTraversableObject nodes i = true) : isArray nodes i = false := by
  rw [isTraversableObject, Option.any_eq_true] at h
  obtain ⟨node, hnode, hlength⟩ := h
  rw [isArray, hnode]
  exact Option.isSome_eq_false_iff.mpr ((Bool.and_eq_true _ _ ▸ hlength).1)

/-- What is needed of a graph: `Graph.nodup` and `Graph.closed`. -/
structure Sound (nodes : Heap) : Prop where
  nodup : ∀ node ∈ nodes, node.keys.Nodup
  closed : ∀ p i, slotAt nodes p = some (.ref i) → i < nodes.length

theorem exists_removeInEntry (hsound : Sound nodes) (hremove : Removes nodes root depth remove)
    (hentered : EnteredOnce nodes root) (h : Kept nodes root st log) (hobj : obj ∈ st.seen)
    (hlt : obj < nodes.length) (hobject : isArray nodes obj = false)
    (hdepth : unseen nodes st ≤ depth) {entry : String × Value Primitive}
    (hentry : slotAt nodes (obj, entry.1) = some entry.2)
    (hfresh : ∀ s ∈ log, s.holder = obj → s.key ≠ entry.1) :
    ∃ st' log', removeInEntry remove obj st entry = some st' ∧
      Progress nodes root obj (·.key = entry.1) st log st' log' := by
  obtain ⟨key, v⟩ := entry
  dsimp only at hentry hfresh ⊢
  cases v with
  | prim value =>
    refine ⟨st, log, rfl, .refl h fun s p x hholder ht hkey => ?_⟩
    rw [← hholder, ← hkey] at hentry
    rcases ht.cases hentry with ⟨-, hv⟩ | ⟨_, _, -, hv, -, -⟩ <;> cases hv
  | ref i =>
    have hi := hsound.closed _ i hentry
    have htargets : ∀ s p x, s.holder = obj → Target nodes s p x → s.key = key →
        (s.index = none ∧ x = i) ∨ ∃ index, s.index = some index ∧ isArray nodes i = true ∧
          p = (i, index) := fun s p x hholder ht hkey => by
      rw [← hholder, ← hkey] at hentry
      rcases ht.cases hentry with ⟨hindex, hv⟩ | ⟨index, a, hindex, hv, harray, hp⟩
      · cases hv
        exact .inl ⟨hindex, rfl⟩
      · cases hv
        exact .inr ⟨index, hindex, harray, hp⟩
    simp only [removeInEntry, h.isTraversableObject_eq hi]
    cases htrav : isTraversableObject nodes i with
    | true =>
      have ht : Target nodes ⟨obj, key, none⟩ (obj, key) i := ⟨rfl, hentry, htrav⟩
      have hnew : (⟨obj, key, none⟩ : Sight) ∉ log := fun hmem => hfresh _ hmem rfl rfl
      have hslot : slotAt st.heap (obj, key) = some (.ref i) :=
        (not_imp_comm.mp (h.direct (obj, key) hlt hobject) hnew).trans hentry
      obtain ⟨st', log', hcall, hprogress⟩ := exists_progress_sight hremove hentered h hobj hnew ht
        hdepth hslot ((h.isTraversableObject_eq hi).1.trans htrav)
      refine ⟨st', log', hcall, hprogress.weaken (fun s hs => hs ▸ rfl) fun s p x hs ht' hkey => ?_⟩
      rcases htargets s p x hs ht' hkey with ⟨hindex, -⟩ | ⟨_, -, harray, -⟩
      · obtain ⟨holder, key', index⟩ := s
        subst hs hkey hindex
        rfl
      · rw [isArray_eq_false htrav] at harray
        cases harray
    | false =>
      cases harray : isArray nodes i with
      | true =>
        obtain ⟨node, hnode⟩ : ∃ node, nodes[i]? = some node := ⟨_, List.getElem?_eq_getElem hi⟩
        obtain ⟨node', hnode', hsame⟩ := Option.map_eq_some_iff.mp
          ((h.node i hi).trans (by rw [hnode]; rfl))
        rw [hnode', Option.map_some, Option.getD_some, (Prod.mk.inj hsame).2]
        have hnodup : node.keys.Nodup := hsound.nodup node (List.mem_of_getElem? hnode)
        obtain ⟨st', log', hloop, hprogress⟩ := exists_foldlM (f := removeInItem remove i)
          (K := fun index => (· = ⟨obj, key, some index⟩)) (l := node.keys)
          (hnodup.imp fun hne s hs hs' => hne (by cases hs.symm.trans hs'; rfl))
          (fun index hindex st₁ log₁ h₁ hobj₁ hdepth₁ hfresh₁ => by
            obtain ⟨v, hv⟩ := Option.isSome_iff_exists.mp (Fields.get_isSome.mpr hindex)
            have hslot : slotAt nodes (i, index) = some v := by
              rw [slotAt, hnode]
              exact hv
            exact exists_removeInItem hremove hentered h₁ hobj₁ hdepth₁ hentry harray hslot
              (fun j hj => hsound.closed _ j (hj ▸ hslot)) hfresh₁)
          h hobj hdepth fun index _ s hs hholder hK => hfresh s hs hholder (hK ▸ rfl)
        refine ⟨st', log', hloop, hprogress.weaken ?_ fun s p x hs ht hkey => ?_⟩
        · rintro s ⟨index, -, rfl⟩
          rfl
        · rcases htargets s p x hs ht hkey with ⟨-, rfl⟩ | ⟨index, hindex, -, rfl⟩
          · have htrue := ht.traversable
            rw [htrav] at htrue
            cases htrue
          · obtain ⟨_, hget, hkeys⟩ := Option.bind_eq_some_iff.mp ht.ref
            obtain rfl := Option.some.inj (hnode.symm.trans hget)
            refine ⟨index, Fields.get_isSome.mp (by rw [hkeys]; rfl), ?_⟩
            obtain ⟨holder, key', index'⟩ := s
            subst hs hkey hindex
            rfl
      | false =>
        refine ⟨st, log, rfl, .refl h fun s p x hs ht hkey => ?_⟩
        rcases htargets s p x hs ht hkey with ⟨-, rfl⟩ | ⟨_, -, hisArray, -⟩
        · have htrue := ht.traversable
          rw [htrav] at htrue
          cases htrue
        · rw [harray] at hisArray
          cases hisArray

theorem exists_removeInEntries (hsound : Sound nodes) (hremove : Removes nodes root depth remove)
    (hentered : EnteredOnce nodes root) (h : Kept nodes root st log) (hobj : obj ∈ st.seen)
    (hlt : obj < nodes.length) (hobject : isArray nodes obj = false)
    (hdepth : unseen nodes st ≤ depth) (hfresh : ∀ s ∈ log, s.holder ≠ obj) :
    ∃ st' log', removeInEntries remove obj st = some st' ∧
      Progress nodes root obj (fun _ => True) st log st' log' := by
  obtain ⟨node, hnode⟩ : ∃ node, nodes[obj]? = some node := ⟨_, List.getElem?_eq_getElem hlt⟩
  have hnodup : node.keys.Nodup := hsound.nodup node (List.mem_of_getElem? hnode)
  have hslots : st.heap[obj]?.map Node.slots = some node.slots := by
    obtain ⟨node', hnode', hsame⟩ := Option.map_eq_some_iff.mp
      ((h.node obj hlt).trans (by rw [hnode]; rfl))
    obtain ⟨-, hkeys⟩ := Prod.mk.inj hsame
    rw [hnode', Option.map_some]
    refine congrArg some (Fields.ext_get (show node'.keys.Nodup from hkeys ▸ hnodup) hkeys fun key => ?_)
    have hslot := not_imp_comm.mp (h.direct (obj, key) hlt hobject) fun hmem => hfresh _ hmem rfl
    rwa [slotAt, slotAt, hnode', hnode] at hslot
  obtain ⟨st', log', hloop, hprogress⟩ := exists_foldlM (f := removeInEntry remove obj)
    (K := fun entry => (·.key = entry.1)) (l := node.slots)
    ((List.pairwise_map.mp hnodup).imp fun hne s hs hs' => hne (hs.symm.trans hs'))
    (fun entry hmem st₁ log₁ h₁ hobj₁ hdepth₁ hfresh₁ => by
      have hentry : slotAt nodes (obj, entry.1) = some entry.2 := by
        rw [slotAt, hnode]
        exact Fields.get_of_mem hnodup hmem
      exact exists_removeInEntry hsound hremove hentered h₁ hobj₁ hlt hobject hdepth₁ hentry hfresh₁)
    h hobj hdepth fun entry _ s hs hholder _ => hfresh s hs hholder
  refine ⟨st', log', ?_, hprogress.weaken (fun _ _ => trivial) fun s p x hholder ht _ => ?_⟩
  · rw [removeInEntries, hslots]
    exact hloop
  · have hsome : ∃ v, slotAt nodes (s.holder, s.key) = some v := by
      rcases Sight.place_cases ht.place with ⟨-, rfl⟩ | ⟨_, _, -, hslot, -, -⟩
      · exact ⟨_, ht.ref⟩
      · exact ⟨_, hslot⟩
    obtain ⟨v, hv⟩ := hsome
    obtain ⟨node', hnode', hget⟩ := Option.bind_eq_some_iff.mp hv
    rw [hholder] at hnode'
    obtain rfl := Option.some.inj (hnode.symm.trans hnode')
    exact ⟨_, Fields.mem_of_get hget, rfl⟩

theorem marker_done (hi : nodes.length ≤ i) (h : Kept nodes root (st.see i) log) :
    ∃ st' log', removeCircularRefs (depth + 1) i st = some st' ∧
      Progress nodes root i (fun _ => True) (st.see i) log st' log' := by
  refine ⟨st.see i, log, ?_, .refl h fun s p x hs ht _ => ?_⟩
  · have hmarker := h.marker i hi (h.bound i (List.mem_append_right _ List.mem_cons_self))
    rw [removeCircularRefs, removeInEntries, hmarker]
    rfl
  · exact Nat.not_lt.mpr hi (hs ▸ ht.holder_lt)

/-- **Every call returns**: each goes on from an object less, and those for new objects end there. -/
theorem removes_removeCircularRefs (hsound : Sound nodes) (hentered : EnteredOnce nodes root) :
    Removes nodes root depth (removeCircularRefs (depth + 1)) := by
  induction depth with
  | zero =>
    intro i st log hi htrav hdepth hholder h
    have hge : nodes.length ≤ i := by
      by_contra hlt
      exact absurd (unseen_see_lt (Nat.not_le.mp hlt) hi) (by omega)
    exact marker_done hge h
  | succ depth ih =>
    intro i st log hi htrav hdepth hholder h
    by_cases hlt : i < nodes.length
    · have hmem : i ∈ (st.see i).seen := List.mem_append_right _ List.mem_cons_self
      have hless := unseen_see_lt hlt hi
      exact exists_removeInEntries hsound ih hentered h hmem hlt
        (isArray_eq_false (h.seen i hmem hlt).1) (by omega) hholder
    · exact marker_done (Nat.not_lt.mp hlt) h

/-- No cycle is left that the object leads to, and only references were replaced that closed one. -/
structure CyclesCut (nodes heap : Heap) (obj : ℕ) : Prop where
  acyclic : ∀ i, Leads heap obj i → ¬ TransGen (fun i j => j ∈ refs heap i) i i
  node : ∀ i < nodes.length, heap[i]?.map (fun node => (node.length, node.keys)) =
    nodes[i]?.map fun node => (node.length, node.keys)
  value : ∀ p v, slotAt nodes p = some v → slotAt heap p = some v ∨ ∃ j m, v = .ref j ∧
    Leads nodes j p.1 ∧ slotAt heap p = some (.ref m) ∧ nodes.length ≤ m ∧ heap[m]? = some cutMarker

/-- The call returns, with more calls in each other by one than there are objects and arrays. -/
def RemovesCycles (g : Graph) (obj : ℕ) : Prop :=
  ∃ st, removeCircularRefs (g.nodes.length + 1) obj ⟨g.nodes, []⟩ = some st ∧
    CyclesCut g.nodes st.heap obj

/-- The search comes to every object of a cycle, and no array of a cycle is in an array. -/
def CyclesSeen (nodes : Heap) (obj : ℕ) : Prop :=
  ∀ i j, Leads nodes obj i → j ∈ refs nodes i → Leads nodes j i →
    if isArray nodes i then isArray nodes j = false else ReflTransGen (Sees nodes) obj i

theorem Kept.exists_slot (h : Kept nodes root st log) (hsound : Sound nodes) {j k : ℕ}
    (hj : j ∈ refs st.heap i) (hk : k ∈ refs st.heap j) :
    ∃ key, slotAt st.heap (i, key) = some (.ref j) ∧ slotAt nodes (i, key) = some (.ref j) := by
  have hold : ∀ {i j}, j ∈ refs st.heap i → i < nodes.length := fun {i j} hj => by
    by_contra hge
    rcases lt_or_ge i st.heap.length with hlt | hge'
    · rw [refs, h.marker i (Nat.not_lt.mp hge) hlt] at hj
      cases hj
    · rw [refs, List.getElem?_eq_none hge'] at hj
      cases hj
  have hlt := hold hj
  obtain ⟨node, hnode⟩ : ∃ node, nodes[i]? = some node := ⟨_, List.getElem?_eq_getElem hlt⟩
  obtain ⟨node', hnode', hsame⟩ := Option.map_eq_some_iff.mp
    ((h.node i hlt).trans (by rw [hnode]; rfl))
  obtain ⟨-, hkeys⟩ := Prod.mk.inj hsame
  have hnodup : node'.keys.Nodup := hkeys ▸ hsound.nodup node (List.mem_of_getElem? hnode)
  obtain ⟨⟨key, v⟩, hmem, hv⟩ := (mem_refs hnode').mp hj
  dsimp only at hv
  subst hv
  have hslot : slotAt st.heap (i, key) = some (.ref j) := by
    rw [slotAt, hnode']
    exact Fields.get_of_mem hnodup hmem
  obtain ⟨v, hv⟩ := Option.isSome_iff_exists.mp (Fields.get_isSome.mpr
    (show key ∈ node.keys from hkeys ▸ List.mem_map_of_mem hmem))
  have hold' : slotAt nodes (i, key) = some v := by
    rw [slotAt, hnode]
    exact hv
  refine ⟨key, hslot, ?_⟩
  rcases h.value (i, key) v hold' with heq | ⟨_, m, -, heq, hle, -⟩
  · rw [hold', ← heq, hslot]
  · cases hslot.symm.trans heq
    exact absurd (hold hk) (Nat.not_lt.mpr hle)

theorem Kept.leads (h : Kept nodes root st log) (hsound : Sound nodes) {i j k : ℕ}
    (hij : Leads st.heap i j) (hk : k ∈ refs st.heap j) : Leads nodes i j := by
  induction hij generalizing k with
  | refl => exact .refl
  | tail _ hstep ih =>
    obtain ⟨key, -, hslot⟩ := h.exists_slot hsound hstep hk
    exact (ih hstep).tail (mem_refs_of_slotAt hslot)

/-- All references that the search sees had their turn. -/
structure Finished (nodes : Heap) (obj : ℕ) (st : RemovalState) (log : List Sight) : Prop where
  kept : Kept nodes obj st log
  met : obj ∈ st.seen
  all : ∀ s p x, Target nodes s p x → s.holder ∈ st.seen → s ∈ log

theorem Finished.mem_seen (h : Finished nodes obj st log) (hi : ReflTransGen (Sees nodes) obj i) :
    i ∈ st.seen := by
  induction hi with
  | refl => exact h.met
  | tail _ hstep ih =>
    obtain ⟨s, p, rfl, ht⟩ := hstep
    exact (h.kept.target s (h.all s p _ ht ih) p _ ht).1

/-- What a path of a cycle comes to: an object that was met later, or an array in a slot of one. -/
def Later (nodes : Heap) (st : RemovalState) (x z : ℕ) : Prop :=
  if isArray nodes z then ∃ w key, w ∈ st.seen ∧ st.seen.idxOf x ≤ st.seen.idxOf w ∧
    slotAt nodes (w, key) = some (.ref z)
  else z ∈ st.seen ∧ st.seen.idxOf x ≤ st.seen.idxOf z

theorem isTraversableObject_of_mem_refs {heap : Heap} {k : ℕ} (hk : k ∈ refs heap i)
    (h : isArray heap i = false) : isTraversableObject heap i = true := by
  rcases hnode : heap[i]? with _ | node
  · rw [refs, hnode] at hk
    cases hk
  · rw [isArray, hnode] at h
    obtain ⟨slot, hslot, -⟩ := (mem_refs hnode).mp hk
    rw [isTraversableObject, hnode]
    exact Bool.and_eq_true_iff.mpr ⟨Option.isSome_eq_false_iff.mp h,
      Bool.not_eq_true' _ ▸ List.isEmpty_eq_false_iff_exists_mem.mpr ⟨slot, hslot⟩⟩

theorem Finished.exists_step (h : Finished nodes obj st log) (hsound : Sound nodes)
    (hcycles : CyclesSeen nodes obj) {z z' : ℕ} (hz : Leads st.heap obj z)
    (hstep : z' ∈ refs st.heap z) (hback : Leads st.heap z' z) :
    ∃ key, slotAt st.heap (z, key) = some (.ref z') ∧ slotAt nodes (z, key) = some (.ref z') ∧
      (isArray nodes z' = false → isTraversableObject nodes z' = true) ∧
      if isArray nodes z then isArray nodes z' = false else ReflTransGen (Sees nodes) obj z := by
  obtain ⟨k, hk⟩ : ∃ k, k ∈ refs st.heap z' := by
    rcases hback.cases_head with rfl | ⟨k, hk, -⟩
    · exact ⟨_, hstep⟩
    · exact ⟨k, hk⟩
  obtain ⟨key, hslot, hold⟩ := h.kept.exists_slot hsound hstep hk
  obtain ⟨htrav, harray⟩ := h.kept.isTraversableObject_eq (hsound.closed _ z' hold)
  refine ⟨key, hslot, hold, fun hobject => ?_, hcycles z z' (h.kept.leads hsound hz hstep)
    (mem_refs_of_slotAt hold) (h.kept.leads hsound hback hstep)⟩
  rw [← htrav]
  exact isTraversableObject_of_mem_refs hk (harray.trans hobject)

theorem Finished.later_step (h : Finished nodes obj st log) (hsound : Sound nodes)
    (hcycles : CyclesSeen nodes obj) {z z' : ℕ} (hz : Leads st.heap obj z)
    (hx : Later nodes st x z) (hstep : z' ∈ refs st.heap z) (hback : Leads st.heap z' z) :
    Later nodes st x z' ∧ (isArray nodes z' = false → st.seen.idxOf x < st.seen.idxOf z') := by
  obtain ⟨key, hslot, hold, htrav, hcycle⟩ := h.exists_step hsound hcycles hz hstep hback
  -- an object that follows was met later than the holder of the reference
  have hnext : ∀ s, Target nodes s (z, key) z' → isArray nodes z' = false → s.holder ∈ st.seen →
      st.seen.idxOf x ≤ st.seen.idxOf s.holder →
      Later nodes st x z' ∧ (isArray nodes z' = false → st.seen.idxOf x < st.seen.idxOf z') :=
    fun s ht hobject hs hle => by
      obtain ⟨hmem, hless⟩ := h.kept.target s (h.all s _ _ ht hs) _ _ ht
      have hlt := lt_of_le_of_lt hle (hless hslot)
      refine ⟨?_, fun _ => hlt⟩
      rw [Later, hobject]
      exact ⟨hmem, hlt.le⟩
  rw [Later] at hx
  split at hx
  · next harray =>
    obtain ⟨w, slot, hw, hle, hwslot⟩ := hx
    rw [if_pos harray] at hcycle
    refine hnext ⟨w, slot, some key⟩ ⟨?_, hold, htrav hcycle⟩ hcycle hw hle
    rw [Sight.place, hwslot]
    exact if_pos harray
  · cases hobject : isArray nodes z' with
    | true =>
      refine ⟨?_, fun hfalse => by cases hfalse⟩
      rw [Later, hobject]
      exact ⟨z, key, hx.1, hx.2, hold⟩
    | false =>
      have hlater := hnext ⟨z, key, none⟩ ⟨rfl, hold, htrav hobject⟩ hobject hx.1 hx.2
      exact ⟨hlater.1, fun _ => hlater.2 hobject⟩

theorem Finished.later (h : Finished nodes obj st log) (hsound : Sound nodes)
    (hcycles : CyclesSeen nodes obj) (hobj : Leads st.heap obj x) (hx : Later nodes st x x) {z : ℕ}
    (hz : Leads st.heap x z) (hback : Leads st.heap z x) : Later nodes st x z := by
  induction hz with
  | refl => exact hx
  | tail hpath hstep ih =>
    exact (h.later_step hsound hcycles (hobj.trans hpath) (ih (.head hstep hback)) hstep
      (hback.trans hpath)).1

theorem Finished.not_cycle (h : Finished nodes obj st log) (hsound : Sound nodes)
    (hcycles : CyclesSeen nodes obj) (hobj : Leads st.heap obj x) (hobject : isArray nodes x = false) :
    ¬ TransGen (fun i j => j ∈ refs st.heap i) x x := by
  intro hcycle
  have hx : Later nodes st x x := by
    obtain ⟨z, hstep, hback⟩ := TransGen.head'_iff.mp hcycle
    obtain ⟨-, -, -, -, hseen⟩ := h.exists_step hsound hcycles hobj hstep hback
    rw [hobject] at hseen
    rw [Later, hobject]
    exact ⟨h.mem_seen hseen, le_rfl⟩
  obtain ⟨z, hpath, hstep⟩ := TransGen.tail'_iff.mp hcycle
  have hz := h.later hsound hcycles hobj hx hpath (.single hstep)
  exact absurd ((h.later_step hsound hcycles (hobj.trans hpath) hz hstep hpath).2 hobject)
    (lt_irrefl _)

theorem Finished.cyclesCut (h : Finished nodes obj st log) (hsound : Sound nodes)
    (hcycles : CyclesSeen nodes obj) : CyclesCut nodes st.heap obj where
  acyclic i hi hcycle := by
    cases hobject : isArray nodes i with
    | false => exact h.not_cycle hsound hcycles hi hobject hcycle
    | true =>
      obtain ⟨j, hstep, hback⟩ := TransGen.head'_iff.mp hcycle
      obtain ⟨-, -, -, -, hnext⟩ := h.exists_step hsound hcycles hi hstep hback
      rw [hobject] at hnext
      exact h.not_cycle hsound hcycles (hi.tail hstep) hnext (.tail' hback hstep)
  node := h.kept.node
  value p v hv := (h.kept.value p v hv).imp_right fun ⟨j, m, hj, hslot, hle, hlt, _, _, hleads⟩ =>
    ⟨j, m, hj, hleads, hslot, hle, h.kept.marker m hle hlt⟩

theorem Graph.sound (g : Graph) : Sound g.nodes where
  nodup := g.nodup
  closed p i h := by
    obtain ⟨node, hnode, hget⟩ := Option.bind_eq_some_iff.mp h
    exact g.closed node (List.mem_of_getElem? hnode) _ (Fields.mem_of_get hget) i rfl

theorem Kept.start (hobj : isTraversableObject nodes obj = true) : Kept nodes obj ⟨nodes, [obj]⟩ [] where
  length := le_rfl
  marker i hi hlt := absurd hi (Nat.not_le.mpr hlt)
  node _ _ := rfl
  value _ _ hv := .inl hv
  direct _ _ _ hne := absurd rfl hne
  once := List.nodup_singleton obj
  bound c hc := by
    rw [List.mem_singleton.mp hc]
    exact lt_of_isTraversableObject hobj
  seen c hc _ := by
    rw [List.mem_singleton.mp hc]
    exact ⟨hobj, .refl⟩
  entered c hc _ := by
    rw [List.mem_singleton.mp hc]
    exact .inl .refl
  holder s hs := absurd hs List.not_mem_nil
  target s hs := absurd hs List.not_mem_nil

/-- **Where each component is entered by one reference, and the search sees every cycle**, none is
left, and what was replaced closed one. -/
theorem removesCycles_of_enteredOnce (g : Graph) (obj : ℕ) (hobj : obj < g.nodes.length)
    (hobject : isArray g.nodes obj = false) (hentered : EnteredOnce g.nodes obj)
    (hcycles : CyclesSeen g.nodes obj) : RemovesCycles g obj := by
  cases htrav : isTraversableObject g.nodes obj with
  | true =>
    obtain ⟨st, log, hcall, hprogress⟩ := removes_removeCircularRefs g.sound hentered obj
      ⟨g.nodes, []⟩ [] List.not_mem_nil htrav
      (show unseen g.nodes ⟨g.nodes, []⟩ ≤ g.nodes.length from
        (List.length_filter_le _ _).trans (List.length_range ▸ le_rfl))
      (fun s hs => absurd hs List.not_mem_nil) (.start htrav)
    refine ⟨st, hcall, Finished.cyclesCut ⟨hprogress.kept, ?_, fun s p x ht hs => ?_⟩ g.sound hcycles⟩
    · exact hprogress.seen.subset List.mem_cons_self
    · refine hprogress.done s p x ht hs ?_
      by_cases heq : s.holder = obj
      · exact .inr ⟨heq, trivial⟩
      · exact .inl fun hmem => heq (List.mem_singleton.mp hmem)
  | false =>
    have hslots : g.nodes[obj]?.map Node.slots = some [] := by
      obtain ⟨node, hnode⟩ : ∃ node, g.nodes[obj]? = some node := ⟨_, List.getElem?_eq_getElem hobj⟩
      rw [isArray, hnode] at hobject
      rw [isTraversableObject, hnode] at htrav
      rw [hnode]
      have hempty := Bool.and_eq_false_imp.mp htrav (Option.isSome_eq_false_iff.mp hobject)
      exact congrArg some (List.isEmpty_iff.mp ((Bool.not_eq_false' _).mp hempty))
    have hrefs : refs g.nodes obj = [] := by
      rw [refs, hslots]
      rfl
    refine ⟨⟨g.nodes, [obj]⟩, ?_, fun i hi hcycle => ?_, fun _ _ => rfl, fun _ _ => .inl⟩
    · rw [removeCircularRefs, removeInEntries]
      show ((g.nodes[obj]?.map Node.slots).getD []).foldlM _ _ = _
      rw [hslots]
      rfl
    · have hnone : ∀ j, j ∉ refs g.nodes obj := fun j hj => by
        rw [hrefs] at hj
        cases hj
      rcases hi.cases_head with rfl | ⟨j, hj, -⟩
      · obtain ⟨j, hj, -⟩ := TransGen.head'_iff.mp hcycle
        exact hnone j hj
      · exact hnone j hj

def selfGraph : Graph where
  nodes := [⟨none, [("self", .ref 0)]⟩]
  root := .ref 0
  nodup := by decide
  items := by decide
  closed := by simp
  rooted := by simp

theorem removesCycles_selfGraph : RemovesCycles selfGraph 0 := by
  have hlt : ∀ i, i < selfGraph.nodes.length → i = 0 := fun i hi => Nat.lt_one_iff.mp hi
  refine removesCycles_of_enteredOnce selfGraph 0 (by decide) (by decide) ?_ ?_
  · rintro s s' y - - ⟨p, x, ht, -, hnot⟩ -
    refine absurd ?_ hnot
    rw [hlt _ ht.holder_lt, hlt x (lt_of_isTraversableObject ht.traversable)]
  · intro i j _ hj _
    rcases i with _ | i
    · exact ReflTransGen.refl
    · cases hj

/-- `{ a: x, b: x }`, where `x` is an object with a property. -/
def sharedGraph : Graph where
  nodes := [⟨none, [("a", .ref 1), ("b", .ref 1)]⟩, ⟨none, [("v", .prim (.number "1"))]⟩]
  root := .ref 0
  nodup := by decide
  items := by decide
  closed := by simp [or_imp, forall_and]
  rooted := by simp

theorem not_removesCycles_sharedGraph : ¬ RemovesCycles sharedGraph 0 := by
  rintro ⟨st, hst, hcut⟩
  cases hst
  rcases hcut.value (0, "b") (.ref 1) rfl with heq | ⟨j, m, hj, hleads, -⟩
  · cases heq
  · cases hj
    rcases hleads.cases_head with heq | ⟨k, hk, -⟩
    · cases heq
    · cases hk

end N8n.CircularReferences
