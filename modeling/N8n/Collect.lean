/-
A recursive search that collects what it comes across in one set.

The search of a node goes through what the node leads to; what is not in the set is added to it
and searched in turn.  The set is shared by all calls, so a cycle ends the search.

* `exists_collect_nil` — **started with the empty set, the search collects exactly what some
  path of the node comes across**.
-/
import Mathlib.Logic.Relation
import Mathlib.Data.List.Nodup
import Mathlib.Data.List.Perm.Subperm

namespace N8n

variable {ε α ν : Type} [DecidableEq α]

/-- `set.add(a)`, for a set as the list of its elements in the order they were added. -/
def setAdd (as : List α) (a : α) : List α := if a ∈ as then as else as ++ [a]

theorem mem_setAdd {as : List α} {a x : α} : x ∈ setAdd as a ↔ x ∈ as ∨ x = a := by
  rw [setAdd]
  split
  · exact ⟨.inl, fun h => h.elim id fun heq => heq ▸ by assumption⟩
  · rw [List.mem_append, List.mem_singleton]

theorem nodup_setAdd {as : List α} (h : as.Nodup) (a : α) : (setAdd as a).Nodup := by
  rw [setAdd]
  split
  · exact h
  · rename_i hnot
    refine List.nodup_append.mpr ⟨h, List.nodup_singleton a, fun x hx y hy => ?_⟩
    rw [List.mem_singleton.mp hy]
    exact fun heq => hnot (heq ▸ hx)

/-- The search of a node, calls at most so many deep. -/
def collect (next : ν → Except ε (List α)) (target : α → ν) (overflow : ε) :
    ℕ → ν → List α → Except ε (List α)
  | 0, _, _ => .error overflow
  | depth + 1, node, seen => do
    let found ← next node
    found.foldlM (fun seen a =>
      if a ∈ seen then .ok seen
      else collect next target overflow depth (target a) (seen ++ [a])) seen

/-- A node leads to another one along a path. -/
def Leads (succ : ν → List α) (target : α → ν) : ν → ν → Prop :=
  Relation.ReflTransGen fun m n => ∃ a ∈ succ m, target a = n

omit [DecidableEq α] in
theorem Leads.head {succ : ν → List α} {target : α → ν} {m n : ν} {a : α} (ha : a ∈ succ m)
    (h : Leads succ target (target a) n) : Leads succ target m n :=
  Relation.ReflTransGen.head ⟨a, ha, rfl⟩ h

/-- What was added to `seen` on the way to `seen'`, for a search that went through `found`. -/
structure Collected (succ : ν → List α) (target : α → ν) (K : List α) (node : ν)
    (found seen seen' : List α) : Prop where
  nodup : seen'.Nodup
  subset : seen' ⊆ K
  grows : seen ⊆ seen'
  found : found ⊆ seen'
  closed : ∀ a ∈ seen', a ∉ seen → succ (target a) ⊆ seen'
  sound : ∀ a ∈ seen', a ∈ seen ∨ ∃ m, Leads succ target node m ∧ a ∈ succ m

section

variable {next : ν → Except ε (List α)} {succ : ν → List α} {target : α → ν} {overflow : ε}
  {K : List α} {N : ν → Prop}

variable (target overflow) in
theorem exists_collect (hnext : ∀ n, N n → next n = .ok (succ n))
    (hN : ∀ n, N n → ∀ a ∈ succ n, a ∈ K ∧ N (target a)) (depth : ℕ) :
    ∀ {node : ν} {seen : List α}, N node → seen.Nodup → seen ⊆ K →
      K.length < depth + seen.length →
      ∃ seen', collect next target overflow depth node seen = .ok seen' ∧
        Collected succ target K node (succ node) seen seen' := by
  induction depth with
  | zero =>
    intro node seen _ hnodup hsub hdepth
    have hle := (List.subperm_of_subset hnodup hsub).length_le
    omega
  | succ depth ih =>
    intro node seen hnode hnodup hsub hdepth
    rw [collect, hnext node hnode]
    have hloop : ∀ (found seen : List α), found ⊆ succ node → seen.Nodup → seen ⊆ K →
        K.length < depth + 1 + seen.length →
        ∃ seen', found.foldlM (fun seen a =>
            if a ∈ seen then .ok seen
            else collect next target overflow depth (target a) (seen ++ [a])) seen = .ok seen' ∧
          Collected succ target K node found seen seen' := by
      intro found
      induction found with
      | nil =>
        exact fun seen _ hnodup hsub _ => ⟨seen, rfl, hnodup, hsub, fun _ h => h,
          List.nil_subset _, fun a ha hnot => absurd ha hnot, fun a ha => .inl ha⟩
      | cons a found ihfound =>
        intro seen hfound hnodup hsub hdepth
        obtain ⟨ha, hfound⟩ := List.cons_subset.mp hfound
        rw [List.foldlM_cons]
        by_cases hmem : a ∈ seen
        · rw [if_pos hmem]
          obtain ⟨seen', hrest, h⟩ := ihfound seen hfound hnodup hsub hdepth
          exact ⟨seen', hrest, { h with found := List.cons_subset.mpr ⟨h.grows hmem, h.found⟩ }⟩
        · rw [if_neg hmem]
          obtain ⟨haK, htarget⟩ := hN node hnode a ha
          have hlen : (seen ++ [a]).length = seen.length + 1 := List.length_append
          obtain ⟨mid, hmid, h⟩ := @ih _ (seen ++ [a]) htarget
            (List.nodup_append.mpr ⟨hnodup, List.nodup_singleton a, fun x hx y hy => by
              rw [List.mem_singleton.mp hy]
              exact fun heq => hmem (heq ▸ hx)⟩)
            (List.append_subset.mpr ⟨hsub, List.cons_subset.mpr ⟨haK, List.nil_subset K⟩⟩) (by omega)
          have hamid : a ∈ mid := h.grows (List.mem_append_right _ List.mem_cons_self)
          have hseen : seen ⊆ mid := fun x hx => h.grows (List.mem_append_left _ hx)
          have hle := (List.subperm_of_subset hnodup hseen).length_le
          obtain ⟨seen', hrest, h'⟩ := ihfound mid hfound h.nodup h.subset (by omega)
          refine ⟨seen', ?_, h'.nodup, h'.subset, fun x hx => h'.grows (hseen hx),
            List.cons_subset.mpr ⟨h'.grows hamid, h'.found⟩, fun x hx hnot => ?_, fun x hx => ?_⟩
          · rw [hmid]
            exact hrest
          · by_cases hxmid : x ∈ mid
            · refine List.Subset.trans ?_ h'.grows
              by_cases hxa : x = a
              · exact hxa ▸ h.found
              · exact h.closed x hxmid fun hin => (List.mem_append.mp hin).elim hnot
                  fun hin => hxa (List.mem_singleton.mp hin)
            · exact h'.closed x hx hxmid
          · rcases h'.sound x hx with hxmid | hreach
            · rcases h.sound x hxmid with hin | ⟨m, hlead, hxm⟩
              · refine (List.mem_append.mp hin).imp_right fun hin => ?_
                exact ⟨node, Relation.ReflTransGen.refl, List.mem_singleton.mp hin ▸ ha⟩
              · exact .inr ⟨m, hlead.head ha, hxm⟩
            · exact .inr hreach
    exact hloop (succ node) seen (fun _ h => h) hnodup hsub (by omega)

variable (target overflow) in
/-- **What the search collects.** -/
theorem exists_collect_nil (hnext : ∀ n, N n → next n = .ok (succ n))
    (hN : ∀ n, N n → ∀ a ∈ succ n, a ∈ K ∧ N (target a)) {node : ν} (hnode : N node) :
    ∃ seen, collect next target overflow (K.length + 1) node [] = .ok seen ∧ seen.Nodup ∧
      ∀ a, a ∈ seen ↔ ∃ m, Leads succ target node m ∧ a ∈ succ m := by
  obtain ⟨seen, hcollect, h⟩ := exists_collect target overflow hnext hN (K.length + 1) hnode
    List.nodup_nil (List.nil_subset K) (by simp)
  refine ⟨seen, hcollect, h.nodup, fun a => ⟨fun ha => ?_, ?_⟩⟩
  · exact (h.sound a ha).resolve_left List.not_mem_nil
  · rintro ⟨m, hlead, ha⟩
    have hsub : succ m ⊆ seen := by
      clear ha
      induction hlead with
      | refl => exact h.found
      | tail _ hstep ih =>
        obtain ⟨b, hb, rfl⟩ := hstep
        exact h.closed b (ih hb) List.not_mem_nil
    exact hsub ha

end

end N8n
