/-
A backward search that keeps whole branches.

The search starts at a destination and goes on to every parent of the node it is at, with the
edge to it put on the branch.  It keeps the branch when it comes to the trigger, and also when
it comes, elsewhere than at the destination, to a node that the branch already leads to.

* `found_iff_onPath_iff` — **the edges kept are exactly those on a path from the trigger to the
  destination iff every cycle that leads to the destination can be reached from the trigger**.
-/
import Mathlib.Logic.Relation
import Mathlib.Data.List.Nodup
import Mathlib.Data.List.Perm.Subperm

namespace N8n

open Relation

/-- A finite graph, given by the edges into each node, and the two nodes a search is about. -/
structure BranchSearch (ν α : Type) where
  pred : ν → List α
  source : α → ν
  target : α → ν
  trigger : ν
  destination : ν
  nodes : List ν
  target_of_mem : ∀ {n a}, a ∈ pred n → target a = n
  mem_nodes : ∀ {n a}, a ∈ pred n → n ∈ nodes

namespace BranchSearch

variable {ν α : Type} (S : BranchSearch ν α)

/-- An edge that a path from the trigger to the destination may take: it does not leave the
destination and does not enter the trigger. -/
structure Passable (a : α) : Prop where
  mem : a ∈ S.pred (S.target a)
  source : S.source a ≠ S.destination
  target : S.target a ≠ S.trigger

def Edge (m n : ν) : Prop := ∃ a, S.Passable a ∧ S.source a = m ∧ S.target a = n

/-- The edge is on a path from the trigger to the destination. -/
structure OnPath (a : α) : Prop where
  passable : S.Passable a
  source : ReflTransGen S.Edge S.trigger (S.source a)
  target : ReflTransGen S.Edge (S.target a) S.destination

/-- Every cycle that leads to the destination can be reached from the trigger. -/
def CyclesReached : Prop :=
  ∀ x, TransGen S.Edge x x → ReflTransGen S.Edge x S.destination →
    ReflTransGen S.Edge S.trigger x

/-- A call of the search, at a node with a branch, makes another one. -/
def Calls (s s' : ν × List α) : Prop :=
  s.1 ≠ S.trigger ∧ s.1 ∉ s.2.map S.target ∧ ∃ a ∈ S.pred s.1, s' = (S.source a, s.2 ++ [a])

/-- The branch of the call is kept. -/
def Keeps (s : ν × List α) : Prop :=
  s.1 = S.trigger ∨ s.1 ≠ S.destination ∧ s.1 ∈ s.2.map S.target

def Call : ν × List α → Prop := ReflTransGen S.Calls (S.destination, [])

/-- A call leads to one whose branch is kept. -/
def Finds (s s' : ν × List α) : Prop := ReflTransGen S.Calls s s' ∧ S.Keeps s'

/-- The edge is on a branch that is kept. -/
def Found (a : α) : Prop := ∃ s, S.Finds (S.destination, []) s ∧ a ∈ s.2

/-- What holds of the node and of the branch of every call. -/
structure Trail (s : ν × List α) : Prop where
  nodup : (s.2.map S.target).Nodup
  nil : s.2 = [] → s.1 = S.destination
  destination_mem : s.2 ≠ [] → S.destination ∈ s.2.map S.target
  last : s.2 ≠ [] → ∃ a ∈ s.2, S.source a = s.1
  leads : ReflTransGen S.Edge s.1 S.destination
  mem : ∀ a ∈ s.2, a ∈ S.pred (S.target a)
  target : ∀ a ∈ s.2, S.target a ≠ S.trigger
  target_leads : ∀ a ∈ s.2, ReflTransGen S.Edge (S.target a) S.destination
  source : s.1 ≠ S.destination → ∀ a ∈ s.2, S.source a ≠ S.destination ∧
    ReflTransGen S.Edge s.1 (S.source a)

section

variable {S} {s s' : ν × List α} {a : α} {n : ν}

theorem trail_nil : S.Trail (S.destination, []) where
  nodup := List.nodup_nil
  nil := fun _ => rfl
  destination_mem := fun h => absurd rfl h
  last := fun h => absurd rfl h
  leads := ReflTransGen.refl
  mem := fun _ h => (List.not_mem_nil h).elim
  target := fun _ h => (List.not_mem_nil h).elim
  target_leads := fun _ h => (List.not_mem_nil h).elim
  source := fun _ _ h => (List.not_mem_nil h).elim

theorem Trail.ne_destination (h : S.Trail s) (hnot : s.1 ∉ s.2.map S.target) (ha : a ∈ s.2) :
    s.1 ≠ S.destination :=
  fun heq => hnot (heq ▸ h.destination_mem (List.ne_nil_of_mem ha))

theorem Trail.calls (h : S.Trail s) (hcalls : S.Calls s s') : S.Trail s' := by
  obtain ⟨htrigger, hnot, a, ha, rfl⟩ := hcalls
  have htarget : S.target a = s.1 := S.target_of_mem ha
  have hmem : a ∈ S.pred (S.target a) := htarget.symm ▸ ha
  have hedge : S.source a ≠ S.destination → S.Edge (S.source a) s.1 := fun hsource =>
    ⟨a, ⟨hmem, hsource, htarget ▸ htrigger⟩, rfl, htarget⟩
  have hlast : ∀ {P : α → Prop}, (∀ b ∈ s.2, P b) → P a → ∀ b ∈ s.2 ++ [a], P b := by
    intro P hinit hP b hb
    exact (List.mem_append.mp hb).elim (hinit b) fun hb => List.mem_singleton.mp hb ▸ hP
  refine ⟨?_, fun h => absurd h (by simp), fun _ => ?_, fun _ => ⟨a, by simp, rfl⟩, ?_,
    hlast h.mem hmem, hlast h.target (htarget ▸ htrigger),
    hlast h.target_leads (htarget ▸ h.leads), fun hsource => hlast (fun b hb => ?_) ⟨hsource, ReflTransGen.refl⟩⟩
  · rw [List.map_append, List.nodup_append]
    refine ⟨h.nodup, List.nodup_singleton _, fun x hx y hy heq => hnot ?_⟩
    rw [List.mem_singleton.mp hy] at heq
    exact htarget ▸ heq ▸ hx
  · rw [List.map_append, List.mem_append]
    by_cases hnil : s.2 = []
    · exact .inr (List.mem_singleton.mpr ((h.nil hnil).symm.trans htarget.symm))
    · exact .inl (h.destination_mem hnil)
  · by_cases hsource : S.source a = S.destination
    · exact hsource ▸ ReflTransGen.refl
    · exact ReflTransGen.head (hedge hsource) h.leads
  · obtain ⟨hb', hreach⟩ := h.source (h.ne_destination hnot hb) b hb
    exact ⟨hb', ReflTransGen.head (hedge hsource) hreach⟩

theorem Call.trail (h : S.Call s) : S.Trail s := by
  induction h with
  | refl => exact trail_nil
  | tail _ hcalls ih => exact ih.calls hcalls

theorem Trail.passable (h : S.Trail s) (hne : s.1 ≠ S.destination) (ha : a ∈ s.2) :
    S.Passable a :=
  ⟨h.mem a ha, (h.source hne a ha).1, h.target a ha⟩

theorem Trail.length_le (h : S.Trail s) : s.2.length ≤ S.nodes.length := by
  have hsub : s.2.map S.target ⊆ S.nodes := by
    intro n hn
    obtain ⟨a, ha, rfl⟩ := List.mem_map.mp hn
    exact S.mem_nodes (h.mem a ha)
  have hle := (List.subperm_of_subset h.nodup hsub).length_le
  rwa [List.length_map] at hle

theorem Keeps.finds_iff (h : S.Keeps s) : S.Finds s s' ↔ s' = s := by
  constructor
  · rintro ⟨hsteps, -⟩
    rcases ReflTransGen.cases_head hsteps with heq | ⟨_, ⟨htrigger, hnot, -⟩, -⟩
    · exact heq.symm
    · exact (h.elim htrigger fun hmem => hnot hmem.2).elim
  · rintro rfl
    exact ⟨ReflTransGen.refl, h⟩

theorem finds_iff_of_not_keeps (h : ¬ S.Keeps s) :
    S.Finds s s' ↔ ∃ s₁, S.Calls s s₁ ∧ S.Finds s₁ s' := by
  constructor
  · rintro ⟨hsteps, hkeeps⟩
    rcases ReflTransGen.cases_head hsteps with rfl | ⟨s₁, hcalls, hrest⟩
    · exact absurd hkeeps h
    · exact ⟨s₁, hcalls, hrest, hkeeps⟩
  · rintro ⟨s₁, hcalls, hrest, hkeeps⟩
    exact ⟨ReflTransGen.head hcalls hrest, hkeeps⟩

theorem Call.earlier (h : S.Call s) : ∀ a ∈ s.2, ∃ branch, S.Call (S.target a, branch) ∧
    S.target a ∉ branch.map S.target := by
  induction h with
  | refl => exact fun _ h => (List.not_mem_nil h).elim
  | tail hcall hcalls ih =>
    obtain ⟨-, hnot, a, ha, rfl⟩ := hcalls
    intro b hb
    rcases List.mem_append.mp hb with hb | hb
    · exact ih b hb
    · rw [List.mem_singleton.mp hb, S.target_of_mem ha]
      exact ⟨_, hcall, hnot⟩

theorem exists_call (h : ReflTransGen S.Edge n S.destination) :
    ∃ branch, S.Call (n, branch) ∧ n ∉ branch.map S.target := by
  induction h using ReflTransGen.head_induction_on with
  | refl => exact ⟨[], ReflTransGen.refl, List.not_mem_nil⟩
  | head hedge _ ih =>
    obtain ⟨a, ha, rfl, rfl⟩ := hedge
    obtain ⟨branch, hcall, hnot⟩ := ih
    have hnext : S.Call (S.source a, branch ++ [a]) :=
      ReflTransGen.tail hcall ⟨ha.target, hnot, a, ha.mem, rfl⟩
    by_cases hmem : S.source a ∈ (branch ++ [a]).map S.target
    · obtain ⟨b, hb, heq⟩ := List.mem_map.mp hmem
      exact heq ▸ hnext.earlier b hb
    · exact ⟨_, hnext, hmem⟩

theorem exists_call_edge (ha : S.Passable a)
    (h : ReflTransGen S.Edge (S.target a) S.destination) :
    ∃ branch, S.Call (S.source a, branch ++ [a]) := by
  obtain ⟨branch, hcall, hnot⟩ := exists_call h
  exact ⟨branch, ReflTransGen.tail hcall ⟨ha.target, hnot, a, ha.mem, rfl⟩⟩

theorem exists_finds {P : ν → Prop}
    (hP : ∀ n, P n → n ≠ S.destination ∧ (n = S.trigger ∨ ∃ a ∈ S.pred n, P (S.source a))) :
    ∀ (room : ℕ) {s : ν × List α}, S.nodes.length < room + s.2.length → S.Call s → P s.1 →
      ∃ s', S.Finds s s' ∧ s.2 ⊆ s'.2 := by
  intro room
  induction room with
  | zero =>
    intro s hroom hcall
    have hle := hcall.trail.length_le
    omega
  | succ room ih =>
    intro s hroom hcall hs
    obtain ⟨hne, htrigger | ⟨a, ha, hsource⟩⟩ := hP s.1 hs
    · exact ⟨s, ⟨ReflTransGen.refl, .inl htrigger⟩, fun _ h => h⟩
    · by_cases htrigger : s.1 = S.trigger
      · exact ⟨s, ⟨ReflTransGen.refl, .inl htrigger⟩, fun _ h => h⟩
      by_cases hmem : s.1 ∈ s.2.map S.target
      · exact ⟨s, ⟨ReflTransGen.refl, .inr ⟨hne, hmem⟩⟩, fun _ h => h⟩
      have hcalls : S.Calls s (S.source a, s.2 ++ [a]) := ⟨htrigger, hmem, a, ha, rfl⟩
      have hnext : S.Call (S.source a, s.2 ++ [a]) := ReflTransGen.tail hcall hcalls
      have hroom' : S.nodes.length < room + (s.2 ++ [a]).length := by
        rw [List.length_append, List.length_singleton]
        omega
      obtain ⟨s', ⟨hsteps, hkeeps⟩, hsub⟩ := ih hroom' hnext hsource
      exact ⟨s', ⟨ReflTransGen.head hcalls hsteps, hkeeps⟩,
        fun x hx => hsub (List.mem_append_left _ hx)⟩

theorem found_of_sources {P : ν → Prop}
    (hP : ∀ n, P n → n ≠ S.destination ∧ (n = S.trigger ∨ ∃ a ∈ S.pred n, P (S.source a)))
    (ha : S.Passable a) (hsource : P (S.source a))
    (htarget : ReflTransGen S.Edge (S.target a) S.destination) : S.Found a := by
  obtain ⟨branch, hcall⟩ := exists_call_edge ha htarget
  obtain ⟨s, ⟨hsteps, hkeeps⟩, hsub⟩ :=
    exists_finds hP (S.nodes.length + 1) (by omega) hcall hsource
  exact ⟨s, ⟨ReflTransGen.trans hcall hsteps, hkeeps⟩, hsub (by simp)⟩

theorem Finds.end (hne : S.trigger ≠ S.destination) (h : S.Finds (S.destination, []) s) :
    ∃ a, S.Found a ∧ S.source a = s.1 := by
  have hnil : s.2 ≠ [] := by
    intro hnil
    refine h.2.elim (fun heq => hne (heq.symm.trans ((Call.trail h.1).nil hnil))) fun hmem => ?_
    rw [hnil] at hmem
    exact List.not_mem_nil hmem.2
  obtain ⟨a, ha, hsource⟩ := (Call.trail h.1).last hnil
  exact ⟨a, ⟨s, h, ha⟩, hsource⟩

theorem Found.sound (hne : S.trigger ≠ S.destination) (h : S.Found a) :
    S.Passable a ∧ ReflTransGen S.Edge (S.target a) S.destination ∧
      ∃ n, ReflTransGen S.Edge n (S.source a) ∧ (n = S.trigger ∨
        TransGen S.Edge n n ∧ ReflTransGen S.Edge n S.destination) := by
  obtain ⟨s, ⟨hcall, hkeeps⟩, ha⟩ := h
  have htrail := Call.trail hcall
  have hs : s.1 ≠ S.destination := hkeeps.elim (fun h => h.symm ▸ hne) And.left
  refine ⟨htrail.passable hs ha, htrail.target_leads a ha, s.1, (htrail.source hs a ha).2, ?_⟩
  refine hkeeps.imp_right fun ⟨_, hmem⟩ => ⟨?_, htrail.leads⟩
  obtain ⟨b, hb, heq⟩ := List.mem_map.mp hmem
  exact TransGen.tail' (htrail.source hs b hb).2 ⟨b, htrail.passable hs hb, rfl, heq⟩

theorem OnPath.found (h : S.OnPath a) : S.Found a := by
  refine found_of_sources (P := fun n => n ≠ S.destination ∧ ReflTransGen S.Edge S.trigger n)
    (fun n hn => ⟨hn.1, ?_⟩) h.passable ⟨h.passable.source, h.source⟩ h.target
  rcases ReflTransGen.cases_tail hn.2 with heq | ⟨m, hm, b, hb, rfl, rfl⟩
  · exact .inl heq
  · exact .inr ⟨b, hb.mem, hb.source, hm⟩

theorem found_of_cycle {x : ν} (hcycle : TransGen S.Edge x x)
    (hleads : ReflTransGen S.Edge x S.destination) :
    ∃ a, S.Found a ∧ S.target a = x := by
  obtain ⟨m, hxm, a, ha, rfl, rfl⟩ := TransGen.tail'_iff.mp hcycle
  refine ⟨a, found_of_sources (P := fun n => ReflTransGen S.Edge (S.target a) n ∧
    TransGen S.Edge n (S.target a)) (fun n ⟨hxn, hnx⟩ => ⟨?_, .inr ?_⟩) ha
    ⟨hxm, TransGen.single ⟨a, ha, rfl, rfl⟩⟩ hleads, rfl⟩
  · obtain ⟨_, ⟨b, hb, rfl, _⟩, -⟩ := TransGen.head'_iff.mp hnx
    exact hb.source
  · rcases ReflTransGen.cases_tail hxn with heq | ⟨k, hk, b, hb, rfl, rfl⟩
    · rw [heq]
      exact ⟨a, ha.mem, hxm, TransGen.single ⟨a, ha, rfl, rfl⟩⟩
    · exact ⟨b, hb.mem, hk, TransGen.head ⟨b, hb, rfl, rfl⟩ hnx⟩

/-- **When exactly the edges on paths are found.** -/
theorem found_iff_onPath_iff (hne : S.trigger ≠ S.destination) :
    (∀ a, S.Found a ↔ S.OnPath a) ↔ S.CyclesReached := by
  constructor
  · intro h x hcycle hleads
    obtain ⟨a, ha, rfl⟩ := found_of_cycle hcycle hleads
    have hpath := (h a).mp ha
    exact ReflTransGen.tail hpath.source ⟨a, hpath.passable, rfl, rfl⟩
  · refine fun h a => ⟨fun ha => ?_, OnPath.found⟩
    obtain ⟨hpass, htarget, n, hn, hstart⟩ := ha.sound hne
    refine ⟨hpass, ?_, htarget⟩
    rcases hstart with rfl | ⟨hcycle, hleads⟩
    · exact hn
    · exact ReflTransGen.trans (h n hcycle hleads) hn

end

end BranchSearch

end N8n
