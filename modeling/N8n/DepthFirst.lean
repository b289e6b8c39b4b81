/-
Depth-first search, and the order in which it examines the edges of a graph.

A search visits a node, follows each of its edges in turn, and examines the edge once what
it leads to has been visited.  The nodes that reach each other form the components; the
node of a component that is visited first is its entry.

* `scan` — the nodes in the order of their visits, and the edges in that of their
  examination;
* `Linked` — there is a path of edges that were examined in the opposite order, its last
  edge first.
-/
import Mathlib.Logic.Relation
import Mathlib.Order.WellFounded
import Mathlib.Data.List.TakeWhile
import Mathlib.Data.List.Perm.Subperm

namespace N8n.DepthFirst

/-- The nodes visited and the edges examined, the last ones first. -/
structure Scan (α : Type*) where
  visited : List α := []
  examined : List (α × α) := []

variable {α : Type*}

section Search

def Scan.enter (w : Scan α) (v : α) : Scan α := { w with visited := v :: w.visited }

def Scan.examine (w : Scan α) (v c : α) : Scan α := { w with examined := (v, c) :: w.examined }

/-- Follow the edges of `v` to some of its successors with a search. -/
def scanEdges (search : Scan α → α → Scan α) (v : α) (w : Scan α) (cs : List α) : Scan α :=
  cs.foldl (fun w c => (search w c).examine v c) w

variable [DecidableEq α] (succ : α → List α)

/-- Visit a node, at most so many deep. -/
def scan : ℕ → Scan α → α → Scan α
  | 0, w, _ => w
  | depth + 1, w, v =>
    if v ∈ w.visited then w else scanEdges (scan depth) v (w.enter v) (succ v)

def scanAll (vs : List α) : Scan α := vs.foldl (scan succ (vs.length + 1)) {}

end Search

/-- There is a path from `a` to `b` whose edges were examined last edge first. -/
def Linked : List (α × α) → α → α → Prop
  | [], a, b => a = b
  | e :: examined, a, b => Linked examined a b ∨ a = e.1 ∧ Linked examined e.2 b

instance decidableLinked [DecidableEq α] :
    ∀ (examined : List (α × α)) (a b : α), Decidable (Linked examined a b)
  | [], a, b => inferInstanceAs (Decidable (a = b))
  | _ :: examined, _, _ =>
    have := decidableLinked examined
    inferInstanceAs (Decidable (_ ∨ _ ∧ _))

theorem Linked.refl (examined : List (α × α)) (a : α) : Linked examined a a := by
  induction examined with
  | nil => exact rfl
  | cons e examined ih => exact .inl ih

variable {examined : List (α × α)}

theorem Linked.cons {a b : α} (e : α × α) (h : Linked examined a b) : Linked (e :: examined) a b :=
  .inl h

theorem linked_cons_of_ne {a b : α} {e : α × α} (h : a ≠ e.1) :
    Linked (e :: examined) a b ↔ Linked examined a b :=
  or_iff_left fun hlink => h hlink.1

theorem Linked.source {a b : α} (h : Linked examined a b) : a = b ∨ ∃ e ∈ examined, e.1 = a := by
  induction examined with
  | nil => exact .inl h
  | cons e examined ih =>
    rcases h with h | ⟨rfl, -⟩
    · exact (ih h).imp_right fun ⟨e, he, h⟩ => ⟨e, List.mem_cons_of_mem _ he, h⟩
    · exact .inr ⟨e, List.mem_cons_self, rfl⟩

theorem Linked.target {a b : α} (h : Linked examined a b) : a = b ∨ ∃ e ∈ examined, e.2 = b := by
  induction examined generalizing a with
  | nil => exact .inl h
  | cons e examined ih =>
    rcases h with h | ⟨rfl, h⟩
    · exact (ih h).imp_right fun ⟨e, he, h⟩ => ⟨e, List.mem_cons_of_mem _ he, h⟩
    · refine .inr ?_
      rcases ih h with h | ⟨e', he, h⟩
      · exact ⟨e, List.mem_cons_self, h⟩
      · exact ⟨e', List.mem_cons_of_mem _ he, h⟩

/-- How many nodes were visited before a node. -/
def rank [DecidableEq α] : List α → α → ℕ
  | [], _ => 0
  | a :: visited, v => if v = a then visited.length else rank visited v

section Rank

variable [DecidableEq α] {visited : List α} {u v : α}

theorem rank_lt (h : v ∈ visited) : rank visited v < visited.length := by
  induction visited with
  | nil => cases h
  | cons a visited ih =>
    rw [rank, List.length_cons]
    split
    · exact Nat.lt_succ_self _
    · rename_i hne
      exact (ih ((List.mem_cons.mp h).resolve_left hne)).trans (Nat.lt_succ_self _)

theorem rank_cons_self : rank (v :: visited) v = visited.length := if_pos rfl

theorem rank_cons_of_mem (hv : v ∈ visited) (hu : u ∉ visited) :
    rank (u :: visited) v = rank visited v :=
  if_neg fun h : v = u => hu (h ▸ hv)

theorem rank_inj (hu : u ∈ visited) (hv : v ∈ visited) (h : rank visited u = rank visited v) :
    u = v := by
  induction visited with
  | nil => cases hu
  | cons a visited ih =>
    rw [rank, rank] at h
    split at h <;> split at h
    · rename_i hua hva
      rw [hua, hva]
    · rename_i hua hva
      have hlt := rank_lt ((List.mem_cons.mp hv).resolve_left hva)
      omega
    · rename_i hua hva
      have hlt := rank_lt ((List.mem_cons.mp hu).resolve_left hua)
      omega
    · rename_i hua hva
      exact ih ((List.mem_cons.mp hu).resolve_left hua) ((List.mem_cons.mp hv).resolve_left hva) h

end Rank

theorem takeWhile_eq_filter {p : α → Bool} {stack : List α}
    (h : stack.Pairwise fun a b => p b → p a) :
    stack.takeWhile p = stack.filter p ∧ stack.dropWhile p = stack.filter fun a => !p a := by
  induction stack with
  | nil => exact ⟨rfl, rfl⟩
  | cons a stack ih =>
    obtain ⟨habove, h⟩ := List.pairwise_cons.mp h
    cases hp : p a with
    | true => simp [hp, ih h]
    | false =>
      have hnone : ∀ b ∈ stack, p b = false := fun b hb => by
        cases hb' : p b with
        | false => rfl
        | true => exact absurd (habove b hb hb') (by simp [hp])
      have hall : stack.filter (fun a => !p a) = stack :=
        List.filter_eq_self.mpr fun b hb => by rw [hnone b hb]; rfl
      have hempty : stack.filter p = [] :=
        List.filter_eq_nil_iff.mpr fun b hb => by rw [hnone b hb]; exact Bool.false_ne_true
      simp [hp, hall, hempty]

section Components

variable (succ : α → List α)

def Reaches : α → α → Prop := Relation.ReflTransGen fun a b => b ∈ succ a

def SameComponent (a b : α) : Prop := Reaches succ a b ∧ Reaches succ b a

variable {succ} {a b c : α}

theorem Reaches.edge (h : b ∈ succ a) : Reaches succ a b := Relation.ReflTransGen.single h

theorem Reaches.trans (h : Reaches succ a b) (h' : Reaches succ b c) : Reaches succ a c :=
  Relation.ReflTransGen.trans h h'

theorem SameComponent.refl (a : α) : SameComponent succ a a :=
  ⟨Relation.ReflTransGen.refl, Relation.ReflTransGen.refl⟩

theorem SameComponent.symm (h : SameComponent succ a b) : SameComponent succ b a := ⟨h.2, h.1⟩

theorem SameComponent.trans (h : SameComponent succ a b) (h' : SameComponent succ b c) :
    SameComponent succ a c :=
  ⟨h.1.trans h'.1, h'.2.trans h.2⟩

theorem Reaches.mem {P : α → Prop} (hP : ∀ a, P a → ∀ b ∈ succ a, P b) (h : Reaches succ a b)
    (ha : P a) : P b := by
  induction h with
  | refl => exact ha
  | tail _ hedge ih => exact hP _ ih _ hedge

theorem Linked.reaches (hedges : ∀ e ∈ examined, e.2 ∈ succ e.1)
    (h : Linked examined a b) : Reaches succ a b := by
  induction examined generalizing a with
  | nil => exact h ▸ Relation.ReflTransGen.refl
  | cons e examined ih =>
    obtain ⟨hedge, hedges⟩ := List.forall_mem_cons.mp hedges
    rcases h with h | ⟨rfl, h⟩
    · exact ih hedges h
    · exact (Reaches.edge hedge).trans (ih hedges h)

variable [DecidableEq α] {visited : List α} {r r' v : α}

variable (succ) in
/-- The node of its component that was visited first. -/
def IsEntry (visited : List α) (r : α) : Prop :=
  r ∈ visited ∧ ∀ x ∈ visited, SameComponent succ x r → rank visited r ≤ rank visited x

theorem exists_entry (succ : α → List α) (h : v ∈ visited) :
    ∃ r, IsEntry succ visited r ∧ SameComponent succ r v := by
  obtain ⟨r, ⟨hr, hsame⟩, hmin⟩ := (measure (rank visited)).wf.has_min
    {x | x ∈ visited ∧ SameComponent succ x v} ⟨v, h, .refl v⟩
  refine ⟨r, ⟨hr, fun x hx hxr => ?_⟩, hsame⟩
  exact Nat.le_of_not_lt (hmin x ⟨hx, hxr.trans hsame⟩)

theorem IsEntry.eq (hr : IsEntry succ visited r) (hr' : IsEntry succ visited r')
    (h : SameComponent succ r r') : r = r' :=
  rank_inj hr.1 hr'.1 (le_antisymm (hr.2 r' hr'.1 h.symm) (hr'.2 r hr.1 h))

theorem isEntry_cons (hv : v ∉ visited) (hr : r ∈ visited) :
    IsEntry succ (v :: visited) r ↔ IsEntry succ visited r := by
  constructor
  · rintro ⟨-, hmin⟩
    refine ⟨hr, fun x hx hsame => ?_⟩
    have hle := hmin x (List.mem_cons_of_mem _ hx) hsame
    rwa [rank_cons_of_mem hr hv, rank_cons_of_mem hx hv] at hle
  · rintro ⟨-, hmin⟩
    refine ⟨List.mem_cons_of_mem _ hr, fun x hx hsame => ?_⟩
    rw [rank_cons_of_mem hr hv]
    rcases List.mem_cons.mp hx with rfl | hx
    · rw [rank_cons_self]
      exact (rank_lt hr).le
    · rw [rank_cons_of_mem hx hv]
      exact hmin x hx hsame

variable (succ) in
/-- The node is linked to the entry of its component. -/
def LinkedToEntry (w : Scan α) (v : α) : Prop :=
  ∃ r, IsEntry succ w.visited r ∧ SameComponent succ r v ∧ Linked w.examined v r

variable (succ) in
/-- Every visited node is linked to the entry of its component. -/
def LinkedToEntries (w : Scan α) : Prop :=
  ∀ v ∈ w.visited, ∃ r, IsEntry succ w.visited r ∧ SameComponent succ r v ∧
    Linked w.examined v r

end Components

section Visits

variable (succ : α → List α)

/-- From `w` to `w'` new nodes of `K` were visited, each once and with all it leads to. -/
def Visits (K : List α) (w w' : Scan α) : Prop :=
  ∃ new, w'.visited = new ++ w.visited ∧ w'.visited.Nodup ∧ w'.visited ⊆ K ∧
    ∀ x ∈ new, succ x ⊆ w'.visited

variable {succ} {K : List α} {w w' w'' : Scan α} {v c : α}

theorem Visits.refl (hnodup : w.visited.Nodup) (hK : w.visited ⊆ K) : Visits succ K w w :=
  ⟨[], rfl, hnodup, hK, fun x hx => by cases hx⟩

theorem Visits.trans (h : Visits succ K w w') (h' : Visits succ K w' w'') : Visits succ K w w'' := by
  obtain ⟨new, hnew, -, -, hall⟩ := h
  obtain ⟨new', hnew', hnodup, hK, hall'⟩ := h'
  refine ⟨new' ++ new, by rw [hnew', hnew, List.append_assoc], hnodup, hK, fun x hx => ?_⟩
  rcases List.mem_append.mp hx with hx | hx
  · exact hall' x hx
  · intro y hy
    rw [hnew']
    exact List.mem_append_right _ (hall x hx hy)

theorem Visits.subset (h : Visits succ K w w') : w.visited ⊆ w'.visited := by
  obtain ⟨new, hnew, -⟩ := h
  rw [hnew]
  exact List.subset_append_right _ _

theorem Visits.length_le (h : Visits succ K w w') : w.visited.length ≤ w'.visited.length := by
  obtain ⟨new, hnew, -⟩ := h
  rw [hnew, List.length_append]
  exact Nat.le_add_left _ _

variable [DecidableEq α]

theorem visits_scan (hK : ∀ a ∈ K, ∀ b ∈ succ a, b ∈ K) (depth : ℕ) :
    ∀ {w : Scan α} {v : α}, w.visited.Nodup → w.visited ⊆ K → v ∈ K →
      K.length < depth + w.visited.length →
      Visits succ K w (scan succ depth w v) ∧ v ∈ (scan succ depth w v).visited := by
  induction depth with
  | zero =>
    intro w v hnodup hsub _ hdepth
    have hle := (List.subperm_of_subset hnodup hsub).length_le
    omega
  | succ depth ih =>
    intro w v hnodup hsub hv hdepth
    rw [scan]
    split
    · rename_i hseen
      exact ⟨.refl hnodup hsub, hseen⟩
    rename_i hnew
    have hloop : ∀ (cs : List α) (w : Scan α), cs ⊆ K → w.visited.Nodup → w.visited ⊆ K →
        K.length < depth + w.visited.length →
        Visits succ K w (scanEdges (scan succ depth) v w cs) ∧
          cs ⊆ (scanEdges (scan succ depth) v w cs).visited := by
      intro cs
      induction cs with
      | nil => exact fun w _ hnodup hsub _ => ⟨.refl hnodup hsub, List.nil_subset _⟩
      | cons c cs ihcs =>
        intro w hcs hnodup hsub hdepth
        obtain ⟨hc, hcs⟩ := List.cons_subset.mp hcs
        obtain ⟨hvisits, hmem⟩ := ih hnodup hsub hc hdepth
        have hlen := hvisits.length_le
        obtain ⟨new, hnew, hnodup', hsub', hall⟩ := hvisits
        obtain ⟨hrest, hmems⟩ := ihcs ((scan succ depth w c).examine v c) hcs hnodup' hsub'
          (hdepth.trans_le (Nat.add_le_add_left hlen depth))
        exact ⟨Visits.trans ⟨new, hnew, hnodup', hsub', hall⟩ hrest,
          List.cons_subset.mpr ⟨hrest.subset hmem, hmems⟩⟩
    have hdepth' : K.length < depth + (w.enter v).visited.length := by
      have hlen : (w.enter v).visited.length = w.visited.length + 1 := rfl
      omega
    obtain ⟨hvisits, hmems⟩ := hloop (succ v) (w.enter v) (hK v hv)
      (List.nodup_cons.mpr ⟨hnew, hnodup⟩) (List.cons_subset.mpr ⟨hv, hsub⟩) hdepth'
    refine ⟨?_, hvisits.subset List.mem_cons_self⟩
    obtain ⟨new, hvisited, hnodup', hsub', hall⟩ := hvisits
    refine ⟨new ++ [v], by rw [hvisited]; simp [Scan.enter], hnodup', hsub', fun x hx => ?_⟩
    rcases List.mem_append.mp hx with hx | hx
    · exact hall x hx
    · rw [List.mem_singleton.mp hx]
      exact hmems

theorem mem_scan_of_reaches (hK : ∀ a ∈ K, ∀ b ∈ succ a, b ∈ K) (hv : v ∈ K)
    (h : Reaches succ v c) : c ∈ (scan succ (K.length + 1) {} v).visited := by
  obtain ⟨⟨new, hnew, -, -, hall⟩, hmem⟩ := visits_scan (w := {}) hK (K.length + 1) List.nodup_nil
    (List.nil_subset _) hv (by simp)
  refine h.mem (fun x hx y hy => ?_) hmem
  rw [hnew, List.append_nil] at hx
  exact hall x hx hy

theorem find?_reverse_eq_some {p : α → Bool} {visited : List α} (hnodup : visited.Nodup) {r : α} :
    visited.reverse.find? p = some r ↔ r ∈ visited ∧ p r = true ∧
      ∀ x ∈ visited, p x = true → rank visited r ≤ rank visited x := by
  induction visited generalizing r with
  | nil => simp
  | cons a visited ih =>
    obtain ⟨ha, hnodup⟩ := List.nodup_cons.mp hnodup
    rw [List.reverse_cons, List.find?_append]
    rcases hfind : visited.reverse.find? p with _ | r'
    · have hnone : ∀ x ∈ visited, ¬ p x = true := by
        simpa using List.find?_eq_none.mp hfind
      rw [Option.none_or]
      by_cases hp : p a = true
      · rw [List.find?_cons_of_pos hp, Option.some.injEq]
        constructor
        · rintro rfl
          refine ⟨List.mem_cons_self, hp, fun x hx hpx => ?_⟩
          rcases List.mem_cons.mp hx with rfl | hx
          · exact le_rfl
          · exact absurd hpx (hnone x hx)
        · rintro ⟨hr, hpr, -⟩
          rcases List.mem_cons.mp hr with rfl | hr
          · rfl
          · exact absurd hpr (hnone r hr)
      · rw [List.find?_cons_of_neg hp]
        refine iff_of_false (fun h => by cases h) fun ⟨hr, hpr, _⟩ => ?_
        rcases List.mem_cons.mp hr with rfl | hr
        · exact hp hpr
        · exact hnone r hr hpr
    · obtain ⟨hr', hpr', hmin'⟩ := (ih hnodup).mp hfind
      rw [Option.some_or, Option.some.injEq]
      constructor
      · rintro rfl
        refine ⟨List.mem_cons_of_mem _ hr', hpr', fun x hx hpx => ?_⟩
        rw [rank_cons_of_mem hr' ha]
        rcases List.mem_cons.mp hx with rfl | hx
        · rw [rank_cons_self]
          exact (rank_lt hr').le
        · rw [rank_cons_of_mem hx ha]
          exact hmin' x hx hpx
      · rintro ⟨hr, hpr, hmin⟩
        have hle := hmin r' (List.mem_cons_of_mem _ hr') hpr'
        rw [rank_cons_of_mem hr' ha] at hle
        rcases List.mem_cons.mp hr with rfl | hr
        · rw [rank_cons_self] at hle
          exact absurd (rank_lt hr') (Nat.not_lt.mpr hle)
        · rw [rank_cons_of_mem hr ha] at hle
          exact rank_inj hr' hr (le_antisymm (hmin' r hr hpr) hle)

end Visits

end N8n.DepthFirst
