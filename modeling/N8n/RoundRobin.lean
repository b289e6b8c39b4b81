/-
A queue whose items may be put back, with a guard against putting one back twice in a row.

An item at the front is dropped, put back at the end, taken for good or fails.  The guard ends
the turns at an item with the key of the item that was put back last.

* `ends_iff` — **the turns come to an end iff the items do not circulate and no failure is
  met**: where everything is dropped or put back, they end only if the first and the last item
  put back have the same key.
-/
import Mathlib.Data.List.Basic

namespace N8n

namespace RoundRobin

/-- What happens to an item at the front of the queue. -/
inductive Kind where
  | drop
  | defer
  | run
  | fail
  deriving DecidableEq

end RoundRobin

/-- The items, with what happens to them; an item that is put back keeps its key and kind. -/
structure RoundRobin (α κ : Type) where
  key : α → Option κ
  kind : α → RoundRobin.Kind
  again : α → α
  key_again : ∀ a, key (again a) = key a
  kind_again : ∀ a, kind (again a) = kind a
  key_of_defer : ∀ a, kind a = .defer → ∃ k, key a = some k

namespace RoundRobin

variable {α κ : Type}

/-- A turn goes on with another queue, ends the turns, or fails. -/
inductive Turn (α κ : Type) where
  | goesOn (items : List α) (last : κ)
  | ended
  | failed

/-- The turn of the item at the front; `last` is the key of the item put back last. -/
def turn [DecidableEq κ] (r : RoundRobin α κ) : List α → κ → Turn α κ
  | [], _ => .ended
  | a :: items, last =>
    if r.key a = some last then .ended
    else match r.kind a with
      | .drop => .goesOn items last
      | .defer => .goesOn (items ++ [r.again a]) ((r.key a).getD last)
      | .run => .ended
      | .fail => .failed

/-- The turns come to an end, other than by a failure. -/
inductive Ends [DecidableEq κ] (r : RoundRobin α κ) : List α → κ → Prop
  | ended {items last} : r.turn items last = .ended → Ends r items last
  | goesOn {items last items' last'} : r.turn items last = .goesOn items' last' →
      Ends r items' last' → Ends r items last

/-- The key to compare with after the item. -/
def after (r : RoundRobin α κ) (last : κ) (a : α) : κ :=
  if r.kind a = .defer then (r.key a).getD last else last

/-- Every item is dropped or put back, and the guard stops at none of them. -/
def Passes (r : RoundRobin α κ) : κ → List α → Prop
  | _, [] => True
  | last, a :: items => (r.kind a = .drop ∨ r.kind a = .defer) ∧ r.key a ≠ some last ∧
      Passes r (r.after last a) items

/-- An item that fails comes, and nothing in front of it ends the turns. -/
def MeetsFailure (r : RoundRobin α κ) : κ → List α → Prop
  | _, [] => False
  | last, a :: items => r.key a ≠ some last ∧ (r.kind a = .fail ∨
      (r.kind a = .drop ∨ r.kind a = .defer) ∧ MeetsFailure r (r.after last a) items)

def deferred (r : RoundRobin α κ) (items : List α) : List α := items.filter (r.kind · = .defer)

def afterAll (r : RoundRobin α κ) (last : κ) (items : List α) : κ := items.foldl r.after last

/-- The items pass, and the first and the last one that are put back differ in their keys. -/
structure Circulates (r : RoundRobin α κ) (items : List α) (last : κ) : Prop where
  passes : r.Passes last items
  around : (r.deferred items).head?.bind r.key ≠ (r.deferred items).getLast?.bind r.key

section Decidable

variable [DecidableEq κ]

instance decidablePasses (r : RoundRobin α κ) :
    ∀ (last : κ) (items : List α), Decidable (r.Passes last items)
  | _, [] => isTrue trivial
  | last, a :: items =>
    have := decidablePasses r (r.after last a) items
    inferInstanceAs (Decidable (_ ∧ _ ∧ _))

instance (r : RoundRobin α κ) (items : List α) (last : κ) : Decidable (r.Circulates items last) :=
  decidable_of_iff (r.Passes last items ∧
    (r.deferred items).head?.bind r.key ≠ (r.deferred items).getLast?.bind r.key)
    ⟨fun h => ⟨h.1, h.2⟩, fun h => ⟨h.1, h.2⟩⟩

end Decidable

variable {r : RoundRobin α κ} {items items' : List α} {last last' : κ} {a : α}

variable (items a) in
theorem deferred_cons : r.deferred (a :: items) = r.deferred [a] ++ r.deferred items := by
  rw [deferred, deferred, deferred, ← List.filter_append, List.singleton_append]

theorem passes_append : r.Passes last (items ++ items') ↔
    r.Passes last items ∧ r.Passes (r.afterAll last items) items' := by
  induction items generalizing last with
  | nil => exact (and_iff_right trivial).symm
  | cons a items ih =>
    rw [List.cons_append, Passes, Passes, ih, and_assoc, and_assoc]
    rfl

theorem afterAll_of_getLast? (hdefer : ∀ a ∈ items, r.kind a = .defer) {k : κ}
    (hlast : items.getLast?.bind r.key = some k) : r.afterAll last items = k := by
  rcases List.eq_nil_or_concat items with rfl | ⟨before, b, rfl⟩
  · cases hlast
  · rw [List.concat_eq_append] at hlast hdefer ⊢
    rw [List.getLast?_concat, Option.bind_some] at hlast
    rw [afterAll, List.foldl_append, List.foldl_cons, List.foldl_nil, after,
      if_pos (hdefer b (List.mem_append_right _ List.mem_cons_self)), hlast, Option.getD_some]

theorem passes_deferred (h : r.Passes last items) : r.Passes last (r.deferred items) := by
  induction items generalizing last with
  | nil => trivial
  | cons a items ih =>
    obtain ⟨hkind, hkey, hrest⟩ := h
    rw [deferred, List.filter_cons]
    by_cases hdefer : r.kind a = .defer
    · rw [if_pos (decide_eq_true hdefer)]
      exact ⟨hkind, hkey, ih hrest⟩
    · rw [if_neg fun h => hdefer (of_decide_eq_true h)]
      rw [after, if_neg hdefer] at hrest
      exact ih hrest

theorem afterAll_deferred : r.afterAll last (r.deferred items) = r.afterAll last items := by
  induction items generalizing last with
  | nil => rfl
  | cons a items ih =>
    rw [deferred, List.filter_cons]
    by_cases hdefer : r.kind a = .defer
    · rw [if_pos (decide_eq_true hdefer)]
      exact ih
    · have hafter : r.after last a = last := by rw [after, if_neg hdefer]
      rw [if_neg fun h => hdefer (of_decide_eq_true h)]
      show _ = r.afterAll (r.after last a) items
      rw [hafter]
      exact ih

theorem passes_map_again (h : r.Passes last items) : r.Passes last (items.map r.again) := by
  induction items generalizing last with
  | nil => trivial
  | cons a items ih =>
    obtain ⟨hkind, hkey, hrest⟩ := h
    refine ⟨by rw [r.kind_again]; exact hkind, by rw [r.key_again]; exact hkey, ?_⟩
    have hafter : r.after last (r.again a) = r.after last a := by
      rw [after, after, r.kind_again, r.key_again]
    rw [hafter]
    exact ih hrest

theorem not_meetsFailure_of_passes (h : r.Passes last items) : ¬ r.MeetsFailure last items := by
  induction items generalizing last with
  | nil => exact id
  | cons a items ih =>
    rintro ⟨-, hfail | ⟨-, hrest⟩⟩
    · rcases h.1 with hkind | hkind <;> rw [hkind] at hfail <;> cases hfail
    · exact ih h.2.2 hrest

section Turns

variable [DecidableEq κ]

theorem ends_iff_of_goesOn (h : r.turn items last = .goesOn items' last') :
    r.Ends items last ↔ r.Ends items' last' := by
  constructor
  · intro hends
    cases hends with
    | ended hended =>
      rw [h] at hended
      cases hended
    | goesOn hturn hends =>
      rw [h] at hturn
      cases hturn
      exact hends
  · exact .goesOn h

theorem not_ends_of_failed (h : r.turn items last = .failed) : ¬ r.Ends items last := by
  intro hends
  cases hends with
  | ended hended =>
    rw [h] at hended
    cases hended
  | goesOn hturn _ =>
    rw [h] at hturn
    cases hturn

variable (items) in
theorem turn_of_passes (hkind : r.kind a = .drop ∨ r.kind a = .defer) (hkey : r.key a ≠ some last) :
    r.turn (a :: items) last =
      .goesOn (items ++ (r.deferred [a]).map r.again) (r.after last a) := by
  rw [turn, if_neg hkey, after, deferred, List.filter_singleton]
  rcases hkind with hkind | hkind
  · simp only [hkind]
    exact congrArg (Turn.goesOn · last) (List.append_nil items).symm
  · simp only [hkind]
    rfl

theorem ends_iff_of_passes (h : r.Passes last items) (done : List α) :
    r.Ends (items ++ done) last ↔
      r.Ends (done ++ (r.deferred items).map r.again) (r.afterAll last items) := by
  induction items generalizing last done with
  | nil => rw [List.nil_append, deferred, List.filter_nil, List.map_nil, List.append_nil]; rfl
  | cons a items ih =>
    obtain ⟨hkind, hkey, hrest⟩ := h
    rw [List.cons_append, ends_iff_of_goesOn (turn_of_passes _ hkind hkey), List.append_assoc,
      ih hrest, deferred_cons items a, List.map_append, List.append_assoc]
    rfl

theorem passes_or_meetsFailure_or_ends (items done : List α) (last : κ) :
    r.Passes last items ∨ r.MeetsFailure last items ∧ ¬ r.Ends (items ++ done) last ∨
      ¬ r.MeetsFailure last items ∧ ¬ r.Passes last items ∧ r.Ends (items ++ done) last := by
  induction items generalizing last done with
  | nil => exact .inl trivial
  | cons a items ih =>
    rw [List.cons_append, MeetsFailure, Passes]
    by_cases hkey : r.key a = some last
    · -- the guard
      refine .inr (.inr ⟨fun h => h.1 hkey, fun h => h.2.1 hkey, .ended ?_⟩)
      rw [turn, if_pos hkey]
    · by_cases hkind : r.kind a = .drop ∨ r.kind a = .defer
      · rw [ends_iff_of_goesOn (turn_of_passes _ hkind hkey), List.append_assoc]
        have hnofail : r.kind a ≠ .fail := by
          intro hfail
          rw [hfail] at hkind
          rcases hkind with h | h <;> cases h
        rcases ih (done ++ (r.deferred [a]).map r.again) (r.after last a) with
          h | ⟨hfails, hends⟩ | h
        · exact .inl ⟨hkind, hkey, h⟩
        · exact .inr (.inl ⟨⟨hkey, .inr ⟨hkind, hfails⟩⟩, hends⟩)
        · refine .inr (.inr ⟨fun hfails => h.1 ?_, fun hpasses => h.2.1 hpasses.2.2, h.2.2⟩)
          exact (hfails.2.resolve_left hnofail).2
      · rcases hrun : r.kind a with _ | _ | _ | _
        · exact absurd (.inl hrun) hkind
        · exact absurd (.inr hrun) hkind
        · refine .inr (.inr ⟨?_, ?_, .ended ?_⟩)
          · rintro ⟨-, h | ⟨h | h, -⟩⟩ <;> cases h
          · rintro ⟨h | h, -⟩ <;> cases h
          · rw [turn, if_neg hkey, hrun]
        · refine .inr (.inl ⟨⟨hkey, .inl rfl⟩, not_ends_of_failed ?_⟩)
          rw [turn, if_neg hkey, hrun]

/-- All items are put back, the guard stops at none, and the last one was put back last. -/
structure Rotates (r : RoundRobin α κ) (items : List α) (last : κ) : Prop where
  defer : ∀ a ∈ items, r.kind a = .defer
  passes : r.Passes last items
  last : items.getLast?.bind r.key = some last

/-- Step lemma: items that rotate have a turn, and rotate after it. -/
theorem Rotates.turn (h : r.Rotates items last) : ∃ items' last',
    r.turn items last = .goesOn items' last' ∧ r.Rotates items' last' := by
  rcases items with _ | ⟨a, items⟩
  · cases h.last
  · obtain ⟨hkind, hkey, hrest⟩ := h.passes
    have hdefer := h.defer a List.mem_cons_self
    obtain ⟨k, hk⟩ := r.key_of_defer a hdefer
    have hafter : r.after last a = k := by rw [after, if_pos hdefer, hk, Option.getD_some]
    have hput : (r.deferred [a]).map r.again = [r.again a] := by
      rw [deferred, List.filter_singleton, decide_eq_true hdefer]
      rfl
    have hturn := turn_of_passes items hkind hkey
    rw [hput, hafter] at hturn
    rw [hafter] at hrest
    refine ⟨_, _, hturn, fun b hb => ?_, ?_, ?_⟩
    · rcases List.mem_append.mp hb with hb | hb
      · exact h.defer b (List.mem_cons_of_mem _ hb)
      · rw [List.mem_singleton.mp hb, r.kind_again, hdefer]
    · -- the item comes behind the one that was put back before it
      refine passes_append.mpr ⟨hrest, .inr (by rw [r.kind_again, hdefer]), ?_, trivial⟩
      rw [r.key_again]
      rcases items with _ | ⟨b, items⟩
      · have hself := h.last
        rw [List.getLast?_singleton, Option.bind_some] at hself
        exact absurd hself hkey
      · have hlast := h.last
        rw [List.getLast?_cons_cons] at hlast
        rw [afterAll_of_getLast? (fun c hc => h.defer c (List.mem_cons_of_mem _ hc)) hlast]
        exact hkey
    · rw [List.getLast?_concat, Option.bind_some, r.key_again, hk]

theorem Rotates.not_ends (h : r.Rotates items last) : ¬ r.Ends items last := by
  intro hends
  induction hends with
  | ended hended =>
    obtain ⟨items', last', hturn, -⟩ := h.turn
    rw [hended] at hturn
    cases hturn
  | goesOn hturn _ ih =>
    obtain ⟨items', last', hturn', hrotates⟩ := h.turn
    rw [hturn] at hturn'
    cases hturn'
    exact ih hrotates

theorem ends_iff_of_passes_nil (h : r.Passes last items) :
    r.Ends items last ↔
      (r.deferred items).head?.bind r.key = (r.deferred items).getLast?.bind r.key := by
  have hpass := ends_iff_of_passes h []
  rw [List.append_nil, List.nil_append, ← afterAll_deferred] at hpass
  rw [hpass]
  have hdefer : ∀ a ∈ r.deferred items, r.kind a = .defer :=
    fun a ha => of_decide_eq_true (List.mem_filter.mp ha).2
  have hpassed := passes_deferred h
  set kept := r.deferred items
  rcases hkept : kept with _ | ⟨a, rest⟩
  · exact iff_of_true (.ended rfl) rfl
  · rw [← hkept]
    have hne : kept ≠ [] := by
      rw [hkept]
      exact List.cons_ne_nil a rest
    obtain ⟨b, hb⟩ := Option.isSome_iff_exists.mp (List.getLast?_isSome.mpr hne)
    obtain ⟨k, hk⟩ := r.key_of_defer b (hdefer b (List.mem_of_getLast? hb))
    have hlast : kept.getLast?.bind r.key = some k := by rw [hb, Option.bind_some, hk]
    rw [afterAll_of_getLast? hdefer hlast, hlast]
    have hhead : kept.head?.bind r.key = r.key a := by
      rw [hkept, List.head?_cons, Option.bind_some]
    rw [hhead]
    by_cases hkey : r.key a = some k
    · refine iff_of_true (.ended ?_) hkey
      rw [hkept, List.map_cons, RoundRobin.turn, if_pos (by rw [r.key_again, hkey])]
    · refine iff_of_false (Rotates.not_ends ⟨fun c hc => ?_, ?_, ?_⟩) hkey
      · obtain ⟨d, hd, rfl⟩ := List.mem_map.mp hc
        rw [r.kind_again, hdefer d hd]
      · rw [hkept] at hpassed ⊢
        exact passes_map_again ⟨hpassed.1, hkey, by
          have hsame : r.after k a = r.after last a := by
            have ha := hdefer a (by rw [hkept]; exact List.mem_cons_self)
            obtain ⟨j, hj⟩ := r.key_of_defer a ha
            rw [after, after, if_pos ha, if_pos ha, hj, Option.getD_some, Option.getD_some]
          rw [hsame]
          exact hpassed.2.2⟩
      · rw [List.getLast?_map, hb, Option.map_some, Option.bind_some, r.key_again, hk]

/-- **When the turns come to an end.** -/
theorem ends_iff :
    r.Ends items last ↔ ¬ r.Circulates items last ∧ ¬ r.MeetsFailure last items := by
  rcases r.passes_or_meetsFailure_or_ends items [] last with
    h | ⟨hfails, hends⟩ | ⟨hfails, hstop, hends⟩
  · rw [ends_iff_of_passes_nil h, and_iff_left (not_meetsFailure_of_passes h)]
    exact ⟨fun heq hcirculates => hcirculates.around heq, fun hnot => not_not.mp fun hne =>
      hnot ⟨h, hne⟩⟩
  · rw [List.append_nil] at hends
    exact iff_of_false hends fun h => h.2 hfails
  · rw [List.append_nil] at hends
    exact iff_of_true hends ⟨fun h => hstop h.passes, hfails⟩

end Turns

end RoundRobin

end N8n
