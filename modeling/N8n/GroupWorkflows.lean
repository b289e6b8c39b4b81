/-
Which versions of a workflow are pruned: `groupWorkflows`.

The loop goes down from the last version and compares each one with the version that then stands
behind it.  If they are merged, the earlier one is taken out of the array that the loop indexes.

* **`groupWorkflows_spec`** — what is removed, what remains, and which pairs of versions the rules
  were asked about.
-/
import N8n.WorkflowDiff

namespace N8n.WorkflowDiff

mutual
/-- A rough estimate of the number of characters; a value that is no string or is empty has one. -/
def determineNodeSize : JsValue → ℕ
  | .string s => if s = "" then 1 else (utf16 s).length
  | .array items => 1 + itemsSize items
  | .object fields => 1 + fieldsSize fields
  | _ => 1

def itemsSize : List JsValue → ℕ
  | [] => 0
  | v :: items => determineNodeSize v + itemsSize items

def fieldsSize : List (String × JsValue) → ℕ
  | [] => 0
  | (_, v) :: fields => determineNodeSize v + fieldsSize fields
end

def determineNodeParametersSize (workflow : DiffableWorkflow) : ℕ :=
  (workflow.nodes.map fun x => determineNodeSize x.parameters.1).sum

structure DiffMetaData where
  workflowSizeScore : Option ℕ
  deriving DecidableEq

/-- The metadata that the rules are given; a score only if it was asked for. -/
def diffMetaData {W : Type} (base : W → DiffableWorkflow) (workflows : List W)
    (workflowSizeScore : Bool) : DiffMetaData where
  workflowSizeScore :=
    if workflowSizeScore then do
      let middle ← workflows[workflows.length / 2]?
      let last ← workflows[workflows.length - 1]?
      return max (determineNodeParametersSize (base middle))
        (determineNodeParametersSize (base last))
    else none

abbrev DiffRule (W : Type) := W → W → WorkflowChangeSet → DiffMetaData → Bool

structure Grouped (W : Type) where
  removed : List W
  remaining : List W

section

variable {W : Type} (base : W → DiffableWorkflow) (rules skipRules : List (DiffRule W))
  (metaData : DiffMetaData)

/-- Whether a rule accepts two versions, given what changed between them. -/
def Accepts (rule : DiffRule W) (prev next : W) : Prop :=
  rule prev next (changeSet (base prev) (base next)) metaData = true

instance (rule : DiffRule W) (prev next : W) : Decidable (Accepts base metaData rule prev next) :=
  inferInstanceAs (Decidable (_ = true))

def groupStep (i : ℕ) (grouped : Grouped W) : Grouped W :=
  match grouped.remaining[i - 1]?, grouped.remaining[i]? with
  | some prev, some next =>
    if ∃ shouldSkip ∈ skipRules, Accepts base metaData shouldSkip prev next then grouped
    else if ∃ rule ∈ rules, Accepts base metaData rule prev next then
      { removed := grouped.removed ++ [prev], remaining := grouped.remaining.eraseIdx (i - 1) }
    else grouped
  | _, _ => grouped

/-- The loop from position `i` down to 1. -/
def groupLoop : ℕ → Grouped W → Grouped W
  | 0, grouped => grouped
  | i + 1, grouped => groupLoop i (groupStep base rules skipRules metaData (i + 1) grouped)

def groupWorkflows (workflows : List W) (workflowSizeScore : Bool) : Grouped W :=
  match workflows with
  | [] => ⟨[], []⟩
  | [workflow] => ⟨[], [workflow]⟩
  | _ => groupLoop base rules skipRules (diffMetaData base workflows workflowSizeScore)
      (workflows.length - 1) ⟨[], workflows⟩

/-- No skip rule and some rule accepted. -/
def Merges (prev next : W) : Prop :=
  (∀ shouldSkip ∈ skipRules, ¬ Accepts base metaData shouldSkip prev next) ∧
    ∃ rule ∈ rules, Accepts base metaData rule prev next

instance (prev next : W) : Decidable (Merges base rules skipRules metaData prev next) :=
  inferInstanceAs (Decidable (_ ∧ _))

end

section

variable {W : Type}

/-- Versions marked as kept or not. -/
abbrev Marking (W : Type) := List (W × Bool)

variable (marking : Marking W)

def kept : List W := (marking.filter fun m => m.2).map Prod.fst

def dropped : List W := (marking.filter fun m => !m.2).map Prod.fst

/-- Each version is dropped iff it is merged with the first kept one behind it. -/
def Settled (merges : W → W → Prop) : Marking W → Prop
  | [] => True
  | (w, keep) :: marking =>
    (∀ s ∈ (kept marking).head?, (keep = false ↔ merges w s)) ∧ Settled merges marking

variable {merges : W → W → Prop} {before between after : Marking W} {w s : W} {keep : Bool}

theorem kept_append (marking marking' : Marking W) :
    kept (marking ++ marking') = kept marking ++ kept marking' := by
  rw [kept, List.filter_append, List.map_append]
  rfl

theorem kept_of_dropped (h : ∀ m ∈ between, m.2 = false) : kept between = [] := by
  rw [kept, List.filter_eq_nil_iff.mpr fun m hm => by rw [h m hm]; exact Bool.false_ne_true]
  rfl

theorem Settled.iff (hsettled : Settled merges (before ++ (w, keep) :: between ++ (s, true) :: after))
    (hbetween : ∀ m ∈ between, m.2 = false) : keep = false ↔ merges w s := by
  induction before with
  | nil =>
    have hkept : kept (between ++ (s, true) :: after) = s :: kept after := by
      rw [kept_append, kept_of_dropped hbetween]
      rfl
    exact hsettled.1 s (congrArg List.head? hkept)
  | cons m before ih => exact ih hsettled.2

theorem perm_marking : (kept marking ++ dropped marking).Perm (marking.map Prod.fst) := by
  rw [kept, dropped, ← List.map_append]
  exact (List.filter_append_perm (fun m : W × Bool => m.2) marking).map Prod.fst

theorem sublist_marking : (kept marking).Sublist (marking.map Prod.fst) :=
  List.filter_sublist.map _

end

variable {W : Type} {base : W → DiffableWorkflow} {rules skipRules : List (DiffRule W)}
  {metaData : DiffMetaData}

theorem groupStep_eq (before tail removed : List W) (p s : W) :
    groupStep base rules skipRules metaData (before.length + 1)
        ⟨removed, before ++ p :: s :: tail⟩ =
      if Merges base rules skipRules metaData p s then ⟨removed ++ [p], before ++ s :: tail⟩
      else ⟨removed, before ++ p :: s :: tail⟩ := by
  have hprev : (before ++ p :: s :: tail)[before.length + 1 - 1]? = some p := by simp
  have hnext : (before ++ p :: s :: tail)[before.length + 1]? = some s := by simp
  have herase : (before ++ p :: s :: tail).eraseIdx (before.length + 1 - 1) =
      before ++ s :: tail := by
    rw [Nat.add_sub_cancel, List.eraseIdx_append_of_length_le le_rfl, Nat.sub_self]
    rfl
  rw [groupStep]
  simp only [hprev, hnext, herase]
  by_cases hskip : ∃ shouldSkip ∈ skipRules, Accepts base metaData shouldSkip p s
  · obtain ⟨shouldSkip, hmem, haccepts⟩ := hskip
    rw [if_pos ⟨shouldSkip, hmem, haccepts⟩, if_neg fun h => h.1 shouldSkip hmem haccepts]
  · rw [if_neg hskip]
    refine if_congr ⟨fun h => ⟨fun shouldSkip hmem haccepts => ?_, h⟩, fun h => h.2⟩ rfl rfl
    exact hskip ⟨shouldSkip, hmem, haccepts⟩

/-- **The loop**: the versions it still goes through are marked, in front of those that are. -/
theorem exists_marking (before : List W) :
    ∀ (rest : Marking W) (removed : List W), kept rest ≠ [] →
      Settled (Merges base rules skipRules metaData) rest →
      ∃ marking : Marking W, marking.map Prod.fst = before ∧
        groupLoop base rules skipRules metaData before.length ⟨removed, before ++ kept rest⟩ =
          ⟨removed ++ (dropped marking).reverse, kept (marking ++ rest)⟩ ∧
        Settled (Merges base rules skipRules metaData) (marking ++ rest) := by
  induction before using List.reverseRecOn with
  | nil =>
    intro rest removed _ hsettled
    exact ⟨[], rfl, by simp [groupLoop, dropped], hsettled⟩
  | append_singleton before p ih =>
    intro rest removed hne hsettled
    obtain ⟨s, tail, hkept⟩ := List.exists_cons_of_ne_nil hne
    have hhead : ∀ s' ∈ (kept rest).head?, s' = s := by
      rw [hkept]
      exact fun s' hs' => (Option.some.inj hs').symm
    rw [List.length_append, List.length_singleton, groupLoop, List.append_assoc, List.singleton_append,
      hkept, groupStep_eq]
    by_cases hmerges : Merges base rules skipRules metaData p s
    · obtain ⟨marking, hmarking, hloop, hall⟩ := ih ((p, false) :: rest) (removed ++ [p]) hne
        ⟨fun s' hs' => by rw [hhead s' hs']; exact iff_of_true rfl hmerges, hsettled⟩
      refine ⟨marking ++ [(p, false)], by simp [hmarking], ?_, by simpa using hall⟩
      rw [if_pos hmerges, ← hkept]
      refine hloop.trans ?_
      simp [dropped]
    · obtain ⟨marking, hmarking, hloop, hall⟩ := ih ((p, true) :: rest) removed
        (List.cons_ne_nil p _)
        ⟨fun s' hs' => by rw [hhead s' hs']; exact iff_of_false Bool.noConfusion hmerges, hsettled⟩
      refine ⟨marking ++ [(p, true)], by simp [hmarking], ?_, by simpa using hall⟩
      rw [if_neg hmerges, ← hkept]
      refine hloop.trans ?_
      simp [dropped]

/-- The versions are split into those that remain and those that are removed, the last ones first;
which is which is settled by the rules. -/
structure Pruned (base : W → DiffableWorkflow) (rules skipRules : List (DiffRule W))
    (metaData : DiffMetaData) (workflows : List W) (grouped : Grouped W) (marking : Marking W) :
    Prop where
  versions : marking.map Prod.fst = workflows
  remaining : grouped.remaining = kept marking
  removed : grouped.removed = (dropped marking).reverse
  perm : (grouped.remaining ++ grouped.removed).Perm workflows
  order : grouped.remaining.Sublist workflows
  last : grouped.remaining.getLast? = workflows.getLast?
  behind : ∀ before w after, marking = before ++ (w, false) :: after →
    ∃ between s after', after = between ++ (s, true) :: after' ∧ ∀ m ∈ between, m.2 = false
  merged : ∀ before w between s after,
    marking = before ++ (w, false) :: between ++ (s, true) :: after →
    (∀ m ∈ between, m.2 = false) →
    (∀ shouldSkip ∈ skipRules, ¬ Accepts base metaData shouldSkip w s) ∧
      ∃ rule ∈ rules, Accepts base metaData rule w s
  apart : ∀ before p between s after,
    marking = before ++ (p, true) :: between ++ (s, true) :: after →
    (∀ m ∈ between, m.2 = false) →
    (∃ shouldSkip ∈ skipRules, Accepts base metaData shouldSkip p s) ∨
      ∀ rule ∈ rules, ¬ Accepts base metaData rule p s

theorem pruned_of_settled {marking : Marking W} {last : W}
    (hsettled : Settled (Merges base rules skipRules metaData) (marking ++ [(last, true)])) :
    Pruned base rules skipRules metaData (marking.map Prod.fst ++ [last])
      ⟨(dropped marking).reverse, kept (marking ++ [(last, true)])⟩ (marking ++ [(last, true)]) := by
  have hversions : (marking ++ [(last, true)]).map Prod.fst = marking.map Prod.fst ++ [last] :=
    List.map_append
  have hdropped : dropped (marking ++ [(last, true)]) = dropped marking := by simp [dropped]
  refine ⟨hversions, rfl, by rw [hdropped], ?_, ?_, ?_, ?_, ?_, ?_⟩
  · have hperm := perm_marking (marking ++ [(last, true)])
    rw [hdropped, hversions] at hperm
    exact ((List.reverse_perm _).append_left _).trans hperm
  · exact hversions ▸ sublist_marking (marking ++ [(last, true)])
  · show (kept (marking ++ [(last, true)])).getLast? = _
    rw [kept_append, List.getLast?_concat]
    exact List.getLast?_concat
  · intro before w after hsplit
    -- the last entry is behind it, so some kept one is
    have hlast : (last, true) ∈ after := by
      have hends := congrArg List.getLast? hsplit
      rcases List.eq_nil_or_concat after with rfl | ⟨front, m, rfl⟩
      · rw [List.getLast?_concat, List.getLast?_concat] at hends
        cases hends
      · rw [List.concat_eq_append, ← List.cons_append, ← List.append_assoc, List.getLast?_concat,
          List.getLast?_concat] at hends
        rw [Option.some.inj hends]
        simp
    obtain ⟨⟨s, keep⟩, hfind⟩ := Option.isSome_iff_exists.mp
      (List.find?_isSome.mpr ⟨_, hlast, rfl⟩ : (after.find? fun m => m.2).isSome = true)
    obtain ⟨hkeep, between, after', hafter, hbetween⟩ := List.find?_eq_some_iff_append.mp hfind
    obtain rfl : keep = true := hkeep
    exact ⟨between, s, after', hafter, by simpa using hbetween⟩
  · intro before w between s after hsplit hbetween
    exact (Settled.iff (hsplit ▸ hsettled) hbetween).mp rfl
  · intro before p between s after hsplit hbetween
    have hnot : ¬ Merges base rules skipRules metaData p s := fun h =>
      Bool.noConfusion ((Settled.iff (hsplit ▸ hsettled) hbetween).mpr h)
    by_contra hneither
    obtain ⟨hskip, hrule⟩ := not_or.mp hneither
    refine hnot ⟨fun shouldSkip hmem haccepts => hskip ⟨shouldSkip, hmem, haccepts⟩, ?_⟩
    simpa using hrule

theorem groupWorkflows_eq (workflows : List W) (workflowSizeScore : Bool) :
    groupWorkflows base rules skipRules workflows workflowSizeScore =
      groupLoop base rules skipRules (diffMetaData base workflows workflowSizeScore)
        (workflows.length - 1) ⟨[], workflows⟩ := by
  rcases workflows with _ | ⟨first, _ | ⟨second, rest⟩⟩
  · rfl
  · rfl
  · rfl

/-- **What is pruned**: nothing is lost or doubled, the order and the last version are kept; a
version is removed iff it is merged with the first one behind it that remains. -/
theorem groupWorkflows_spec (workflows : List W) (workflowSizeScore : Bool) :
    ∃ marking, Pruned base rules skipRules (diffMetaData base workflows workflowSizeScore) workflows
      (groupWorkflows base rules skipRules workflows workflowSizeScore) marking := by
  rcases List.eq_nil_or_concat workflows with rfl | ⟨before, last, rfl⟩
  · refine ⟨[], rfl, rfl, rfl, .refl _, .refl _, rfl, ?_, ?_, ?_⟩ <;> intro before <;> simp
  · rw [List.concat_eq_append]
    obtain ⟨marking, rfl, hloop, hsettled⟩ := @exists_marking W base rules skipRules
      (diffMetaData base (before ++ [last]) workflowSizeScore) before [(last, true)] []
      (List.cons_ne_nil last []) ⟨fun s hs => (by cases hs), trivial⟩
    refine ⟨marking ++ [(last, true)], ?_⟩
    rw [groupWorkflows_eq, List.length_append, List.length_singleton, Nat.add_sub_cancel]
    refine Eq.substr hloop ?_
    exact pruned_of_settled hsettled

end N8n.WorkflowDiff
