/-
Compaction of the workflow history: `pruneHistory`, and the rules it is called with.

A pass fetches the versions of a workflow in a window of time, groups them, and deletes those that
were merged with a later one.  The order of versions of one time is left to the database.

* **`stored_of_protected`** — what every sequence of passes keeps.
-/
import N8n.GroupWorkflows

namespace N8n.WorkflowDiff

/-- A row of the table; times are in milliseconds. -/
structure WorkflowHistory where
  versionId : String
  workflowId : String
  createdAt : ℕ
  workflow : DiffableWorkflow
  authors : String
  name : Option String
  description : Option String

def makeMergeShortTimeSpan (timeDiffMs : ℕ) : DiffRule WorkflowHistory := fun prev next _ _ =>
  max prev.createdAt next.createdAt - min prev.createdAt next.createdAt < timeDiffMs

def skipDifferentUsers : DiffRule WorkflowHistory := fun prev next _ _ => next.authors ≠ prev.authors

def makeSkipActiveAndNamedVersionsRule (activeVersions : List String) : DiffRule WorkflowHistory :=
  fun prev _ _ _ =>
    prev.name ≠ none ∨ prev.description ≠ none ∨ prev.versionId ∈ activeVersions

/-- What a call is passed, and what the database returns to it. -/
structure Pass where
  workflowId : String
  startDate : ℕ
  endDate : ℕ
  rules : List (DiffRule WorkflowHistory)
  skipRules : List (DiffRule WorkflowHistory)
  workflowSizeScore : Bool
  publishedVersions : List String
  workflows : List WorkflowHistory

namespace Pass

variable (pass : Pass)

def InWindow (row : WorkflowHistory) : Prop :=
  row.workflowId = pass.workflowId ∧ pass.startDate ≤ row.createdAt ∧ row.createdAt ≤ pass.endDate

instance (row : WorkflowHistory) : Decidable (pass.InWindow row) :=
  inferInstanceAs (Decidable (_ ∧ _))

def allSkipRules : List (DiffRule WorkflowHistory) :=
  makeSkipActiveAndNamedVersionsRule pass.publishedVersions :: skipDifferentUsers :: pass.skipRules

def grouped : Grouped WorkflowHistory :=
  groupWorkflows WorkflowHistory.workflow pass.rules pass.allSkipRules pass.workflows
    pass.workflowSizeScore

def metaData : DiffMetaData :=
  diffMetaData WorkflowHistory.workflow pass.workflows pass.workflowSizeScore

/-- The rows that are left. -/
def pruneHistory (rows : List WorkflowHistory) : List WorkflowHistory :=
  rows.filter fun row => row.versionId ∉ pass.grouped.removed.map WorkflowHistory.versionId

/-- The query: the rows of the window, in ascending order. -/
structure Fetched (rows : List WorkflowHistory) : Prop where
  perm : pass.workflows.Perm (rows.filter fun row => pass.InWindow row)
  sorted : pass.workflows.Pairwise fun a b => a.createdAt ≤ b.createdAt

/-- A version that a pass may delete from the table. -/
structure Deletable (left : List WorkflowHistory) (row : WorkflowHistory) : Prop where
  window : pass.InWindow row
  unnamed : row.name = none ∧ row.description = none
  unpublished : row.versionId ∉ pass.publishedVersions
  next : ∃ before next after, pass.workflows = before ++ row :: next :: after ∧
    next.authors = row.authors
  merged : ∃ later ∈ left, later.workflowId = row.workflowId ∧ later.authors = row.authors ∧
    row.createdAt ≤ later.createdAt ∧
    (∀ shouldSkip ∈ pass.skipRules,
      ¬ Accepts WorkflowHistory.workflow pass.metaData shouldSkip row later) ∧
    ∃ rule ∈ pass.rules, Accepts WorkflowHistory.workflow pass.metaData rule row later

variable {pass} {rows : List WorkflowHistory} {row : WorkflowHistory}

theorem exists_pruned (pass : Pass) : ∃ marking, Pruned WorkflowHistory.workflow pass.rules
    pass.allSkipRules pass.metaData pass.workflows pass.grouped marking := by
  rw [grouped, metaData]
  rcases List.eq_nil_or_concat pass.workflows with hnil | ⟨before, last, hlast⟩
  · rw [hnil]
    refine ⟨[], rfl, rfl, rfl, .refl _, .refl _, rfl, ?_, ?_, ?_⟩ <;> intro before <;> simp
  · rw [hlast, List.concat_eq_append]
    obtain ⟨marking, rfl, hloop, hsettled⟩ := @exists_marking _ WorkflowHistory.workflow pass.rules
      pass.allSkipRules
      (diffMetaData WorkflowHistory.workflow (before ++ [last]) pass.workflowSizeScore)
      before [(last, true)] [] (List.cons_ne_nil last []) ⟨fun s hs => (by cases hs), trivial⟩
    refine ⟨marking ++ [(last, true)], ?_⟩
    rw [groupWorkflows_eq, List.length_append, List.length_singleton, Nat.add_sub_cancel]
    refine Eq.substr hloop ?_
    exact pruned_of_settled hsettled

theorem of_not_accepts {w s : WorkflowHistory} (h : ∀ shouldSkip ∈ pass.allSkipRules,
    ¬ Accepts WorkflowHistory.workflow pass.metaData shouldSkip w s) :
    s.authors = w.authors ∧ w.name = none ∧ w.description = none ∧
      w.versionId ∉ pass.publishedVersions := by
  have hactive := h _ List.mem_cons_self
  have husers := h _ (List.mem_cons_of_mem _ List.mem_cons_self)
  simp only [Accepts, makeSkipActiveAndNamedVersionsRule, skipDifferentUsers, decide_eq_true_eq,
    not_or, not_not] at hactive husers
  exact ⟨husers, hactive⟩

theorem Fetched.mem (hfetched : pass.Fetched rows) (hrow : row ∈ pass.workflows) :
    row ∈ rows ∧ pass.InWindow row := by
  simpa using List.mem_filter.mp (hfetched.perm.subset hrow)

section

variable (hfetched : pass.Fetched rows) (hnodup : (rows.map WorkflowHistory.versionId).Nodup)
include hfetched hnodup

/-- The ids of the rows tell what a pass keeps from what it deletes. -/
theorem mem_pruneHistory_iff (hrow : row ∈ rows) :
    row ∈ pass.pruneHistory rows ↔ row ∉ pass.grouped.removed := by
  obtain ⟨marking, h⟩ := exists_pruned pass
  rw [pruneHistory, List.mem_filter, decide_eq_true_iff, and_iff_right hrow, List.mem_map]
  refine not_congr ⟨?_, fun hremoved => ⟨row, hremoved, rfl⟩⟩
  rintro ⟨w, hw, hid⟩
  have hmem := (hfetched.mem (h.perm.subset (List.mem_append_right _ hw))).1
  exact List.inj_on_of_nodup_map hnodup hmem hrow hid ▸ hw

theorem disjoint_grouped : pass.grouped.remaining.Disjoint pass.grouped.removed := by
  obtain ⟨marking, h⟩ := exists_pruned pass
  refine List.disjoint_of_nodup_append (h.perm.nodup_iff.mpr (hfetched.perm.nodup_iff.mpr ?_))
  exact (List.Nodup.of_map _ hnodup).filter _

/-- Step lemma: **what a pass deletes** was merged with a later version of the same authors. -/
theorem deletable (hrow : row ∈ rows) (hnot : row ∉ pass.pruneHistory rows) :
    pass.Deletable (pass.pruneHistory rows) row := by
  obtain ⟨marking, h⟩ := exists_pruned pass
  have hremoved := not_not.mp (mt (mem_pruneHistory_iff hfetched hnodup hrow).mpr hnot)
  obtain ⟨before, after, hsplit⟩ : ∃ before after, marking = before ++ (row, false) :: after := by
    rw [h.removed, List.mem_reverse, dropped] at hremoved
    obtain ⟨⟨w, keep⟩, hw, rfl⟩ := List.mem_map.mp hremoved
    obtain ⟨hw, hkeep⟩ := List.mem_filter.mp hw
    obtain rfl : keep = false := by simpa using hkeep
    exact List.append_of_mem hw
  obtain ⟨between, s, after', rfl, hbetween⟩ := h.behind before row after hsplit
  have hmerged := h.merged before row between s after' (by rw [hsplit, List.append_assoc]; rfl)
    hbetween
  obtain ⟨hauthors, hname, hdescription, hpublished⟩ := of_not_accepts hmerged.1
  have hversions : pass.workflows =
      before.map Prod.fst ++ row :: (between.map Prod.fst ++ s :: after'.map Prod.fst) := by
    rw [← h.versions, hsplit]
    simp
  have hs : s ∈ rows ∧ pass.InWindow s := hfetched.mem (by rw [hversions]; simp)
  have hkept : s ∈ pass.grouped.remaining := by
    rw [h.remaining, hsplit, kept]
    exact List.mem_map.mpr ⟨(s, true), by simp, rfl⟩
  have hwindow := (hfetched.mem (h.perm.subset (List.mem_append_right _ hremoved))).2
  refine ⟨hwindow, ⟨hname, hdescription⟩, hpublished, ?_, s, ?_, hs.2.1.trans hwindow.1.symm, hauthors,
    ?_, fun shouldSkip hskip => ?_, hmerged.2⟩
  · rcases between with _ | ⟨⟨m, keep⟩, between⟩
    · exact ⟨_, s, _, hversions, hauthors⟩
    · obtain rfl : keep = false := hbetween _ List.mem_cons_self
      refine ⟨_, m, _, hversions, ?_⟩
      have hnext := h.merged (before ++ [(row, false)]) m between s after' (by rw [hsplit]; simp)
        fun m' hm' => hbetween m' (List.mem_cons_of_mem _ hm')
      exact (of_not_accepts hnext.1).1.symm.trans hauthors
  · exact (mem_pruneHistory_iff hfetched hnodup hs.1).mpr (disjoint_grouped hfetched hnodup hkept)
  · have hsorted := hfetched.sorted
    rw [hversions, List.pairwise_append, List.pairwise_cons] at hsorted
    exact hsorted.2.1.1 s (by simp)
  · exact hmerged.1 shouldSkip (List.mem_cons_of_mem _ (List.mem_cons_of_mem _ hskip))

end

/-- No pass may delete the version. -/
def Protected (rows : List WorkflowHistory) (passes : List Pass) (row : WorkflowHistory) : Prop :=
  row.name ≠ none ∨ row.description ≠ none ∨
    (∀ pass ∈ passes, row.versionId ∈ pass.publishedVersions) ∨
    ∀ r ∈ rows, r.workflowId = row.workflowId → r ≠ row → r.createdAt < row.createdAt

/-- What every pass does: the version stays, and the others that it deletes it may delete. -/
def Keeps (row : WorkflowHistory) (rows : List WorkflowHistory) (pass : Pass)
    (left : List WorkflowHistory) : Prop :=
  row ∈ left ∧ ∀ other ∈ rows, other ∉ left → pass.Deletable left other

/-- **In every sequence of passes** the named and the published versions stay stored, and the newest
one of each workflow; and what is deleted was merged with a later version of the same authors. -/
theorem stored_of_protected (rows : List WorkflowHistory) (passes : List Pass)
    (hnodup : (rows.map WorkflowHistory.versionId).Nodup) (hrow : row ∈ rows)
    (hprotected : Protected rows passes row)
    (hfetched : Along (fun rows pass => (.ok (pass.pruneHistory rows) : Except Empty _))
      (fun rows pass _ => pass ∈ passes ∧ pass.Fetched rows) rows passes) :
    Along (fun rows pass => (.ok (pass.pruneHistory rows) : Except Empty _)) (Keeps row) rows
      passes := by
  refine Along.of_step (I := fun left => left.Sublist rows ∧ row ∈ left) ?_
    ⟨List.Sublist.refl _, hrow⟩ hfetched
  rintro left pass _ ⟨hleft, hrow⟩ ⟨⟩ ⟨hpass, hfetched⟩
  have hdeletable : ∀ other ∈ left, other ∉ pass.pruneHistory left →
      pass.Deletable (pass.pruneHistory left) other := fun other hother =>
    deletable hfetched (hnodup.sublist (hleft.map _)) hother
  have hstays : row ∈ pass.pruneHistory left := by
    by_contra hnot
    have h := hdeletable row hrow hnot
    rcases hprotected with hname | hdescription | hpublished | hnewest
    · exact hname h.unnamed.1
    · exact hdescription h.unnamed.2
    · exact h.unpublished (hpublished pass hpass)
    · obtain ⟨later, hlater, hworkflow, -, hle, -⟩ := h.merged
      have hne : later ≠ row := fun heq => hnot (heq ▸ hlater)
      exact absurd hle (Nat.not_le.mpr
        (hnewest later (hleft.subset (List.mem_of_mem_filter hlater)) hworkflow hne))
  exact ⟨⟨hstays, hdeletable⟩, List.filter_sublist.trans hleft, hstays⟩

/-- Three versions within a minute; the second one has a name. -/
def savedVersions : List WorkflowHistory :=
  let version (versionId : String) (createdAt : ℕ) (name : Option String) : WorkflowHistory :=
    { versionId, workflowId := "w1", createdAt, workflow := ⟨[], Dict.empty⟩, authors := "Ada",
      name, description := none }
  [version "v1" 1000 none, version "v2" 2000 (some "release"), version "v3" 3000 none]

def minutePass : Pass where
  workflowId := "w1"
  startDate := 0
  endDate := 5000
  rules := [makeMergeShortTimeSpan 60000]
  skipRules := []
  workflowSizeScore := false
  publishedVersions := []
  workflows := savedVersions

theorem stored_of_protected_release : ∃ release ∈ savedVersions, release.name = some "release" ∧
    Along (fun rows pass => (.ok (pass.pruneHistory rows) : Except Empty _)) (Keeps release)
      savedVersions [minutePass] := by
  refine ⟨savedVersions[1], List.getElem_mem _, rfl, stored_of_protected savedVersions [minutePass]
    (by decide) (List.getElem_mem _) (.inl (by decide)) fun rows hrows => ⟨⟨?_, ?_⟩, trivial⟩⟩
  · exact List.mem_singleton.mpr rfl
  · exact ⟨.of_eq rfl, by decide⟩

end Pass

end N8n.WorkflowDiff
