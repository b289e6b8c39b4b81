/-
When deduplication in the latest modes keeps the maximum.

The first call stores the last of its sorted items.  If it has none, what is stored is undefined,
and a later call compares its items with that.

* **`keepsMaximum_iff`** — no call throws and each report and row is as it should be iff the first
  batch has an item or no batch has.
-/
import N8n.Deduplication
import Mathlib.Data.List.Induction
import Mathlib.Order.MinMax

namespace N8n.Deduplication

variable {ι K : Type} [LinearOrder K]

section

variable (c : Conversions ι K) {options : ICheckProcessedOptions}

/-- The row holds a largest of the items submitted so far. -/
def HoldsLargest (mode : DeduplicationMode) (submitted : List ι) (row : Option (ProcessedData ι)) :
    Prop :=
  submitted ≠ [] → ∃ value, row = some ⟨mode, .latest (some value)⟩ ∧ value ∈ submitted ∧
    ∀ item ∈ submitted, c.key mode item ≤ c.key mode value

/-- New is an item that is larger than all of the items before. -/
def Exceeds (mode : DeduplicationMode) (submitted : List ι) (item : ι) : Prop :=
  ∀ earlier ∈ submitted, c.key mode earlier < c.key mode item

instance (mode : DeduplicationMode) (submitted : List ι) (item : ι) :
    Decidable (Exceeds c mode submitted item) :=
  inferInstanceAs (Decidable (∀ earlier ∈ submitted, _ < _))

variable {c}

/-- The row after a call. -/
def stepLatest (sorting : Sorting c options.mode) (row : Option (ProcessedData ι))
    (items : List ι) : Except JsError (Option (ProcessedData ι)) := do
  return (← checkProcessedAndRecord c options sorting items row).2

/-- Each call returns, reports as new the items that exceed all earlier ones and as processed the
others, and stores a largest of all items so far. -/
def KeepsMaximum (sorting : Sorting c options.mode) (batches : List (List ι)) : Prop :=
  ∀ before items, before ++ [items] <+: batches →
    ∃ row report row', runInputs (stepLatest sorting) none before = .ok row ∧
      checkProcessedAndRecord c options sorting items row = .ok (report, row') ∧
      report.new.Perm (items.filter fun item => Exceeds c options.mode before.flatten item) ∧
      report.processed.Perm
        (items.filter fun item => ¬ Exceeds c options.mode before.flatten item) ∧
      HoldsLargest c options.mode (before ++ [items]).flatten row'

end

variable {c : Conversions ι K} {options : ICheckProcessedOptions} {mode : DeduplicationMode}
  {items : List ι}

theorem compareValues_of_valid {a b : ι} (ha : c.Valid mode a) (hb : c.Valid mode b) :
    ∃ r, c.compareValues mode a b = .ok r ∧ (r = 1 ↔ c.key mode b < c.key mode a) := by
  cases mode with
  | entries => exact absurd rfl ha
  | latestIncrementalKey =>
    obtain ⟨num1, (hnum1 : c.number a = some num1)⟩ := Option.ne_none_iff_exists'.mp ha
    obtain ⟨num2, (hnum2 : c.number b = some num2)⟩ := Option.ne_none_iff_exists'.mp hb
    refine ⟨if num1 = num2 then 0 else if num2 < num1 then 1 else -1, ?_, ?_⟩
    · simp only [Conversions.compareValues, hnum1, hnum2]
    · have hlt : c.key .latestIncrementalKey b < c.key .latestIncrementalKey a ↔ num2 < num1 := by
        have hkey1 : c.key .latestIncrementalKey a = (num1 : WithBot K) := hnum1
        have hkey2 : c.key .latestIncrementalKey b = (num2 : WithBot K) := hnum2
        rw [hkey1, hkey2, WithBot.coe_lt_coe]
      rw [hlt]
      split
      · next heq => simp [heq]
      · split
        · next hless => simp [hless]
        · next hless => simp [hless]
  | latestDate =>
    obtain ⟨date1, (hdate1 : c.date a = some date1)⟩ := Option.ne_none_iff_exists'.mp ha
    obtain ⟨date2, (hdate2 : c.date b = some date2)⟩ := Option.ne_none_iff_exists'.mp hb
    refine ⟨if date2 < date1 then 1 else -1, ?_, ?_⟩
    · simp only [Conversions.compareValues, hdate1, hdate2]
    · have hlt : c.key .latestDate b < c.key .latestDate a ↔ date2 < date1 := by
        have hkey1 : c.key .latestDate a = (date1 : WithBot K) := hdate1
        have hkey2 : c.key .latestDate b = (date2 : WithBot K) := hdate2
        rw [hkey1, hkey2, WithBot.coe_lt_coe]
      rw [hlt]
      split
      · next hless => simp [hless]
      · next hless => simp [hless]

theorem sortEntries_of_valid {sorting : Sorting c mode}
    (hvalid : ∀ item ∈ items, c.Valid mode item) :
    sortEntries c sorting items = .ok (sorting.sort items) := by
  rw [sortEntries]
  split
  · obtain ⟨rs, hrs⟩ := mapM_isOk_iff.mpr fun item hitem =>
      (compareValues_of_valid (hvalid item hitem) (hvalid item hitem)).imp fun _ h => h.1
    rw [hrs]
    rfl
  · rfl

theorem checkLatest_loop {stored : ι} (hstored : c.Valid mode stored) :
    ∀ {items new processed : List ι} {largest : ι}, (∀ item ∈ items, c.Valid mode item) →
      c.Valid mode largest → c.key mode stored ≤ c.key mode largest →
      ∃ largest', items.foldlM (checkLatest c mode stored) ⟨⟨new, processed⟩, largest⟩ = .ok
          ⟨⟨new ++ items.filter fun item => c.key mode stored < c.key mode item,
            processed ++ items.filter fun item => ¬ c.key mode stored < c.key mode item⟩,
            largest'⟩ ∧
        largest' ∈ largest :: items ∧
        ∀ item ∈ largest :: items, c.key mode item ≤ c.key mode largest' := by
  intro items
  induction items with
  | nil =>
    intro new processed largest _ _ _
    exact ⟨largest, by simp [pure, Except.pure], by simp, by simp⟩
  | cons item items ih =>
    intro new processed largest hvalid hlargest hle
    obtain ⟨hitem, hitems⟩ := List.forall_mem_cons.mp hvalid
    obtain ⟨r, hr, hriff⟩ := compareValues_of_valid hitem hstored
    obtain ⟨q, hq, hqiff⟩ := compareValues_of_valid hitem hlargest
    rw [List.foldlM_cons]
    by_cases hnew : c.key mode stored < c.key mode item
    · -- the running maximum now covers this item
      have hround : checkLatest c mode stored ⟨⟨new, processed⟩, largest⟩ item =
          .ok ⟨⟨new ++ [item], processed⟩, if q = 1 then item else largest⟩ := by
        rw [checkLatest, hr]
        simp [bind, Except.bind, hriff.mpr hnew, hq, pure, Except.pure]
      have hnext : c.key mode (if q = 1 then item else largest) =
          max (c.key mode largest) (c.key mode item) := by
        split
        · next h => exact (max_eq_right (hqiff.mp h).le).symm
        · next h => exact (max_eq_left (not_lt.mp fun hlt => h (hqiff.mpr hlt))).symm
      obtain ⟨largest', hloop, hmem, hmax⟩ := @ih (new ++ [item]) processed
        (if q = 1 then item else largest) hitems (by split <;> assumption)
        (hnext ▸ hle.trans (le_max_left _ _))
      refine ⟨largest', ?_, ?_, ?_⟩
      · rw [hround]
        refine hloop.trans ?_
        simp only [List.filter_cons, hnew, not_true_eq_false, decide_true, decide_false,
          List.append_assoc, List.singleton_append, if_true, Bool.false_eq_true, if_false]
      · rcases List.mem_cons.mp hmem with rfl | hmem
        · split <;> simp
        · simp [hmem]
      · have hfirst := hmax _ List.mem_cons_self
        rw [hnext, max_le_iff] at hfirst
        rw [List.forall_mem_cons, List.forall_mem_cons]
        exact ⟨hfirst.1, hfirst.2, fun u hu => hmax u (List.mem_cons_of_mem _ hu)⟩
    · have hround : checkLatest c mode stored ⟨⟨new, processed⟩, largest⟩ item =
          .ok ⟨⟨new, processed ++ [item]⟩, largest⟩ := by
        rw [checkLatest, hr]
        simp [bind, Except.bind, mt hriff.mp hnew, pure, Except.pure]
      obtain ⟨largest', hloop, hmem, hmax⟩ :=
        @ih new (processed ++ [item]) largest hitems hlargest hle
      refine ⟨largest', ?_, ?_, ?_⟩
      · rw [hround]
        refine hloop.trans ?_
        simp only [List.filter_cons, hnew, not_false_eq_true, decide_true, decide_false,
          List.append_assoc, List.singleton_append, if_true, Bool.false_eq_true, if_false]
      · rcases List.mem_cons.mp hmem with rfl | hmem
        · simp
        · simp [hmem]
      · have hfirst := hmax _ List.mem_cons_self
        rw [List.forall_mem_cons, List.forall_mem_cons]
        exact ⟨hfirst, (not_lt.mp hnew).trans (hle.trans hfirst),
          fun u hu => hmax u (List.mem_cons_of_mem _ hu)⟩

variable {sorting : Sorting c options.mode} {row : Option (ProcessedData ι)}

theorem checkProcessedAndRecord_latest (hmode : options.mode ≠ .entries) (hrow : ∀ data, row = some data → data.mode = options.mode) :
    checkProcessedAndRecord c options sorting items row =
      handleLatestModes c sorting items row := by
  have hlatest : options.mode = .latestIncrementalKey ∨ options.mode = .latestDate := by
    cases hm : options.mode with
    | entries => exact absurd hm hmode
    | latestIncrementalKey => exact .inl rfl
    | latestDate => exact .inr rfl
  cases row with
  | none => simp [checkProcessedAndRecord, validateMode, hlatest, bind, Except.bind]
  | some data =>
    simp [checkProcessedAndRecord, validateMode, hlatest, hrow data rfl, bind, Except.bind]

theorem check_first (hmode : options.mode ≠ .entries)
    (hvalid : ∀ item ∈ items, c.Valid options.mode item) :
    checkProcessedAndRecord c options sorting items none =
      .ok (⟨items, []⟩, some ⟨options.mode, .latest (sorting.sort items).getLast?⟩) := by
  rw [checkProcessedAndRecord_latest hmode fun data h => by cases h]
  simp only [handleLatestModes, sortEntries_of_valid hvalid, bind, Except.bind]
  rfl

theorem holdsLargest_getLast (hvalid : ∀ item ∈ items, c.Valid options.mode item) :
    HoldsLargest c options.mode items
      (some ⟨options.mode, .latest (sorting.sort items).getLast?⟩) := by
  intro hne
  have hsort : sorting.sort items ≠ [] := fun h => hne (h ▸ sorting.perm items).symm.eq_nil
  refine ⟨(sorting.sort items).getLast hsort, by rw [List.getLast?_eq_some_getLast hsort],
    (sorting.perm items).subset (List.getLast_mem hsort), fun item hitem => ?_⟩
  have hitem' := (sorting.perm items).symm.subset hitem
  have hsorted := sorting.sorted items hvalid
  rw [← List.dropLast_append_getLast hsort] at hitem' hsorted
  rcases List.mem_append.mp hitem' with hfront | hlast
  · exact (List.pairwise_append.mp hsorted).2.2 item hfront _ (List.mem_singleton_self _)
  · exact le_of_eq (congrArg _ (List.mem_singleton.mp hlast))

variable (sorting) in
theorem check_later (hmode : options.mode ≠ .entries)
    (hvalid : ∀ item ∈ items, c.Valid options.mode item) {value : ι}
    (hvalue : c.Valid options.mode value) :
    ∃ report largest,
      checkProcessedAndRecord c options sorting items (some ⟨options.mode, .latest (some value)⟩) =
        .ok (report, some ⟨options.mode, .latest (some largest)⟩) ∧
      report.new.Perm
        (items.filter fun item => c.key options.mode value < c.key options.mode item) ∧
      report.processed.Perm
        (items.filter fun item => ¬ c.key options.mode value < c.key options.mode item) ∧
      largest ∈ value :: items ∧
      ∀ item ∈ value :: items, c.key options.mode item ≤ c.key options.mode largest := by
  have hperm := sorting.perm items
  obtain ⟨largest, hloop, hmem, hmax⟩ := @checkLatest_loop ι K _ c options.mode value hvalue
    (sorting.sort items) [] [] value (fun item hitem => hvalid item (hperm.subset hitem)) hvalue le_rfl
  refine ⟨⟨(sorting.sort items).filter fun item => c.key options.mode value < c.key options.mode item,
    (sorting.sort items).filter fun item => ¬ c.key options.mode value < c.key options.mode item⟩,
    largest, ?_, hperm.filter _, hperm.filter _, (hperm.cons value).subset hmem,
    fun item hitem => hmax item ((hperm.cons value).symm.subset hitem)⟩
  rw [checkProcessedAndRecord_latest hmode fun data h => by cases h; rfl]
  simp only [handleLatestModes, sortEntries_of_valid hvalid, bind, Except.bind, hloop]
  rfl

theorem check_undefined (hmode : options.mode ≠ .entries)
    (hvalid : ∀ item ∈ items, c.Valid options.mode item) {checked : Checked ι} :
    checkProcessedAndRecord c options sorting items (some ⟨options.mode, .latest none⟩) =
      .ok checked ↔ items = [] ∧ checked = (⟨[], []⟩, some ⟨options.mode, .latest none⟩) := by
  rw [checkProcessedAndRecord_latest hmode fun data h => by cases h; rfl]
  have hnil : sorting.sort items = [] ↔ items = [] :=
    ⟨fun h => (h ▸ sorting.perm items).symm.eq_nil, fun h => by
      subst h
      exact (sorting.perm []).eq_nil⟩
  simp only [handleLatestModes, sortEntries_of_valid hvalid, bind, Except.bind, hnil, pure,
    Except.pure]
  split
  · next h => simp [h, eq_comm]
  · next h => simp [h]

/-- The row after some calls: none before the first, undefined while no item was submitted. -/
structure RowAfter (c : Conversions ι K) (mode : DeduplicationMode) (before : List (List ι))
    (row : Option (ProcessedData ι)) : Prop where
  holds : HoldsLargest c mode before.flatten row
  first : before = [] → row = none
  undefined : before ≠ [] → before.flatten = [] → row = some ⟨mode, .latest none⟩

variable {before : List (List ι)}

variable (sorting) in
/-- **One call**: unless it is the first with an item after some without, it reports and stores
what it should. -/
theorem exists_check (hmode : options.mode ≠ .entries) (hrow : RowAfter c options.mode before row)
    (hbefore : ∀ item ∈ before.flatten, c.Valid options.mode item)
    (hvalid : ∀ item ∈ items, c.Valid options.mode item)
    (h : before = [] ∨ before.flatten ≠ [] ∨ items = []) :
    ∃ report row', checkProcessedAndRecord c options sorting items row = .ok (report, row') ∧
      report.new.Perm (items.filter fun item => Exceeds c options.mode before.flatten item) ∧
      report.processed.Perm
        (items.filter fun item => ¬ Exceeds c options.mode before.flatten item) ∧
      RowAfter c options.mode (before ++ [items]) row' := by
  by_cases hfirst : before = []
  · subst hfirst
    obtain rfl := hrow.first rfl
    refine ⟨_, _, check_first hmode hvalid, ?_, ?_, ?_, by simp, ?_⟩
    · simp [Exceeds]
    · simp [Exceeds]
    · simpa using holdsLargest_getLast hvalid
    · intro _ hnone
      obtain rfl : items = [] := by simpa using hnone
      rw [(sorting.perm []).eq_nil, List.getLast?_nil]
  · by_cases hnone : before.flatten = []
    · obtain rfl := hrow.undefined hfirst hnone
      obtain rfl : items = [] := (h.resolve_left hfirst).resolve_left (not_not_intro hnone)
      refine ⟨_, _, (check_undefined hmode hvalid).mpr ⟨rfl, rfl⟩, .refl _, .refl _, ?_, by simp,
        fun _ _ => rfl⟩
      intro hsome
      exact absurd (by simpa using hnone) hsome
    · obtain ⟨value, rfl, hmem, hmax⟩ := hrow.holds hnone
      obtain ⟨report, largest, hcheck, hnew, hprocessed, hlargest, hall⟩ :=
        check_later sorting hmode hvalid (hbefore value hmem)
      -- larger than a largest value is larger than all of them
      have hexceeds : ∀ item, Exceeds c options.mode before.flatten item ↔
          c.key options.mode value < c.key options.mode item := fun item =>
        ⟨fun hitem => hitem value hmem, fun hlt earlier hearlier =>
          (hmax earlier hearlier).trans_lt hlt⟩
      refine ⟨report, _, hcheck, by simpa only [hexceeds] using hnew,
        by simpa only [hexceeds] using hprocessed, ?_, by simp, ?_⟩
      · intro _
        refine ⟨largest, rfl, ?_, ?_⟩
        · rcases List.mem_cons.mp hlargest with rfl | hitem
          · simp [hmem]
          · simp [hitem]
        · intro item hitem
          rw [List.flatten_append, List.mem_append, List.flatten_singleton] at hitem
          rcases hitem with hearlier | hitem
          · exact (hmax item hearlier).trans (hall value List.mem_cons_self)
          · exact hall item (List.mem_cons_of_mem _ hitem)
      · intro _ hnil
        rw [List.flatten_append] at hnil
        exact absurd (List.append_eq_nil_iff.mp hnil).1 hnone

/-- The first batch has an item, or no batch has. -/
def StartsWithItem (batches : List (List ι)) : Prop :=
  batches.head? ≠ some [] ∨ ∀ items ∈ batches, items = []

variable {batches : List (List ι)}

theorem StartsWithItem.call (h : StartsWithItem batches)
    (hbatches : before ++ [items] <+: batches) :
    before = [] ∨ before.flatten ≠ [] ∨ items = [] := by
  rcases h with hhead | hnone
  · cases before with
    | nil => exact .inl rfl
    | cons batch before =>
      obtain ⟨after, rfl⟩ := hbatches
      refine .inr (.inl fun hnil => hhead ?_)
      rw [List.flatten_cons] at hnil
      simp [(List.append_eq_nil_iff.mp hnil).1]
  · exact .inr (.inr (hnone items (hbatches.subset (by simp))))

variable (sorting) in
theorem exists_runLatest (hmode : options.mode ≠ .entries)
    (hvalid : ∀ items ∈ batches, ∀ item ∈ items, c.Valid options.mode item)
    (h : StartsWithItem batches) (hbefore : before <+: batches) :
    ∃ row, runInputs (stepLatest sorting) none before = .ok row ∧
      RowAfter c options.mode before row := by
  induction before using List.reverseRecOn with
  | nil => exact ⟨none, rfl, fun h => absurd rfl h, fun _ => rfl, fun h => absurd rfl h⟩
  | append_singleton before items ih =>
    obtain ⟨row, hrun, hrow⟩ := ih ((List.prefix_append before [items]).trans hbefore)
    obtain ⟨report, row', hcheck, -, -, hrow'⟩ := exists_check sorting hmode hrow
      (fun item hitem => by
        obtain ⟨batch, hbatch, hitem⟩ := List.mem_flatten.mp hitem
        exact hvalid batch (hbefore.subset (List.mem_append_left _ hbatch)) item hitem)
      (hvalid items (hbefore.subset (by simp))) (h.call hbefore)
    refine ⟨row', ?_, hrow'⟩
    rw [runInputs_append hrun, runInputs, stepLatest, hcheck]
    rfl

/-- **When deduplication keeps the maximum**: when the first batch has an item, or none has. -/
theorem keepsMaximum_iff (hmode : options.mode ≠ .entries) {batches : List (List ι)}
    (hvalid : ∀ items ∈ batches, ∀ item ∈ items, c.Valid options.mode item) :
    KeepsMaximum sorting batches ↔ StartsWithItem batches := by
  constructor
  · intro hkeeps
    by_contra hstart
    obtain ⟨hhead, hsome⟩ := not_or.mp hstart
    -- the first batch with an item, behind some without
    obtain ⟨items, hfind⟩ : ∃ items, batches.find? (fun items => items ≠ []) = some items := by
      rw [← Option.isSome_iff_exists, List.find?_isSome]
      simpa using hsome
    obtain ⟨hitems, before, after, rfl, hbefore⟩ := List.find?_eq_some_iff_append.mp hfind
    have hempty : ∀ batch ∈ before, batch = [] := by simpa using hbefore
    have hne : before ≠ [] := by
      rintro rfl
      exact hhead (by simpa using hitems)
    have hsplit : before ++ [items] <+: before ++ items :: after := ⟨after, by simp⟩
    obtain ⟨row, report, row', hrun, hcheck, -⟩ := hkeeps before items hsplit
    obtain ⟨row₂, hrun₂, hrow⟩ := exists_runLatest sorting hmode
      (fun batch hbatch => hvalid batch (by simp [hbatch])) (.inr hempty) (List.prefix_refl before)
    obtain rfl := Except.ok.inj (hrun.symm.trans hrun₂)
    obtain rfl := hrow.undefined hne (List.flatten_eq_nil_iff.mpr hempty)
    exact absurd ((check_undefined hmode (hvalid items (by simp))).mp hcheck).1
      (by simpa using hitems)
  · intro hstart before items hsplit
    obtain ⟨row, hrun, hrow⟩ := exists_runLatest sorting hmode hvalid hstart
      ((List.prefix_append before [items]).trans hsplit)
    obtain ⟨report, row', hcheck, hnew, hprocessed, hrow'⟩ :=
      exists_check sorting hmode hrow
        (fun item hitem => by
          obtain ⟨batch, hbatch, hitem⟩ := List.mem_flatten.mp hitem
          exact hvalid batch (hsplit.subset (List.mem_append_left _ hbatch)) item hitem)
        (hvalid items (hsplit.subset (by simp))) (hstart.call hsplit)
    exact ⟨row, report, row', hrun, hcheck, hnew, hprocessed, hrow'.holds⟩

def numbers : Conversions ℕ ℕ where
  toText := toString
  createHash text := text
  number item := some item
  date _ := none

def incremental : ICheckProcessedOptions where
  mode := .latestIncrementalKey

/-- Unsorted batches, one of them empty. -/
theorem keepsMaximum_numbers :
    KeepsMaximum (Sorting.insertion numbers incremental.mode) [[3, 1], [], [2, 5, 4]] :=
  (keepsMaximum_iff (by decide) fun _ _ _ _ h => by cases h).mpr (.inl (by decide))

/-- After an empty first batch, a batch with an item throws. -/
theorem not_keepsMaximum_emptyFirst :
    ¬ KeepsMaximum (Sorting.insertion numbers incremental.mode) [[], [1]] := by
  intro h
  obtain ⟨row, report, row', hrun, hcheck, -⟩ := h [[]] [1] (List.prefix_refl _)
  obtain rfl : some ⟨.latestIncrementalKey, .latest none⟩ = row := Except.ok.inj hrun
  cases hcheck

end N8n.Deduplication
