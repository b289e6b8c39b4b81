/-
When deduplication in mode `entries` is exact.

The row holds one hash for each item of the batch that recorded it, so an item that stands in its
batch twice is stored twice, and a removal takes out one hash for each time that it lists the item.

* **`exact_iff`** — after every call the next report is exact iff every removal lists an item as
  often as it is stored.
-/
import N8n.Deduplication
import Mathlib.Data.List.Induction

namespace N8n.Deduplication

variable {ι K : Type}

/-- The two calls that change the row of a scope. -/
inductive Call (ι : Type) where
  | check (items : List ι)
  | remove (items : List ι)

def Call.items : Call ι → List ι
  | check items => items
  | remove items => items

/-- The options of a call in mode `entries`, without a maximum of entries. -/
def entriesOptions : ICheckProcessedOptions where
  mode := .entries

section

variable (c : Conversions ι K)

/-- Whether an item is recorded after some calls, by its text. -/
def recorded (text : String) (calls : List (Call ι)) : Bool :=
  calls.foldl (fun known call => match call with
    | .check items => known || (items.map c.toText).contains text
    | .remove items => known && !(items.map c.toText).contains text) false

/-- How often an item is stored after some calls: as often as it stands in the batch that recorded
it, less the times that removals since then list it. -/
def occurrences (text : String) (calls : List (Call ι)) : ℕ :=
  calls.foldl (fun n call => match call with
    | .check items => if n = 0 then (items.map c.toText).count text else n
    | .remove items => n - (items.map c.toText).count text) 0

/-- Each removal lists its items at least as often as they are stored. -/
def Complete (calls : List (Call ι)) : Prop :=
  ∀ before items, before ++ [.remove items] <+: calls → ∀ item ∈ items,
    occurrences c (c.toText item) before ≤ (items.map c.toText).count (c.toText item)

end

variable {c : Conversions ι K} {text : String} {calls : List (Call ι)} {items : List ι}

theorem recorded_check : recorded c text (calls ++ [.check items]) =
    (recorded c text calls || (items.map c.toText).contains text) := by
  rw [recorded, List.foldl_append]
  rfl

theorem recorded_remove : recorded c text (calls ++ [.remove items]) =
    (recorded c text calls && !(items.map c.toText).contains text) := by
  rw [recorded, List.foldl_append]
  rfl

theorem occurrences_check : occurrences c text (calls ++ [.check items]) =
    if occurrences c text calls = 0 then (items.map c.toText).count text
    else occurrences c text calls := by
  rw [occurrences, List.foldl_append]
  rfl

theorem occurrences_remove : occurrences c text (calls ++ [.remove items]) =
    occurrences c text calls - (items.map c.toText).count text := by
  rw [occurrences, List.foldl_append]
  rfl

def stored (row : Option (ProcessedData ι)) : List String :=
  match row with
  | some ⟨_, .entries data⟩ => data
  | _ => []

/-- A row of mode `entries`, or none. -/
def IsEntries (row : Option (ProcessedData ι)) : Prop :=
  row = none ∨ ∃ data, row = some ⟨.entries, .entries data⟩

theorem foldl_checkHashed (c : Conversions ι K) (items : List ι) (data : List String)
    (st : IDeduplicationOutput ι × List String) :
    items.foldl (checkHashed c data) st =
      (⟨st.1.new ++ items.filter fun item => c.createValueHash item ∉ data,
        st.1.processed ++ items.filter fun item => c.createValueHash item ∈ data⟩,
      st.2 ++ (items.map c.createValueHash).filter fun hash => hash ∉ data) := by
  induction items generalizing st with
  | nil => simp
  | cons item items ih =>
    rw [List.foldl_cons, ih, checkHashed]
    split
    · next h => simp [h]
    · next h => simp [h]

theorem removeProcessed_eq (c : Conversions ι K) (items : List ι) {row : Option (ProcessedData ι)}
    (h : IsEntries row) :
    ∃ row', removeProcessed c entriesOptions items row = .ok row' ∧ IsEntries row' ∧
      stored row' = (items.map c.createValueHash).foldl List.erase (stored row) := by
  rcases h with rfl | ⟨data, rfl⟩
  · refine ⟨none, rfl, .inl rfl, ?_⟩
    have hnil : ∀ hashes : List String, hashes.foldl List.erase [] = [] := by
      intro hashes
      induction hashes with
      | nil => rfl
      | cons hash hashes ih => exact ih
    exact (hnil _).symm
  · exact ⟨_, rfl, .inr ⟨_, rfl⟩, rfl⟩

theorem count_foldl_erase (hash : String) (data hashes : List String) :
    (hashes.foldl List.erase data).count hash = data.count hash - hashes.count hash := by
  induction hashes generalizing data with
  | nil => rfl
  | cons other hashes ih =>
    rw [List.foldl_cons, ih, List.count_erase, List.count_cons]
    omega

theorem count_hashes {used : Set String} (hused : Set.InjOn c.createHash used) (htext : text ∈ used)
    (hitems : ∀ item ∈ items, c.toText item ∈ used) :
    (items.map c.createValueHash).count (c.createHash text) = (items.map c.toText).count text := by
  induction items with
  | nil => rfl
  | cons item items ih =>
    obtain ⟨hitem, hitems⟩ := List.forall_mem_cons.mp hitems
    have hiff : c.createValueHash item = c.createHash text ↔ c.toText item = text :=
      ⟨fun h => hused hitem htext h, fun h => congrArg c.createHash h⟩
    rw [List.map_cons, List.map_cons, List.count_cons, List.count_cons, ih hitems]
    simp only [beq_iff_eq, hiff]

theorem occurrences_pos_iff (h : Complete c calls) :
    0 < occurrences c text calls ↔ recorded c text calls = true := by
  induction calls using List.reverseRecOn with
  | nil => simp [occurrences, recorded]
  | append_singleton calls call ih =>
    have hcalls := ih fun before items hbefore =>
      h before items (hbefore.trans (List.prefix_append calls [call]))
    cases call with
    | check items =>
      rw [occurrences_check, recorded_check, Bool.or_eq_true, ← hcalls, List.contains_iff_mem,
        ← List.count_pos_iff]
      split <;> omega
    | remove items =>
      rw [occurrences_remove, recorded_remove, Bool.and_eq_true, ← hcalls, Bool.not_eq_true',
        ← Bool.not_eq_true, List.contains_iff_mem, ← List.count_pos_iff]
      by_cases htext : text ∈ items.map c.toText
      · obtain ⟨item, hitem, rfl⟩ := List.mem_map.mp htext
        have hle := h calls items (List.prefix_refl _) item hitem
        have hpos := List.count_pos_iff.mpr htext
        omega
      · have hzero := List.count_eq_zero.mpr htext
        omega

section

variable [LinearOrder K] (c : Conversions ι K)

def checkEntries (items : List ι) (row : Option (ProcessedData ι)) : Except JsError (Checked ι) :=
  checkProcessedAndRecord c entriesOptions (Sorting.insertion c .entries) items row

/-- The row after a call. -/
def stepEntries (row : Option (ProcessedData ι)) : Call ι → Except JsError (Option (ProcessedData ι))
  | .check items => do return (← checkEntries c items row).2
  | .remove items => removeProcessed c entriesOptions items row

/-- After each of the calls, the next report is exact: processed are the items that an earlier call
recorded and no later one removed. -/
def Exact (used : Set String) (calls : List (Call ι)) : Prop :=
  ∀ before items, before <+: calls → (∀ item ∈ items, c.toText item ∈ used) →
    ∃ row row', runInputs (stepEntries c) none before = .ok row ∧ checkEntries c items row =
      .ok (⟨items.filter fun item => !recorded c (c.toText item) before,
        items.filter fun item => recorded c (c.toText item) before⟩, row')

end

variable [LinearOrder K]

theorem report_eq (c : Conversions ι K) (items : List ι) {row : Option (ProcessedData ι)}
    (h : IsEntries row) :
    ∃ row', checkEntries c items row =
      .ok (⟨items.filter fun item => c.createValueHash item ∉ stored row,
        items.filter fun item => c.createValueHash item ∈ stored row⟩, row') ∧
      IsEntries row' ∧ stored row' = stored row ++
        (items.map c.createValueHash).filter fun hash => hash ∉ stored row := by
  rcases h with rfl | ⟨data, rfl⟩
  · refine ⟨some ⟨.entries, .entries (items.map c.createValueHash)⟩, ?_, .inr ⟨_, rfl⟩, ?_⟩
    · simp [checkEntries, checkProcessedAndRecord, validateMode, entriesOptions, handleHashedItems,
        keepLast, stored, pure, Except.pure, bind, Except.bind]
    · simp [stored]
  · refine ⟨some ⟨.entries, .entries (data ++
      (items.map c.createValueHash).filter fun hash => hash ∉ data)⟩, ?_, .inr ⟨_, rfl⟩, rfl⟩
    have hloop := foldl_checkHashed c items data (⟨[], []⟩, data)
    simp only [List.nil_append] at hloop
    simp only [checkEntries, checkProcessedAndRecord, validateMode, entriesOptions,
      handleHashedItems, keepLast, stored, pure, Except.pure, bind, Except.bind, hloop]
    rfl

/-- **After some calls**: the row is one of hashes, and each item used is stored as often as it
should be. -/
theorem exists_run {used : Set String} (hused : Set.InjOn c.createHash used)
    (hcalls : ∀ call ∈ calls, ∀ item ∈ call.items, c.toText item ∈ used) :
    ∃ row, runInputs (stepEntries c) none calls = .ok row ∧ IsEntries row ∧
      ∀ text ∈ used, (stored row).count (c.createHash text) = occurrences c text calls := by
  induction calls using List.reverseRecOn with
  | nil => exact ⟨none, rfl, .inl rfl, fun text _ => rfl⟩
  | append_singleton calls call ih =>
    obtain ⟨row, hrun, hrow, hcount⟩ := ih fun call hcall =>
      hcalls call (List.mem_append_left _ hcall)
    have hitems := hcalls call (by simp)
    rw [runInputs_append hrun]
    cases call with
    | check items =>
      obtain ⟨row', hcheck, hrow', hstored⟩ := report_eq c items hrow
      have hstep : stepEntries c row (.check items) = .ok row' := by
        rw [stepEntries, hcheck]
        rfl
      refine ⟨row', by rw [runInputs, hstep]; rfl, hrow', fun text htext => ?_⟩
      have hsame : (items.map c.createValueHash).count (c.createHash text) =
          (items.map c.toText).count text := count_hashes hused htext hitems
      rw [hstored, List.count_append, hcount text htext, occurrences_check]
      have hmem : c.createHash text ∈ stored row ↔ occurrences c text calls ≠ 0 := by
        rw [← hcount text htext, ← List.count_pos_iff]
        exact Nat.pos_iff_ne_zero
      by_cases hzero : occurrences c text calls = 0
      · have hnot : decide (c.createHash text ∉ stored row) = true :=
          decide_eq_true fun h => hmem.mp h hzero
        have hfilter : ((items.map c.createValueHash).filter fun hash => hash ∉ stored row).count
            (c.createHash text) = (items.map c.createValueHash).count (c.createHash text) :=
          List.count_filter hnot
        rw [if_pos hzero, hzero, Nat.zero_add, hfilter, hsame]
      · rw [if_neg hzero, List.count_eq_zero.mpr, Nat.add_zero]
        simp [hmem.mpr hzero]
    | remove items =>
      obtain ⟨row', hremove, hrow', hstored⟩ := removeProcessed_eq c items hrow
      refine ⟨row', by rw [runInputs, stepEntries, hremove]; rfl, hrow', fun text htext => ?_⟩
      have hsame : (items.map c.createValueHash).count (c.createHash text) =
          (items.map c.toText).count text := count_hashes hused htext hitems
      rw [hstored, count_foldl_erase, hcount text htext, hsame, occurrences_remove]

/-- **When reports are exact**: after each of the calls iff each removal takes out all that is
stored of an item. -/
theorem exact_iff {used : Set String} (hused : Set.InjOn c.createHash used)
    (hcalls : ∀ call ∈ calls, ∀ item ∈ call.items, c.toText item ∈ used) :
    Exact c used calls ↔ Complete c calls := by
  constructor
  · intro hexact before removed hbefore item hitem
    by_contra hless
    have hitem' := hcalls (.remove removed) (hbefore.subset (by simp)) item hitem
    obtain ⟨row, row', hrun, hreport⟩ := hexact _ [item] hbefore (by simpa using hitem')
    obtain ⟨row₂, hrun₂, hrow, hcount⟩ := exists_run hused fun call hcall =>
      hcalls call (hbefore.subset hcall)
    obtain rfl := Except.ok.inj (hrun.symm.trans hrun₂)
    obtain ⟨row₃, hcheck, -⟩ := report_eq c [item] hrow
    have hstored : c.createHash (c.toText item) ∈ stored row := by
      rw [← List.count_pos_iff, hcount _ hitem', occurrences_remove]
      omega
    have hnot : recorded c (c.toText item) (before ++ [.remove removed]) = false := by
      rw [recorded_remove, List.contains_iff_mem.mpr (List.mem_map_of_mem hitem)]
      exact Bool.and_false _
    have heq := congrArg (fun checked => checked.1.processed)
      (Except.ok.inj (hreport.symm.trans hcheck))
    simp [hnot, Conversions.createValueHash, hstored] at heq
  · intro hcomplete before items hbefore hitems
    obtain ⟨row, hrun, hrow, hcount⟩ := exists_run hused fun call hcall =>
      hcalls call (hbefore.subset hcall)
    obtain ⟨row', hcheck, -⟩ := report_eq c items hrow
    refine ⟨row, row', hrun, hcheck.trans ?_⟩
    have hmem : ∀ item ∈ items, (c.createValueHash item ∈ stored row ↔
        recorded c (c.toText item) before = true) := by
      intro item hitem
      rw [← occurrences_pos_iff fun before' removed h => hcomplete before' removed (h.trans hbefore),
        ← hcount _ (hitems item hitem), List.count_pos_iff]
      rfl
    have hnew : items.filter (fun item => c.createValueHash item ∉ stored row) =
        items.filter fun item => !recorded c (c.toText item) before :=
      List.filter_congr fun item hitem => by simp [hmem item hitem]
    have hprocessed : items.filter (fun item => c.createValueHash item ∈ stored row) =
        items.filter fun item => recorded c (c.toText item) before :=
      List.filter_congr fun item hitem => by simp [hmem item hitem]
    rw [hnew, hprocessed]

def texts : Conversions String ℕ where
  toText item := item
  createHash text := text
  number _ := none
  date _ := none

/-- With each item once in its batch, a removed item is new again. -/
theorem exact_onceInBatch :
    Exact texts Set.univ [.check ["a", "b"], .remove ["a"], .check ["a", "b"]] := by
  refine (exact_iff (Set.injOn_of_injective fun _ _ h => h) fun _ _ _ _ => Set.mem_univ _).mpr ?_
  rintro before items ⟨after, hsplit⟩
  rcases before with _ | ⟨first, _ | ⟨second, _ | ⟨third, before⟩⟩⟩
  · cases hsplit
  · cases hsplit
    decide
  · cases hsplit
  · exact absurd (List.cons.inj (List.cons.inj (List.cons.inj hsplit).2).2).2 (by simp)

/-- `a` is stored twice, so that one removal leaves it processed. -/
theorem not_exact_twiceInBatch :
    ¬ Exact texts Set.univ [.check ["a", "a"], .remove ["a"]] := by
  intro h
  obtain ⟨row, row', hrun, hreport⟩ := h _ ["a"] (List.prefix_refl _) fun _ _ => Set.mem_univ _
  obtain rfl : some ⟨.entries, .entries ["a"]⟩ = row := Except.ok.inj hrun
  have hprocessed : ["a"] = ([] : List String) :=
    congrArg (fun checked => checked.1.processed) (Except.ok.inj hreport)
  cases hprocessed

end N8n.Deduplication
