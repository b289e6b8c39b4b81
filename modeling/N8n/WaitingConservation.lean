/-
What the waiting entries of a node keep of the data delivered to it.

For a node with several main inputs, `held` lists the data that waits in its
entries together with the data in the items put on the stack for it, each with
its input.  One call adds the delivered pair and nothing else, except when it
overwrites an entry (`held_add_iff`): a new entry gets the number of live
entries as its index, and after entries in front were completed and deleted
that number can be the index of an entry that still waits.

* `deliverAll_conserves_iff` — **no data is lost or duplicated in a run of
  deliveries iff no call of the run overwrites an entry**.
-/
import N8n.AddNodeToBeExecuted

namespace N8n

@[simp] theorem waitingEntries_setWaiting (ed : IRunExecutionData) (node : String) (index : ℕ)
    (main : List (Slot Items)) (source : List (Slot ISourceData)) :
    waitingEntries (setWaiting ed node index main source) node
      = (waitingEntries ed node).set index main := by
  rw [waitingEntries, setWaiting, Dict.get?_set_self, Option.getD_some]

@[simp] theorem waitingSources_setWaiting (ed : IRunExecutionData) (node : String) (index : ℕ)
    (main : List (Slot Items)) (source : List (Slot ISourceData)) :
    waitingSources (setWaiting ed node index main source) node
      = (waitingSources ed node).set index source := by
  rw [waitingSources, setWaiting, Dict.get?_set_self, Option.getD_some]

variable (w : Workflow)

@[simp] theorem waitingEntries_enqueue (ed : IRunExecutionData)
    (item : IExecuteData) (node : String) :
    waitingEntries (enqueue w ed item) node = waitingEntries ed node := rfl

@[simp] theorem nodeExecutionStack_deleteWaiting (ed : IRunExecutionData) (node : String)
    (index : ℕ) : (deleteWaiting ed node index).nodeExecutionStack = ed.nodeExecutionStack := by
  rw [deleteWaiting]
  split <;> rfl

@[simp] theorem waitingEntries_deleteWaiting (ed : IRunExecutionData) (node : String) (index : ℕ) :
    waitingEntries (deleteWaiting ed node index) node = (waitingEntries ed node).erase index := by
  rw [deleteWaiting]
  split
  · next h =>
    have hnil : (waitingEntries ed node).erase index = Dict.empty :=
      Dict.ext_entries (List.map_eq_nil_iff.mp h)
    rw [hnil]
    show ((ed.waitingExecution.erase node).get? node).getD Dict.empty = Dict.empty
    rw [Dict.get?_erase_self, Option.getD_none]
  · show ((ed.waitingExecution.set node _).get? node).getD Dict.empty = _
    rw [Dict.get?_set_self, Option.getD_some]

theorem mem_waitingSources_deleteWaiting {ed : IRunExecutionData} {node : String} {index i : ℕ}
    (hi : i ≠ index) (hsource : i ∈ (waitingSources ed node).keys)
    (hentry : i ∈ (waitingEntries ed node).keys) :
    i ∈ (waitingSources (deleteWaiting ed node index) node).keys := by
  have hmem : i ∈ ((waitingEntries ed node).erase index).keys := Dict.mem_keys_erase.mpr ⟨hi, hentry⟩
  rw [deleteWaiting, if_neg (List.ne_nil_of_mem hmem)]
  show i ∈ (((ed.waitingExecutionSource.set node _).get? node).getD Dict.empty).keys
  rw [Dict.get?_set_self, Option.getD_some]
  exact Dict.mem_keys_erase.mpr ⟨hi, hsource⟩

variable (N : String)

/-- The input and data pairs of an item put on the stack for a node with
several inputs.  An item forced by `forceInput` has a single slot and brings no
delivered data. -/
def joinedPairs (item : IExecuteData) : List (ℕ × Items) :=
  let main := (item.data.get? .main).getD []
  if item.node = w.getNode N ∧ 1 < main.length then Slot.filled main else []

/-- All data delivered to the node that waits or is on the stack. -/
def held (ed : IRunExecutionData) : List (ℕ × Items) :=
  ((waitingEntries ed N).entries.flatMap fun e => Slot.filled e.2)
    ++ ed.nodeExecutionStack.flatMap (joinedPairs w N)

theorem joinedPairs_enqueue (ed : IRunExecutionData) (item : IExecuteData) :
    ((enqueue w ed item).nodeExecutionStack.flatMap (joinedPairs w N)).Perm
      (joinedPairs w N item ++ ed.nodeExecutionStack.flatMap (joinedPairs w N)) := by
  rw [enqueue]
  split
  · simp only [List.flatMap_append, List.flatMap_cons, List.flatMap_nil, List.append_nil]
    exact List.perm_append_comm
  · rw [List.flatMap_cons]

/-- Every live entry has one slot for each input, and its sources are there. -/
structure WellFormedWaiting (ed : IRunExecutionData) : Prop where
  length : ∀ index main, (waitingEntries ed N).get? index = some main →
    main.length = w.numberOfInputs N
  source : ∀ index ∈ (waitingEntries ed N).keys, index ∈ (waitingSources ed N).keys

/-- A call that delivers items to an input of the node. -/
structure Delivery.Delivers (d : Delivery) : Prop where
  node : d.connectionData.node = N
  input : d.connectionData.index < w.numberOfInputs N
  items : ∃ items, d.slot = .data items

def Delivery.delivered (d : Delivery) : ℕ × Items :=
  (d.connectionData.index, d.slot.toOption.getD [])

/-- The new entry of the call would replace one that still waits: every entry
has data for the input, and the number of entries is the index of one. -/
def Overwrites (ed : IRunExecutionData) (input : ℕ) : Prop :=
  (∀ index ∈ (waitingEntries ed N).keys,
    (Slot.read (((waitingEntries ed N).get? index).getD []) input).isFalsy = false) ∧
  (waitingEntries ed N).keys.length ∈ (waitingEntries ed N).keys

instance (N : String) (ed : IRunExecutionData) (input : ℕ) : Decidable (Overwrites N ed input) :=
  inferInstanceAs (Decidable (_ ∧ _))

/-- The array that the data of a call is written into. -/
def targetArray (ed : IRunExecutionData) (input : ℕ) : List (Slot Items) :=
  if (findWaitingNodeIndex (waitingEntries ed N) input).isSome then
    ((waitingEntries ed N).get? (chooseWaitingNodeIndex (waitingEntries ed N) input)).getD []
  else List.replicate (w.numberOfInputs N) .null

variable {entries : Dict ℕ (List (Slot Items))}

theorem findWaitingNodeIndex_some {input i : ℕ}
    (h : findWaitingNodeIndex entries input = some i) :
    ∃ main, entries.get? i = some main ∧ (Slot.read main input).isFalsy = true := by
  have hmem := List.mem_of_find?_eq_some h
  have hfalsy := List.find?_some h
  rw [Dict.mem_indexKeys] at hmem
  obtain ⟨main, hmain⟩ := Dict.mem_keys_iff.mp hmem
  exact ⟨main, hmain, by simpa [hmain] using hfalsy⟩

theorem findWaitingNodeIndex_eq_none {input : ℕ} :
    findWaitingNodeIndex entries input = none ↔ ∀ index ∈ entries.keys,
      (Slot.read ((entries.get? index).getD []) input).isFalsy = false := by
  rw [findWaitingNodeIndex, List.find?_eq_none]
  simp only [Dict.mem_indexKeys, Bool.not_eq_true]

theorem toOption_eq_none_of_isFalsy {α : Type*} {s : Slot α} (h : s.isFalsy = true) :
    s.toOption = none := by
  cases s with
  | data a => simp at h
  | undefined => rfl
  | null => rfl

section OneCall

variable {w : Workflow} {N : String} {ed : IRunExecutionData} {d : Delivery}

theorem targetArray_spec (hwf : WellFormedWaiting w N ed) {input : ℕ}
    (hinput : input < w.numberOfInputs N) :
    (targetArray w N ed input).length = w.numberOfInputs N ∧
      (Slot.read (targetArray w N ed input) input).toOption = none := by
  rw [targetArray]
  rcases hfind : findWaitingNodeIndex (waitingEntries ed N) input with _ | i
  · rw [if_neg (by simp)]
    exact ⟨List.length_replicate, by rw [Slot.read_replicate_null hinput]; rfl⟩
  · obtain ⟨main, hmain, hfalsy⟩ := findWaitingNodeIndex_some hfind
    rw [if_pos (by simp), chooseWaitingNodeIndex, hfind, Option.getD_some, hmain,
      Option.getD_some]
    exact ⟨hwf.length i main hmain, toOption_eq_none_of_isFalsy hfalsy⟩

theorem waitingEntries_openNode : waitingEntries (openNode ed N) N = waitingEntries ed N := by
  rw [openNode]
  split
  · rfl
  · next hhas =>
    have hnone : ed.waitingExecution.get? N = none := by
      rw [Dict.get?_eq_none_iff, ← Dict.has_iff]
      exact hhas
    show ((ed.waitingExecution.set N Dict.empty).get? N).getD Dict.empty = waitingEntries ed N
    rw [Dict.get?_set_self, waitingEntries, hnone]
    rfl

theorem wellFormedWaiting_openNode (hwf : WellFormedWaiting w N ed) :
    WellFormedWaiting w N (openNode ed N) := by
  refine ⟨fun index main hmain => hwf.length index main ?_, fun index hindex => ?_⟩
  · rwa [waitingEntries_openNode] at hmain
  · by_cases hhas : ed.waitingExecution.has N
    · rw [openNode, if_pos hhas] at hindex ⊢
      exact hwf.source index hindex
    · rw [openNode, if_neg hhas, waitingEntries, Dict.get?_set_self] at hindex
      cases hindex

theorem openEntry_spec (hwf : WellFormedWaiting w N ed) (input : ℕ) :
    let index := chooseWaitingNodeIndex (waitingEntries ed N) input
    let ed' := openEntry w ed N input
    (waitingEntries ed' N).get? index = some (targetArray w N ed input) ∧
    (∀ main, (waitingEntries ed' N).set index main = (waitingEntries ed N).set index main) ∧
    index ∈ (waitingSources ed' N).keys ∧
    (∀ i ∈ (waitingEntries ed N).keys, i ∈ (waitingSources ed' N).keys) := by
  intro index ed'
  rcases hfind : findWaitingNodeIndex (waitingEntries ed N) input with _ | i
  · -- a new entry of `null`s at `index`
    have hed : ed' = prepareWaitingToExecution ed N (w.numberOfInputs N) index := by
      show openEntry w ed N input = _
      rw [openEntry, hfind, if_neg (by simp)]
    rw [hed, prepareWaitingToExecution, waitingEntries_setWaiting, waitingSources_setWaiting]
    refine ⟨?_, fun main => Dict.set_set _ _ _ _, Dict.mem_keys_set.mpr (Or.inl rfl), ?_⟩
    · rw [Dict.get?_set_self, targetArray, hfind, if_neg (by simp)]
    · exact fun i hi => Dict.mem_keys_set.mpr (Or.inr (hwf.source i hi))
  · -- the entry that misses the input
    have hed : ed' = ed := by
      show openEntry w ed N input = ed
      rw [openEntry, hfind, if_pos (by simp)]
    have hi : index = i := by
      show chooseWaitingNodeIndex (waitingEntries ed N) input = i
      rw [chooseWaitingNodeIndex, hfind, Option.getD_some]
    obtain ⟨main, hmain, -⟩ := findWaitingNodeIndex_some hfind
    rw [hed]
    refine ⟨?_, fun _ => rfl, ?_, hwf.source⟩
    · show _ = some (targetArray w N ed input)
      rw [targetArray, hfind, if_pos (by simp), chooseWaitingNodeIndex, hfind,
        Option.getD_some, hi, hmain, Option.getD_some]
    · rw [hi]
      exact hwf.source i (Dict.mem_keys_iff.mpr ⟨main, hmain⟩)

theorem fileDelivery_spec (hwf : WellFormedWaiting w N ed) (hd : d.Delivers w N) :
    ∃ ed', fileDelivery w ed d = .returned ed' ∧
      ed'.nodeExecutionStack = ed.nodeExecutionStack ∧
      waitingEntries ed' N = (waitingEntries ed N).set
        (chooseWaitingNodeIndex (waitingEntries ed N) d.connectionData.index)
        (Slot.assign (targetArray w N ed d.connectionData.index) d.connectionData.index d.slot) ∧
      ∀ i ∈ (waitingEntries ed' N).keys, i ∈ (waitingSources ed' N).keys := by
  obtain ⟨rfl, hinput, items, hitems⟩ := hd
  set N := d.connectionData.node with hN
  set input := d.connectionData.index with hinputdef
  obtain ⟨hentry, hset, hsource, hsources⟩ :=
    openEntry_spec (wellFormedWaiting_openNode hwf) input
  have htarget : targetArray w N (openNode ed N) input = targetArray w N ed input := by
    rw [targetArray, targetArray, waitingEntries_openNode]
  rw [waitingEntries_openNode] at hentry hset hsource hsources
  rw [htarget] at hentry
  set index := chooseWaitingNodeIndex (waitingEntries ed N) input with hindex
  set ed₁ := openEntry w (openNode ed N) N input with hed₁
  obtain ⟨sources, hs⟩ := Dict.mem_keys_iff.mp hsource
  have hstack : ed₁.nodeExecutionStack = ed.nodeExecutionStack := by
    rw [hed₁, openEntry, openNode]
    split <;> split <;> rfl
  set source : Slot ISourceData := if d.nodeSuccessData.isSome then .data d.source else .null
    with hsourcedef
  refine ⟨setWaiting ed₁ N index (Slot.assign (targetArray w N ed input) input d.slot)
    (Slot.assign sources input source), ?_, hstack, ?_, ?_⟩
  · rw [fileDelivery, waitingEntries_openNode, writeDelivery, ← hN, ← hinputdef, ← hindex, ← hed₁,
      hentry]
    have hwritten : ∀ entries, (waitingSources { ed₁ with waitingExecution := entries } N).get? index
        = some sources := fun _ => hs
    simp only [hwritten]
    rfl
  · rw [waitingEntries_setWaiting, hset]
  · intro i
    rw [waitingEntries_setWaiting, waitingSources_setWaiting, hset, Dict.mem_keys_set,
      Dict.mem_keys_set]
    exact fun hi => hi.imp_right (hsources i)

/-- `ed'` differs from `ed` only by items on the stack that join no inputs. -/
structure OnlyForced (w : Workflow) (N : String) (ed ed' : IRunExecutionData) : Prop where
  waiting : ed'.waitingExecution = ed.waitingExecution
  source : ed'.waitingExecutionSource = ed.waitingExecutionSource
  pairs : (ed'.nodeExecutionStack.flatMap (joinedPairs w N)).Perm
    (ed.nodeExecutionStack.flatMap (joinedPairs w N))

variable {ed' : IRunExecutionData}

theorem onlyForced_forceInput {ed'' : IRunExecutionData} {outputNodes : List String}
    {inputData : IConnection} (hforced : OnlyForced w N ed ed')
    (h : forceInput w d outputNodes ed' inputData = .ok ed'') : OnlyForced w N ed ed'' := by
  rcases forceInput_cases h with rfl | ⟨nodeToAdd, rfl⟩
  · exact hforced
  · refine ⟨hforced.waiting, hforced.source, ?_⟩
    refine (joinedPairs_enqueue w N ed' _).trans ?_
    have hnil : joinedPairs w N {
        node := w.getNode nodeToAdd
        data := mainOnly [.data [{}]]
        source := some (mainOnly [.data d.source]) } = [] := by
      rw [joinedPairs, mainOnly_get?_main, if_neg (by simp)]
    rw [hnil, List.nil_append]
    exact hforced.pairs

theorem onlyForced_forceInputs : OnlyForced w N ed (forceInputs w ed d).state := by
  rw [forceInputs]
  split
  · exact ⟨rfl, rfl, List.Perm.refl _⟩
  · exact Outcome.forEach_invariant (I := OnlyForced w N ed)
      (fun _ _ _ hs hbody => onlyForced_forceInput hs hbody) ⟨rfl, rfl, List.Perm.refl _⟩

theorem OnlyForced.waitingEntries_eq (h : OnlyForced w N ed ed') :
    waitingEntries ed' N = waitingEntries ed N := by
  rw [waitingEntries, waitingEntries, h.waiting]

theorem OnlyForced.waitingSources_eq (h : OnlyForced w N ed ed') :
    waitingSources ed' N = waitingSources ed N := by
  rw [waitingSources, waitingSources, h.source]

section

variable (hN : 1 < w.numberOfInputs N) (hwf : WellFormedWaiting w N ed) (hd : d.Delivers w N)
include hN hwf hd

/-- **What one call does**: the data is written into the chosen entry, and the
entry either waits on or moves to the stack. -/
theorem addNodeToBeExecuted_spec :
    let index := chooseWaitingNodeIndex (waitingEntries ed N) d.connectionData.index
    let main := Slot.assign (targetArray w N ed d.connectionData.index) d.connectionData.index d.slot
    let ed' := (addNodeToBeExecuted w ed d).state
    WellFormedWaiting w N ed' ∧
    ((.null ∈ main ∧ waitingEntries ed' N = (waitingEntries ed N).set index main ∧
        (ed'.nodeExecutionStack.flatMap (joinedPairs w N)).Perm
          (ed.nodeExecutionStack.flatMap (joinedPairs w N))) ∨
      (.null ∉ main ∧ waitingEntries ed' N = (waitingEntries ed N).erase index ∧
        (ed'.nodeExecutionStack.flatMap (joinedPairs w N)).Perm
          (Slot.filled main ++ ed.nodeExecutionStack.flatMap (joinedPairs w N)))) := by
  intro index main ed'
  obtain ⟨ed₁, hfile, hstack, hentries, hsources⟩ := fileDelivery_spec hwf hd
  have hlen : main.length = w.numberOfInputs N := by
    show (Slot.assign _ _ _).length = _
    rw [Slot.length_assign, (targetArray_spec hwf hd.input).1]
    have := hd.input
    omega
  obtain ⟨rfl, -, -⟩ := hd
  set N := d.connectionData.node with hNdef
  have hentries : waitingEntries ed₁ N = (waitingEntries ed N).set index main := hentries
  have hget : (waitingEntries ed₁ N).get? index = some main := by
    rw [hentries]
    exact Dict.get?_set_self _ _ _
  have hmem : index ∈ (waitingSources ed₁ N).keys :=
    hsources index (Dict.mem_keys_iff.mpr ⟨main, hget⟩)
  -- every entry of the new table has a slot for each input
  have hlens : ∀ i m, ((waitingEntries ed N).set index main).get? i = some m →
      m.length = w.numberOfInputs N := by
    intro i m hm
    rw [Dict.get?_set] at hm
    split at hm
    · rw [← Option.some_inj.mp hm, hlen]
    · exact hwf.length i m hm
  have hcall : ed' = (addToWaiting w ed d).state := by
    show (addNodeToBeExecuted w ed d).state = _
    rw [addNodeToBeExecuted, ← hNdef, if_pos hN]
  rw [hcall, addToWaiting, hfile, Outcome.returned_andThen, ← hNdef]
  have hindex : chooseWaitingNodeIndex (waitingEntries ed N) d.connectionData.index = index := rfl
  simp only [hindex, hget, Option.getD_some]
  by_cases hnull : .null ∉ main
  · -- the entry is complete
    rw [if_pos hnull]
    refine ⟨⟨?_, ?_⟩, Or.inr ⟨hnull, ?_, ?_⟩⟩
    · intro i m hm
      rw [Outcome.state_returned, waitingEntries_deleteWaiting, waitingEntries_enqueue, hentries,
        Dict.get?_erase] at hm
      split at hm
      · cases hm
      · exact hlens i m hm
    · intro i hi
      rw [Outcome.state_returned, waitingEntries_deleteWaiting, waitingEntries_enqueue,
        Dict.mem_keys_erase] at hi
      exact mem_waitingSources_deleteWaiting hi.1 (hsources i hi.2) hi.2
    · rw [Outcome.state_returned, waitingEntries_deleteWaiting, waitingEntries_enqueue, hentries,
        Dict.erase_set]
    · have hpush := joinedPairs_enqueue w N ed₁ {
        node := w.getNode N
        data := mainOnly main
        source := some (mainOnly (((waitingSources ed₁ N).get? index).getD [])) }
      rw [hstack, joinedPairs, mainOnly_get?_main, Option.getD_some,
        if_pos ⟨rfl, by rw [hlen]; exact hN⟩] at hpush
      rw [Outcome.state_returned, nodeExecutionStack_deleteWaiting]
      exact hpush
  · -- data is missing: the parents may be forced, and the entry is written again
    rw [if_neg hnull]
    set forced := if ed.waitingExecution.has N then Outcome.returned ed₁ else forceInputs w ed₁ d
      with hforced
    have honly : OnlyForced w N ed₁ forced.state := by
      rw [hforced]
      split
      · exact ⟨rfl, rfl, List.Perm.refl _⟩
      · exact onlyForced_forceInputs
    have hpairs := honly.pairs
    rw [hstack] at hpairs
    rcases hout : forced with ed₂ | ⟨e, ed₂⟩ <;> rw [hout] at honly hpairs
    · rw [Outcome.state_returned] at honly hpairs
      have hagain : Slot.assign main d.connectionData.index d.slot = main :=
        Slot.assign_assign _ _ _ _
      rw [Outcome.returned_andThen, Outcome.state_returned, hagain]
      have hentries' : waitingEntries (setWaiting
            (prepareWaitingToExecution ed₂ N (w.numberOfInputs N) index) N index main
            (((waitingSources ed₁ N).get? index).getD [])) N
          = (waitingEntries ed N).set index main := by
        rw [waitingEntries_setWaiting, prepareWaitingToExecution, waitingEntries_setWaiting,
          Dict.set_set, honly.waitingEntries_eq, hentries, Dict.set_set]
      refine ⟨⟨?_, ?_⟩, Or.inl ⟨not_not.mp hnull, hentries', hpairs⟩⟩
      · intro i m hm
        rw [hentries'] at hm
        exact hlens i m hm
      · intro i hi
        rw [hentries', ← hentries] at hi
        rw [waitingSources_setWaiting, prepareWaitingToExecution, waitingSources_setWaiting,
          Dict.set_set, Dict.mem_keys_set]
        exact Or.inr (honly.waitingSources_eq ▸ hsources i hi)
    · rw [Outcome.state_threw] at honly hpairs
      rw [Outcome.threw_andThen, Outcome.state_threw]
      have hentries' : waitingEntries ed₂ N = (waitingEntries ed N).set index main :=
        honly.waitingEntries_eq.trans hentries
      refine ⟨⟨?_, ?_⟩, Or.inl ⟨not_not.mp hnull, hentries', hpairs⟩⟩
      · intro i m hm
        rw [hentries'] at hm
        exact hlens i m hm
      · intro i hi
        rw [hentries', ← hentries] at hi
        exact honly.waitingSources_eq ▸ hsources i hi

theorem held_addNodeToBeExecuted :
    (held w N (addNodeToBeExecuted w ed d).state).Perm
      (d.delivered :: Slot.filled (targetArray w N ed d.connectionData.index)
        ++ (((waitingEntries ed N).erase
            (chooseWaitingNodeIndex (waitingEntries ed N) d.connectionData.index)).entries.flatMap
              (fun e => Slot.filled e.2)
          ++ ed.nodeExecutionStack.flatMap (joinedPairs w N))) := by
  obtain ⟨-, hcases⟩ := addNodeToBeExecuted_spec hN hwf hd
  obtain ⟨-, hinput, items, hitems⟩ := hd
  have hfilled := Slot.filled_assign (targetArray_spec hwf hinput).2 items
  rw [← hitems] at hfilled
  have hdelivered : d.delivered = (d.connectionData.index, items) := by
    rw [Delivery.delivered, hitems]
    rfl
  rw [← hdelivered] at hfilled
  rw [held]
  rcases hcases with ⟨-, hentries, hpairs⟩ | ⟨-, hentries, hpairs⟩
  · rw [hentries, ← List.append_assoc]
    refine List.Perm.append ?_ hpairs
    have hset := (Dict.perm_set (waitingEntries ed N)
      (chooseWaitingNodeIndex (waitingEntries ed N) d.connectionData.index)
      (Slot.assign (targetArray w N ed d.connectionData.index) d.connectionData.index
        d.slot)).flatMap_right (fun e => Slot.filled e.2)
    rw [List.flatMap_cons] at hset
    exact hset.trans (hfilled.append_right _)
  · rw [hentries]
    refine (hpairs.append_left _).trans ?_
    refine List.perm_append_comm_assoc _ _ _ |>.trans ?_
    exact hfilled.append_right _

/-- Step lemma: a call adds the delivered pair and nothing else, iff it does
not overwrite a waiting entry. -/
theorem held_add_iff :
    (held w N (addNodeToBeExecuted w ed d).state).Perm (held w N ed ++ [d.delivered]) ↔
      ¬ Overwrites N ed d.connectionData.index := by
  set input := d.connectionData.index with hinput
  set index := chooseWaitingNodeIndex (waitingEntries ed N) input with hindex
  set rest := ((waitingEntries ed N).erase index).entries.flatMap (fun e => Slot.filled e.2)
    ++ ed.nodeExecutionStack.flatMap (joinedPairs w N) with hrest
  -- what was held before splits into the old entry at `index` and the rest
  have hbefore : (held w N ed).Perm
      (Slot.filled (((waitingEntries ed N).get? index).getD []) ++ rest) := by
    rw [held, hrest, ← List.append_assoc]
    refine List.Perm.append_right _ ?_
    have hsplit := Dict.flatMap_perm_erase (fun _ : ℕ => Slot.filled) (waitingEntries ed N) index
    rcases hold : (waitingEntries ed N).get? index with _ | old
    · rw [hold] at hsplit
      exact hsplit
    · rw [hold] at hsplit
      exact hsplit
  have hafter := held_addNodeToBeExecuted hN hwf hd
  rw [← hinput, ← hindex, ← hrest] at hafter
  have hiff : (held w N (addNodeToBeExecuted w ed d).state).Perm (held w N ed ++ [d.delivered]) ↔
      (Slot.filled (targetArray w N ed input)).Perm
        (Slot.filled (((waitingEntries ed N).get? index).getD [])) := by
    rw [hafter.congr_left, (List.perm_append_singleton _ _).congr_right,
      (hbefore.cons d.delivered).congr_right, List.cons_append, List.perm_cons,
      List.perm_append_right_iff]
  rw [hiff]
  rcases hfind : findWaitingNodeIndex (waitingEntries ed N) input with _ | i
  · -- a new entry at `entries.length`: nothing may wait there
    have hnew : index = (waitingEntries ed N).keys.length := by
      rw [hindex, chooseWaitingNodeIndex, hfind, Option.getD_none]
    have hall := findWaitingNodeIndex_eq_none.mp hfind
    have htarget : Slot.filled (targetArray w N ed input) = [] := by
      rw [targetArray, hfind, if_neg (by simp), Slot.filled_replicate_null]
    rw [htarget, List.nil_perm]
    constructor
    · rintro hnil ⟨-, hlive⟩
      rw [← hnew] at hlive
      have hdata := hall index hlive
      rcases hread : Slot.read (((waitingEntries ed N).get? index).getD []) input with _ | _ | a
      · simp [hread] at hdata
      · simp [hread] at hdata
      · have hin := Slot.mem_filled.mpr hread
        rw [hnil] at hin
        cases hin
    · intro hover
      have hfree : (waitingEntries ed N).get? index = none := by
        rw [Dict.get?_eq_none_iff, hnew]
        exact fun hlive => hover ⟨hall, hlive⟩
      rw [hfree]
      rfl
  · -- the entry that misses the input is the target
    have hi : index = i := by rw [hindex, chooseWaitingNodeIndex, hfind, Option.getD_some]
    have htarget : targetArray w N ed input = ((waitingEntries ed N).get? index).getD [] := by
      rw [targetArray, hfind, if_pos (by simp)]
    rw [htarget]
    refine iff_of_true (List.Perm.refl _) fun hover => ?_
    have hnone := findWaitingNodeIndex_eq_none.mpr hover.1
    rw [hfind] at hnone
    cases hnone

end

end OneCall

/-- The calls of a run one after the other.  Each comes with the run data of
that moment; a call that throws leaves its state to the next one. -/
def deliverAll (w : Workflow) (ed : IRunExecutionData) (calls : List (IRunData × Delivery)) :
    IRunExecutionData :=
  calls.foldl (fun ed c => (addNodeToBeExecuted w { ed with runData := c.1 } c.2).state) ed

theorem deliverAll_snoc (w : Workflow) (ed : IRunExecutionData)
    (calls : List (IRunData × Delivery)) (c : IRunData × Delivery) :
    deliverAll w ed (calls ++ [c])
      = (addNodeToBeExecuted w { deliverAll w ed calls with runData := c.1 } c.2).state := by
  rw [deliverAll, List.foldl_append]
  rfl

section Run

variable {w : Workflow} {N : String}

theorem wellFormedWaiting_of_get?_eq_none {ed : IRunExecutionData}
    (h : ed.waitingExecution.get? N = none) : WellFormedWaiting w N ed := by
  have hempty : waitingEntries ed N = Dict.empty := by rw [waitingEntries, h, Option.getD_none]
  refine ⟨fun index main hmain => ?_, fun index hindex => ?_⟩
  · rw [hempty] at hmain
    cases hmain
  · rw [hempty] at hindex
    cases hindex

theorem wellFormedWaiting_deliverAll (hN : 1 < w.numberOfInputs N) :
    ∀ {calls : List (IRunData × Delivery)} {ed : IRunExecutionData},
      (∀ c ∈ calls, c.2.Delivers w N) → WellFormedWaiting w N ed →
      WellFormedWaiting w N (deliverAll w ed calls) := by
  intro calls
  induction calls with
  | nil => exact fun _ h => h
  | cons c calls ih =>
    intro ed hcalls hwf
    refine ih (fun c' hc' => hcalls c' (List.mem_cons_of_mem _ hc')) ?_
    have hwf' : WellFormedWaiting w N { ed with runData := c.1 } := ⟨hwf.length, hwf.source⟩
    exact (addNodeToBeExecuted_spec hN hwf' (hcalls c List.mem_cons_self)).1

/-- **No delivered data is lost or duplicated, iff no call overwrites.**  From a
state in which the node does not wait, after every prefix of the run the data
held is the data held before the run together with each pair delivered, once;
exactly when no call makes a new entry at the index of one that still waits. -/
theorem deliverAll_conserves_iff {ed : IRunExecutionData} {calls : List (IRunData × Delivery)}
    (hN : 1 < w.numberOfInputs N) (hempty : ed.waitingExecution.get? N = none)
    (hcalls : ∀ c ∈ calls, c.2.Delivers w N) :
    (∀ k ≤ calls.length, (held w N (deliverAll w ed (calls.take k))).Perm
        (held w N ed ++ (calls.take k).map (fun c => c.2.delivered))) ↔
      ∀ k (_ : k < calls.length),
        ¬ Overwrites N (deliverAll w ed (calls.take k)) (calls[k]).2.connectionData.index := by
  have hstep : ∀ k (_ : k < calls.length),
      (held w N (deliverAll w ed (calls.take (k + 1)))).Perm
        (held w N (deliverAll w ed (calls.take k)) ++ [(calls[k]).2.delivered]) ↔
      ¬ Overwrites N (deliverAll w ed (calls.take k)) (calls[k]).2.connectionData.index := by
    intro k hk
    have hwf : WellFormedWaiting w N (deliverAll w ed (calls.take k)) :=
      wellFormedWaiting_deliverAll hN (fun c hc => hcalls c (List.mem_of_mem_take hc))
        (wellFormedWaiting_of_get?_eq_none hempty)
    have hwf' : WellFormedWaiting w N
        { deliverAll w ed (calls.take k) with runData := (calls[k]).1 } := ⟨hwf.length, hwf.source⟩
    rw [List.take_succ_eq_append_getElem hk, deliverAll_snoc]
    exact held_add_iff hN hwf' (hcalls _ (List.getElem_mem hk))
  constructor
  · intro hall k hk
    rw [← hstep k hk]
    have hnow := hall k (le_of_lt hk)
    have hnext := hall (k + 1) hk
    rw [List.take_succ_eq_append_getElem hk, List.map_append, ← List.append_assoc] at hnext
    rw [List.take_succ_eq_append_getElem hk]
    exact hnext.trans (hnow.symm.append_right _)
  · intro hnever k
    induction k with
    | zero =>
      intro _
      rw [List.take_zero, List.map_nil, List.append_nil]
      exact List.Perm.refl _
    | succ k ih =>
      intro hk
      have hnow := ih (by omega)
      have hnext := (hstep k hk).mpr (hnever k hk)
      rw [List.take_succ_eq_append_getElem hk, List.map_append, ← List.append_assoc]
      rw [List.take_succ_eq_append_getElem hk] at hnext
      exact hnext.trans (hnow.append_right _)

end Run

def mergeWorkflow : Workflow :=
  let feeds (input : ℕ) : INodeConnections := Dict.empty.set .main [some [⟨"Merge", .main, input⟩]]
  let connections := (Dict.empty.set "Loop" (feeds 0)).set "Other" (feeds 1)
  { nodes := ((Dict.empty.set "Loop" { name := "Loop" }).set "Other" { name := "Other" }).set "Merge"
      { name := "Merge" }
    connectionsBySourceNode := connections
    connectionsByDestinationNode := mapConnectionsByDestination connections
    settings := ⟨some .v1⟩ }

def deliverItems (parentNodeName : String) (input n : ℕ) : IRunData × Delivery :=
  (Dict.empty, ⟨⟨"Merge", .main, input⟩, 0, parentNodeName,
    some [.data (List.replicate n {})], 0, none, none⟩)

theorem delivers_deliverItems (parentNodeName : String) {input : ℕ} (hinput : input < 2) (n : ℕ) :
    (deliverItems parentNodeName input n).2.Delivers mergeWorkflow "Merge" :=
  ⟨rfl, hinput, _, rfl⟩

/-- Two deliveries to the first input and one to the second. -/
def evenRun : List (IRunData × Delivery) :=
  [deliverItems "Loop" 0 1, deliverItems "Loop" 0 2, deliverItems "Other" 1 3]

theorem delivers_evenRun : ∀ c ∈ evenRun, c.2.Delivers mergeWorkflow "Merge" := by
  intro c hc
  simp only [evenRun, List.mem_cons, List.not_mem_nil, or_false] at hc
  rcases hc with rfl | rfl | rfl
  · exact delivers_deliverItems "Loop" (by decide) 1
  · exact delivers_deliverItems "Loop" (by decide) 2
  · exact delivers_deliverItems "Other" (by decide) 3

/-- After the three calls every item is held once. -/
theorem deliverAll_conserves_evenRun :
    (held mergeWorkflow "Merge" (deliverAll mergeWorkflow {} evenRun)).Perm
      [(0, List.replicate 1 {}), (0, List.replicate 2 {}), (1, List.replicate 3 {})] := by
  have hempty : ({} : IRunExecutionData).waitingExecution.get? "Merge" = none := rfl
  exact (deliverAll_conserves_iff (by decide) hempty delivers_evenRun).mpr (by decide) 3 (by decide)

/-- One more delivery to the first input takes the index of the entry that
still waits: the two items of that entry are lost. -/
theorem deliverAll_evenRun_loses :
    (∀ c ∈ evenRun ++ [deliverItems "Loop" 0 4], c.2.Delivers mergeWorkflow "Merge") ∧
      ¬ (held mergeWorkflow "Merge"
          (deliverAll mergeWorkflow {} (evenRun ++ [deliverItems "Loop" 0 4]))).Perm
        [(0, List.replicate 1 {}), (0, List.replicate 2 {}), (1, List.replicate 3 {}),
          (0, List.replicate 4 {})] := by
  refine ⟨fun c hc => ?_, by decide⟩
  rcases List.mem_append.mp hc with hc | hc
  · exact delivers_evenRun c hc
  · rw [List.mem_singleton.mp hc]
    exact delivers_deliverItems "Loop" (by decide) 4

end N8n
