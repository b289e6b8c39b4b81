/-
The queue that limits how many executions run at the same time.

`capacity` counts the free slots, and below zero the waiting executions too:
every call that enqueues takes one, a call that dequeues or removes gives one
back.  Both of the latter also release the first execution that waits.  For
`dequeue` that is the slot that became free; `remove` withdraws an execution
that never had a slot, and releases another one all the same.

* `withinLimit_iff` — **the limit is kept along a run iff no execution is
  removed while another one waits**.
-/
import N8n.Runs
import Mathlib.Data.Int.Notation
import Mathlib.Data.List.Nodup
import Mathlib.Data.Nat.Basic

namespace N8n

/-- The waiting executions, first come first, and the capacity left. -/
structure ConcurrencyQueue where
  queue : List String
  capacity : ℤ
  deriving DecidableEq, Repr

namespace ConcurrencyQueue

def new (capacity : ℤ) : ConcurrencyQueue := ⟨[], capacity⟩

variable (q : ConcurrencyQueue)

/-- `enqueue`: the queue, and whether the returned promise is resolved at once. -/
def enqueue (executionId : String) : ConcurrencyQueue × Bool :=
  let capacity := q.capacity - 1
  if capacity < 0 then ({ queue := q.queue ++ [executionId], capacity }, false)
  else ({ q with capacity }, true)

/-- `resolveNext`: the queue, and the execution whose promise it resolves. -/
def resolveNext : ConcurrencyQueue × Option String :=
  match q.queue with
  | [] => (q, none)
  | item :: queue => ({ q with queue }, some item)

def dequeue : ConcurrencyQueue × Option String :=
  { q with capacity := q.capacity + 1 }.resolveNext

def has (executionId : String) : Bool := q.queue.contains executionId

def remove (executionId : String) : ConcurrencyQueue × Option String :=
  if q.has executionId then
    resolveNext { queue := q.queue.erase executionId, capacity := q.capacity + 1 }
  else (q, none)

def getAll : List String := q.queue.eraseDups

end ConcurrencyQueue

/-- The queue with what happened so far: the executions in the order in which
they came, those let through, those of them that still run, and those removed
while they waited. -/
structure ConcurrencyRun where
  q : ConcurrencyQueue
  enqueued : List String := []
  letThrough : List String := []
  running : List String := []
  removed : List String := []
  deriving DecidableEq, Repr

inductive ConcurrencyEvent where
  | enqueue (executionId : String)
  /-- The execution, which was let through, is over. -/
  | dequeue (executionId : String)
  | remove (executionId : String)
  /-- `removeAll` of the service, for this queue. -/
  | removeAll
  deriving DecidableEq, Repr

namespace ConcurrencyRun
variable (s : ConcurrencyRun)

def release (released : Option String) : ConcurrencyRun :=
  { s with
    letThrough := s.letThrough ++ released.toList
    running := s.running ++ released.toList }

def enqueue (executionId : String) : ConcurrencyRun :=
  let (q, resolved) := s.q.enqueue executionId
  { s with q, enqueued := s.enqueued ++ [executionId] }.release
    (if resolved then some executionId else none)

def dequeue (executionId : String) : ConcurrencyRun :=
  let (q, released) := s.q.dequeue
  { s with q, running := s.running.erase executionId }.release released

def remove (executionId : String) : ConcurrencyRun :=
  let (q, released) := s.q.remove executionId
  { s with
    q
    removed := s.removed ++ if s.q.has executionId then [executionId] else [] }.release released

/-- The loop over the set of the waiting executions, which is taken before. -/
def removeAll : ConcurrencyRun := s.q.getAll.foldl remove s

/-- Executions come once, and are over once. -/
def step : ConcurrencyEvent → Except Unit ConcurrencyRun
  | .enqueue executionId => onlyIf (executionId ∉ s.enqueued) (s.enqueue executionId)
  | .dequeue executionId => onlyIf (executionId ∈ s.running) (s.dequeue executionId)
  | .remove executionId => .ok (s.remove executionId)
  | .removeAll => .ok s.removeAll

def start (limit : ℕ) : ConcurrencyRun := { q := .new limit }

/-- The capacity counts the limit less the running and the waiting executions,
executions are let through in the order in which they came and none that was
removed; and who waits finds the limit reached. -/
structure Accounted (limit : ℕ) (s : ConcurrencyRun) : Prop where
  nodup : s.enqueued.Nodup
  order : (s.letThrough ++ s.q.queue).Sublist s.enqueued
  capacity : s.q.capacity = limit - s.running.length - s.q.queue.length
  busy : s.q.queue ≠ [] → limit ≤ s.running.length
  removed : ∀ id ∈ s.removed, id ∈ s.enqueued ∧ id ∉ s.letThrough ++ s.q.queue

section Steps

variable {limit : ℕ} {s : ConcurrencyRun} {executionId : String}

theorem Accounted.nodup_queue (h : Accounted limit s) : s.q.queue.Nodup :=
  (h.order.nodup h.nodup).of_append_right

theorem accounted_start (limit : ℕ) : Accounted limit (start limit) where
  nodup := List.nodup_nil
  order := List.Sublist.refl _
  capacity := by simp [start, ConcurrencyQueue.new]
  busy := fun h => (h rfl).elim
  removed := List.forall_mem_nil _

theorem enqueue_cases (s : ConcurrencyRun) (executionId : String) :
    (0 < s.q.capacity ∧ s.enqueue executionId = { s with
      q := { s.q with capacity := s.q.capacity - 1 }
      enqueued := s.enqueued ++ [executionId]
      letThrough := s.letThrough ++ [executionId]
      running := s.running ++ [executionId] }) ∨
    (s.q.capacity ≤ 0 ∧ s.enqueue executionId = { s with
      q := { queue := s.q.queue ++ [executionId], capacity := s.q.capacity - 1 }
      enqueued := s.enqueued ++ [executionId] }) := by
  rw [enqueue, ConcurrencyQueue.enqueue]
  by_cases h : s.q.capacity - 1 < 0
  · exact Or.inr ⟨by omega, by simp [h, release]⟩
  · exact Or.inl ⟨by omega, by simp [h, release]⟩

theorem dequeue_cases (s : ConcurrencyRun) (executionId : String) :
    (s.q.queue = [] ∧ s.dequeue executionId = { s with
      q := { s.q with capacity := s.q.capacity + 1 }
      running := s.running.erase executionId }) ∨
    ∃ item queue, s.q.queue = item :: queue ∧ s.dequeue executionId = { s with
      q := { queue, capacity := s.q.capacity + 1 }
      letThrough := s.letThrough ++ [item]
      running := s.running.erase executionId ++ [item] } := by
  rw [dequeue, ConcurrencyQueue.dequeue, ConcurrencyQueue.resolveNext]
  rcases hq : s.q.queue with _ | ⟨item, queue⟩
  · exact Or.inl ⟨rfl, by simp [release, hq]⟩
  · exact Or.inr ⟨item, queue, rfl, by simp [release]⟩

theorem remove_cases (s : ConcurrencyRun) (executionId : String) :
    (executionId ∉ s.q.queue ∧ s.remove executionId = s) ∨
    (executionId ∈ s.q.queue ∧ s.q.queue.erase executionId = [] ∧ s.remove executionId = { s with
      q := { queue := [], capacity := s.q.capacity + 1 }
      removed := s.removed ++ [executionId] }) ∨
    (executionId ∈ s.q.queue ∧ ∃ item queue, s.q.queue.erase executionId = item :: queue ∧
      s.remove executionId = { s with
        q := { queue, capacity := s.q.capacity + 1 }
        letThrough := s.letThrough ++ [item]
        running := s.running ++ [item]
        removed := s.removed ++ [executionId] }) := by
  rw [remove, ConcurrencyQueue.remove, ConcurrencyQueue.has]
  by_cases h : executionId ∈ s.q.queue
  · rcases hq : s.q.queue.erase executionId with _ | ⟨item, queue⟩
    · exact Or.inr (Or.inl ⟨h, rfl, by simp [h, ConcurrencyQueue.resolveNext, release]⟩)
    · exact Or.inr (Or.inr ⟨h, item, queue, rfl,
        by simp [h, ConcurrencyQueue.resolveNext, release]⟩)
  · exact Or.inl ⟨h, by simp [h, release]⟩

theorem accounted_enqueue (h : Accounted limit s) (hnew : executionId ∉ s.enqueued) :
    Accounted limit (s.enqueue executionId) := by
  have hnodup : (s.enqueued ++ [executionId]).Nodup :=
    List.nodup_append'.mpr ⟨h.nodup, List.nodup_singleton _, by simpa using hnew⟩
  have hremoved : ∀ id ∈ s.removed, id ∈ s.enqueued ++ [executionId] ∧
      id ∉ s.letThrough ++ s.q.queue ∧ id ≠ executionId := by
    intro id hid
    obtain ⟨hmem, hout⟩ := h.removed id hid
    exact ⟨List.mem_append_left _ hmem, hout, fun heq => hnew (heq ▸ hmem)⟩
  have hcap := h.capacity
  rcases enqueue_cases s executionId with ⟨hfree, heq⟩ | ⟨hfull, heq⟩
  · have hempty : s.q.queue = [] := by
      by_contra hne
      have := h.busy hne
      omega
    rw [heq]
    refine ⟨hnodup, ?_, ?_, ?_, ?_⟩
    · have horder := h.order
      rw [hempty, List.append_nil] at horder
      simpa [hempty] using horder.append_right [executionId]
    · simp only [List.length_append, List.length_singleton]
      omega
    · exact fun hne => (hne hempty).elim
    · intro id hid
      obtain ⟨hmem, hout, hne⟩ := hremoved id hid
      refine ⟨hmem, ?_⟩
      simp only [List.mem_append, List.mem_singleton] at hout ⊢
      tauto
  · rw [heq]
    refine ⟨hnodup, ?_, ?_, ?_, ?_⟩
    · rw [← List.append_assoc]
      exact h.order.append_right [executionId]
    · simp only [List.length_append, List.length_singleton]
      omega
    · intro _
      -- who starts to wait finds no free slot
      by_cases hempty : s.q.queue = []
      · rw [hempty, List.length_nil] at hcap
        dsimp only
        omega
      · exact h.busy hempty
    · intro id hid
      obtain ⟨hmem, hout, hne⟩ := hremoved id hid
      refine ⟨hmem, ?_⟩
      simp only [List.mem_append, List.mem_singleton] at hout ⊢
      tauto

theorem accounted_dequeue (h : Accounted limit s) (hrunning : executionId ∈ s.running) :
    Accounted limit (s.dequeue executionId) := by
  have hcap := h.capacity
  have hlength := List.length_erase_of_mem hrunning
  have hpos := List.length_pos_of_mem hrunning
  rcases dequeue_cases s executionId with ⟨hempty, heq⟩ | ⟨item, queue, hqueue, heq⟩
  · rw [heq]
    refine ⟨h.nodup, h.order, ?_, fun hne => (hne hempty).elim, h.removed⟩
    dsimp only
    omega
  · have horder := h.order
    have hbusy := h.busy (by simp [hqueue])
    have hremoved := h.removed
    rw [hqueue] at hcap horder hremoved
    rw [heq]
    refine ⟨h.nodup, by simpa using horder, ?_, fun _ => ?_, by simpa using hremoved⟩
    · simp only [List.length_append, List.length_cons, List.length_nil] at hcap ⊢
      omega
    · simp only [List.length_append, List.length_singleton]
      omega

theorem accounted_remove (h : Accounted limit s) (executionId : String) :
    Accounted limit (s.remove executionId) := by
  have hcap := h.capacity
  rcases remove_cases s executionId with ⟨-, heq⟩ | ⟨hmem, herase, heq⟩ |
      ⟨hmem, item, queue, herase, heq⟩
  · rw [heq]
    exact h
  all_goals
    have hlength := List.length_erase_of_mem hmem
    have hpos := List.length_pos_of_mem hmem
    have hbusy := h.busy (List.ne_nil_of_mem hmem)
    have hdisjoint := List.nodup_append'.mp (h.order.nodup h.nodup)
    -- what is removed was waiting, so it was not let through
    have hout : executionId ∈ s.enqueued ∧ executionId ∉ s.letThrough ∧
        executionId ∉ s.q.queue.erase executionId :=
      ⟨h.order.subset (List.mem_append_right _ hmem), fun hthrough =>
        hdisjoint.2.2 hthrough hmem, h.nodup_queue.not_mem_erase⟩
    have hsub : (s.letThrough ++ s.q.queue.erase executionId).Sublist
        (s.letThrough ++ s.q.queue) := (List.erase_sublist ..).append_left _
    have hremoved : ∀ id ∈ s.removed ++ [executionId], id ∈ s.enqueued ∧
        id ∉ s.letThrough ++ s.q.queue.erase executionId := by
      intro id hid
      rcases List.mem_append.mp hid with hid | hid
      · obtain ⟨hin, hnot⟩ := h.removed id hid
        exact ⟨hin, fun hmem => hnot (hsub.subset hmem)⟩
      · rw [List.mem_singleton.mp hid, List.mem_append]
        exact ⟨hout.1, fun hor => hor.elim hout.2.1 hout.2.2⟩
    rw [heq]
    rw [herase] at hlength hsub hremoved
  · refine ⟨h.nodup, hsub.trans h.order, ?_, fun hne => (hne rfl).elim, hremoved⟩
    simp only [List.length_nil] at hlength ⊢
    omega
  · refine ⟨h.nodup, by simpa using hsub.trans h.order, ?_, fun _ => ?_,
      by simpa using hremoved⟩
    · simp only [List.length_append, List.length_cons, List.length_nil] at hlength ⊢
      omega
    · simp only [List.length_append, List.length_singleton]
      omega

theorem accounted_foldl_remove : ∀ (ids : List String) {s : ConcurrencyRun},
    Accounted limit s → Accounted limit (ids.foldl remove s)
  | [], _, h => h
  | id :: ids, _, h => accounted_foldl_remove ids (accounted_remove h id)

theorem accounted_step {e : ConcurrencyEvent} {s' : ConcurrencyRun} (h : Accounted limit s)
    (hstep : s.step e = .ok s') : Accounted limit s' := by
  cases e with
  | enqueue executionId =>
    obtain ⟨hnew, rfl⟩ := onlyIf_eq_ok.mp hstep
    exact accounted_enqueue h hnew
  | dequeue executionId =>
    obtain ⟨hrunning, rfl⟩ := onlyIf_eq_ok.mp hstep
    exact accounted_dequeue h hrunning
  | remove executionId =>
    cases hstep
    exact accounted_remove h executionId
  | removeAll =>
    cases hstep
    exact accounted_foldl_remove _ h

end Steps

structure WithinLimit (limit : ℕ) (s : ConcurrencyRun) : Prop where
  within : s.running.length ≤ limit
  capacity : s.q.capacity = limit - s.running.length - s.q.queue.length
  order : s.letThrough.Sublist s.enqueued
  removed : ∀ id ∈ s.removed, id ∉ s.letThrough

theorem Accounted.atMostLimit_iff {limit : ℕ} {s : ConcurrencyRun} (h : Accounted limit s) :
    WithinLimit limit s ↔ s.running.length ≤ limit := by
  constructor
  · exact WithinLimit.within
  · intro hlimit
    exact ⟨hlimit, h.capacity, (List.sublist_append_left _ _).trans h.order,
      fun id hid hthrough => (h.removed id hid).2 (List.mem_append_left _ hthrough)⟩

/-- No execution is removed from the queue while another one waits there. -/
def RemovesAlone (s : ConcurrencyRun) : ConcurrencyEvent → Prop
  | .remove executionId => executionId ∈ s.q.queue → s.q.queue.length ≤ 1
  | .removeAll => s.q.queue.length ≤ 1
  | _ => True

section Limit

variable {limit : ℕ} {s : ConcurrencyRun} {executionId : String}

theorem length_running_remove (s : ConcurrencyRun) (executionId : String) :
    s.running.length ≤ (s.remove executionId).running.length ∧
      (executionId ∈ s.q.queue → 1 < s.q.queue.length →
        (s.remove executionId).running.length = s.running.length + 1) := by
  rcases remove_cases s executionId with ⟨hmem, heq⟩ | ⟨hmem, herase, heq⟩ |
      ⟨hmem, item, queue, -, heq⟩
  · rw [heq]
    exact ⟨le_refl _, fun h => (hmem h).elim⟩
  · have hlength := List.length_erase_of_mem hmem
    rw [herase, List.length_nil] at hlength
    rw [heq]
    exact ⟨le_refl _, fun _ _ => by omega⟩
  · rw [heq]
    simp

theorem length_running_foldl_remove : ∀ (ids : List String) (s : ConcurrencyRun),
    s.running.length ≤ (ids.foldl remove s).running.length
  | [], _ => le_refl _
  | id :: ids, s =>
    le_trans (length_running_remove s id).1 (length_running_foldl_remove ids (s.remove id))

theorem within_remove_iff (h : Accounted limit s) (hwithin : s.running.length ≤ limit) :
    (s.remove executionId).running.length ≤ limit ↔
      (executionId ∈ s.q.queue → s.q.queue.length ≤ 1) := by
  constructor
  · intro hafter hmem
    by_contra hlength
    -- the next one is let through although all slots are taken
    have hbusy := h.busy (List.ne_nil_of_mem hmem)
    rw [(length_running_remove s executionId).2 hmem (by omega)] at hafter
    omega
  · intro halone
    rcases remove_cases s executionId with ⟨-, heq⟩ | ⟨-, -, heq⟩ |
        ⟨hmem, item, queue, herase, -⟩
    · rw [heq]
      exact hwithin
    · rw [heq]
      exact hwithin
    · have hlength := List.length_erase_of_mem hmem
      rw [herase, List.length_cons] at hlength
      have := halone hmem
      omega

theorem within_removeAll_iff (h : Accounted limit s) (hwithin : s.running.length ≤ limit) :
    s.removeAll.running.length ≤ limit ↔ s.q.queue.length ≤ 1 := by
  rw [removeAll, ConcurrencyQueue.getAll]
  rcases hq : s.q.queue with _ | ⟨first, rest⟩
  · simpa using hwithin
  · have hfirst : first ∈ s.q.queue := by simp [hq]
    -- the first removal decides, the others only let more through
    have hone : (s.remove first).running.length ≤ limit ↔ (first :: rest).length ≤ 1 := by
      rw [within_remove_iff h hwithin, hq]
      simp
    rw [List.eraseDups_cons, List.foldl_cons]
    constructor
    · intro hafter
      exact hone.mp (le_trans (length_running_foldl_remove _ _) hafter)
    · intro hlength
      obtain rfl : rest = [] := by simpa using hlength
      simpa using hone.mpr hlength

theorem within_step_iff {e : ConcurrencyEvent} {s' : ConcurrencyRun} (h : Accounted limit s)
    (hwithin : s.running.length ≤ limit) (hstep : s.step e = .ok s') :
    s'.running.length ≤ limit ↔ RemovesAlone s e := by
  cases e with
  | enqueue executionId =>
    obtain ⟨-, rfl⟩ := onlyIf_eq_ok.mp hstep
    refine iff_of_true ?_ trivial
    have hcap := h.capacity
    rcases enqueue_cases s executionId with ⟨hfree, heq⟩ | ⟨-, heq⟩
    · rw [heq]
      simp only [List.length_append, List.length_singleton]
      omega
    · rw [heq]
      exact hwithin
  | dequeue executionId =>
    obtain ⟨hrunning, rfl⟩ := onlyIf_eq_ok.mp hstep
    refine iff_of_true ?_ trivial
    have hlength := List.length_erase_of_mem hrunning
    have hpos := List.length_pos_of_mem hrunning
    rcases dequeue_cases s executionId with ⟨-, heq⟩ | ⟨item, queue, -, heq⟩
    · rw [heq]
      dsimp only
      omega
    · rw [heq]
      simp only [List.length_append, List.length_singleton]
      omega
  | remove executionId =>
    cases hstep
    exact within_remove_iff h hwithin
  | removeAll =>
    cases hstep
    exact within_removeAll_iff h hwithin

end Limit

/-- **Every state of a run keeps the limit, the accounting and the order iff no
execution is removed while another one waits.** -/
theorem withinLimit_iff (limit : ℕ) (events : List ConcurrencyEvent) :
    Along step (fun _ _ s' => WithinLimit limit s') (start limit) events ↔
      Along step (fun s e _ => RemovesAlone s e) (start limit) events := by
  refine Along.iff_of_step (V := fun _ _ _ => True)
    (I := fun s => Accounted limit s ∧ s.running.length ≤ limit) ?_ ?_
    ⟨accounted_start limit, Nat.zero_le _⟩
    (Along.always (fun _ _ _ => trivial) _ _)
  · intro s e s' hs hstep _
    rw [(accounted_step hs.1 hstep).atMostLimit_iff]
    exact within_step_iff hs.1 hs.2 hstep
  · exact fun s e s' hs hstep _ hr => ⟨accounted_step hs.1 hstep, hr.within⟩

/-- One of two waiting executions is removed while the only slot is taken: the
other one starts beside the execution that runs. -/
theorem not_withinLimit_remove :
    ¬ Along step (fun _ _ s' => WithinLimit 1 s') (start 1)
      [.enqueue "3", .enqueue "4", .enqueue "5", .remove "4"] := by
  intro h
  have hwithin : Along step (fun _ _ s' => s'.running.length ≤ 1) (start 1)
      [.enqueue "3", .enqueue "4", .enqueue "5", .remove "4"] :=
    h.mono fun _ _ _ hr => hr.within
  exact absurd hwithin (by decide)

end ConcurrencyRun

end N8n
