/-
The sliding window decides a threshold as if it kept every event.

Events are discarded by their number when one is added, and by their age when they are counted.

* **`maxEvents_le_getCount_iff`** — the threshold is reached iff enough events are in the window.
-/
import Mathlib.Algebra.Order.Group.Int
import Mathlib.Data.List.Induction
import N8n.CircuitBreaker

namespace N8n.SlidingWindow

/-- A call with the time it is made at, which is that of the event if it adds one. -/
inductive Call where
  | addEvent (timestamp : ℤ)
  | getCount (now : ℤ)
  | clear
  deriving DecidableEq, Repr

def Call.time : Call → Option ℤ
  | addEvent timestamp => some timestamp
  | getCount now => some now
  | clear => none

variable (options : SlidingWindowOptions)

def call (window : SlidingWindow) : Call → SlidingWindow
  | .addEvent timestamp => addEvent options window timestamp
  | .getCount now => (getCount options window now).1
  | .clear => []

/-- The window after some calls. -/
def after (calls : List Call) : SlidingWindow := calls.foldl (call options) []

def added (calls : List Call) : List ℤ :=
  calls.foldl (fun events c => match c with
    | .addEvent timestamp => events ++ [timestamp]
    | .getCount _ => events
    | .clear => []) []

/-- The times of the calls do not decrease. -/
def Ordered (calls : List Call) : Prop := (calls.filterMap Call.time).Pairwise (· ≤ ·)

/-- What the window keeps of the events, at a time that no call comes after. -/
structure Keeps (time : ℤ) (events : List ℤ) (window : SlidingWindow) : Prop where
  ordered : events.Pairwise (· ≤ ·)
  past : ∀ e ∈ events, e ≤ time
  discarded : ∃ old, events = old ++ window ∧
    (options.maxEvents ≤ window.length ∨ ∀ e ∈ old, e < time - options.durationMs)

variable {options} {time : ℤ} {events : List ℤ} {window : SlidingWindow}

theorem Keeps.mono (h : Keeps options time events window) {later : ℤ} (hle : time ≤ later) :
    Keeps options later events window := by
  obtain ⟨old, heq, hold⟩ := h.discarded
  refine ⟨h.ordered, fun e he => (h.past e he).trans hle, old, heq, hold.imp_right ?_⟩
  intro hold e he
  have := hold e he
  omega

theorem exists_addEvent (options : SlidingWindowOptions) (window : SlidingWindow) (timestamp : ℤ) :
    ∃ old, window ++ [timestamp] = old ++ addEvent options window timestamp ∧
      (old = [] ∨ options.maxEvents ≤ (addEvent options window timestamp).length) := by
  rw [addEvent]
  split
  · next hlong =>
    rw [sliceLast]
    split
    · exact ⟨[], rfl, .inl rfl⟩
    · refine ⟨_, (List.take_append_drop _ _).symm, .inr ?_⟩
      rw [List.length_drop]
      omega
  · exact ⟨[], rfl, .inl rfl⟩

theorem Keeps.addEvent (h : Keeps options time events window) :
    Keeps options time (events ++ [time]) (addEvent options window time) := by
  obtain ⟨old, rfl, hold⟩ := h.discarded
  obtain ⟨more, hmore, hfull⟩ := exists_addEvent options window time
  refine ⟨?_, ?_, old ++ more, ?_, ?_⟩
  · rw [List.pairwise_append]
    refine ⟨h.ordered, List.pairwise_singleton _ _, fun e he last hlast => ?_⟩
    rw [List.mem_singleton.mp hlast]
    exact h.past e he
  · intro e he
    rcases List.mem_append.mp he with he | he
    · exact h.past e he
    · exact (List.mem_singleton.mp he).le
  · rw [List.append_assoc, hmore, List.append_assoc]
  · rcases hfull with rfl | hfull
    · rw [List.append_nil]
      refine hold.imp_left fun hlen => ?_
      have hlength := congrArg List.length hmore
      rw [List.length_append, List.length_append] at hlength
      simp only [List.length_nil, List.length_singleton] at hlength
      omega
    · exact .inl hfull

theorem exists_filter (options : SlidingWindowOptions)
    (h : window.Pairwise (· ≤ ·)) (now : ℤ) :
    ∃ old, window = old ++ (getCount options window now).1 ∧
      ∀ e ∈ old, e < now - options.durationMs := by
  induction window with
  | nil => exact ⟨[], rfl, fun e he => absurd he List.not_mem_nil⟩
  | cons first rest ih =>
    obtain ⟨hfirst, hrest⟩ := List.pairwise_cons.mp h
    rw [getCount]
    simp only
    by_cases hin : now - options.durationMs ≤ first
    · refine ⟨[], (List.filter_eq_self.mpr fun e he => decide_eq_true ?_).symm,
        fun e he => absurd he List.not_mem_nil⟩
      rcases List.mem_cons.mp he with rfl | he
      · exact hin
      · exact hin.trans (hfirst e he)
    · obtain ⟨old, heq, hold⟩ := ih hrest
      refine ⟨first :: old, ?_, List.forall_mem_cons.mpr ⟨not_le.mp hin, hold⟩⟩
      rw [List.filter_cons_of_neg (by simpa using hin), List.cons_append]
      exact congrArg (first :: ·) heq

theorem Keeps.getCount (h : Keeps options time events window) :
    Keeps options time events (getCount options window time).1 := by
  obtain ⟨old, heq, hold⟩ := h.discarded
  have hordered := h.ordered
  rw [heq, List.pairwise_append] at hordered
  obtain ⟨-, hwindow, hbefore⟩ := hordered
  obtain ⟨expired, hexpired, htooOld⟩ := exists_filter options hwindow time
  refine ⟨h.ordered, h.past, old ++ expired, ?_, ?_⟩
  · rw [List.append_assoc, ← hexpired]
    exact heq
  · rcases expired with _ | ⟨first, rest⟩
    · rw [List.nil_append] at hexpired
      rw [List.append_nil, ← hexpired]
      exact hold
    · -- all that was discarded before is at least as old as what has expired now
      refine .inr fun e he => ?_
      rcases List.mem_append.mp he with he | he
      · have hfirst := htooOld first List.mem_cons_self
        have hmem : first ∈ window := hexpired ▸ List.mem_append_left _ List.mem_cons_self
        exact lt_of_le_of_lt (hbefore e he first hmem) hfirst
      · exact htooOld e he

theorem keeps_clear : Keeps options time [] [] :=
  ⟨.nil, fun _ he => absurd he List.not_mem_nil, [], rfl,
    .inr fun _ he => absurd he List.not_mem_nil⟩

theorem keeps_after (options : SlidingWindowOptions) (calls : List Call) :
    ∀ time, Ordered calls → (∀ t ∈ calls.filterMap Call.time, t ≤ time) →
      Keeps options time (added calls) (after options calls) := by
  induction calls using List.reverseRecOn with
  | nil => exact fun time _ _ => keeps_clear
  | append_singleton calls c ih =>
    intro time hordered htime
    rw [Ordered, List.filterMap_append, List.pairwise_append] at hordered
    rw [List.filterMap_append, List.forall_mem_append] at htime
    obtain ⟨hcalls, -, hlast⟩ := hordered
    rw [added, after, List.foldl_append, List.foldl_append]
    cases c with
    | addEvent timestamp =>
      have hle : timestamp ≤ time := htime.2 timestamp List.mem_cons_self
      have hkeeps := ih timestamp hcalls fun t ht => hlast t ht timestamp List.mem_cons_self
      exact hkeeps.addEvent.mono hle
    | getCount now =>
      have hle : now ≤ time := htime.2 now List.mem_cons_self
      have hkeeps := ih now hcalls fun t ht => hlast t ht now List.mem_cons_self
      exact hkeeps.getCount.mono hle
    | clear => exact keeps_clear

theorem Keeps.maxEvents_le_iff (h : Keeps options time events window) :
    options.maxEvents ≤ (SlidingWindow.getCount options window time).2 ↔
      options.maxEvents ≤ (events.filter (time - options.durationMs ≤ ·)).length := by
  obtain ⟨old, rfl, hold⟩ := h.discarded
  obtain ⟨-, hwindow, hbefore⟩ := List.pairwise_append.mp h.ordered
  show _ ≤ (window.filter (time - options.durationMs ≤ ·)).length ↔ _
  rw [List.filter_append, List.length_append]
  by_cases htooOld : ∀ e ∈ old, e < time - options.durationMs
  · have hnil : old.filter (time - options.durationMs ≤ ·) = [] := by
      refine List.filter_eq_nil_iff.mpr fun e he hin => ?_
      exact absurd (of_decide_eq_true hin) (not_le.mpr (htooOld e he))
    rw [hnil, List.length_nil, Nat.zero_add]
  · -- an event that was discarded is in the window, and so are all that were kept
    have hfull := hold.resolve_right htooOld
    push Not at htooOld
    obtain ⟨e, he, hin⟩ := htooOld
    have hall : window.filter (time - options.durationMs ≤ ·) = window :=
      List.filter_eq_self.mpr fun kept hkept =>
        decide_eq_true (hin.trans (hbefore e he kept hkept))
    rw [hall]
    exact iff_of_true hfull (Nat.le_add_left_of_le hfull)

/-- **The threshold is reached** iff at least as many events as that were added since the last
`clear` with a time in the window. -/
theorem maxEvents_le_getCount_iff (options : SlidingWindowOptions) (calls : List Call) (now : ℤ)
    (hordered : Ordered (calls ++ [.getCount now])) :
    options.maxEvents ≤ (getCount options (after options calls) now).2 ↔
      options.maxEvents ≤ ((added calls).filter (now - options.durationMs ≤ ·)).length := by
  rw [Ordered, List.filterMap_append, List.pairwise_append] at hordered
  obtain ⟨hcalls, -, hlast⟩ := hordered
  have hkeeps := keeps_after options calls now hcalls fun t ht => hlast t ht now List.mem_cons_self
  exact hkeeps.maxEvents_le_iff

/-- Of six events the window keeps four; three of them are in the last 10 ms. -/
theorem threshold_of_six :
    2 ≤ (getCount ⟨2, 10⟩ (after ⟨2, 10⟩ [.addEvent 1, .addEvent 2, .addEvent 3, .getCount 3,
      .addEvent 11, .addEvent 12, .addEvent 13]) 20).2 ↔
    2 ≤ ([1, 2, 3, 11, 12, 13].filter ((20 : ℤ) - 10 ≤ ·)).length :=
  maxEvents_le_getCount_iff ⟨2, 10⟩ [.addEvent 1, .addEvent 2, .addEvent 3, .getCount 3,
    .addEvent 11, .addEvent 12, .addEvent 13] 20 (by unfold Ordered; decide)

end N8n.SlidingWindow
