/-
The cached size of the data tables.

The size is fetched when it is not cached or the cached one is too old, and calls that come while a
fetch is in progress wait for it.  A reset forgets the cached size and the pending fetch, but not
the call that waits for that fetch: when the fetch is completed, the call writes to the cache, and
it clears the pending fetch even when it fails.

The data are identified with the fetch that they come from.  When a fetch settles, the call that
started it goes on first, and then the calls that wait for it, with nothing in between.

* **`fresh_along`** — the cache is fresh along every run of timely steps.
-/
import N8n.Runs
import Mathlib.Data.Int.Notation

namespace N8n

/-- A call of `getCachedSizeData`: its time, how many resets came before it, and the fetches that
were in progress then. -/
structure SizeCall where
  now : ℤ
  resets : ℕ
  inProgress : List ℕ
  deriving DecidableEq

/-- A fetch: the call that started it, and the calls that wait for it too. -/
structure SizeFetch where
  starter : SizeCall
  waiters : List SizeCall := []
  settled : Bool := false
  deriving DecidableEq

/-- `DataTableSizeValidator`, with the fetches in the order in which they were started, the number
of resets, and what the calls have returned. -/
structure SizeCache where
  sizeCheckCacheDuration : ℕ
  lastCheck : Option ℤ := none
  cachedSizeData : Option ℕ := none
  pendingCheck : Option ℕ := none
  fetches : List SizeFetch := []
  resets : ℕ := 0
  returned : List (SizeCall × Option ℕ) := []
  deriving DecidableEq

inductive SizeEvent where
  | call (now : ℤ)
  /-- A fetch is completed, or fails. -/
  | complete (fetch : ℕ)
  | fail (fetch : ℕ)
  | reset
  deriving DecidableEq

def SizeFetch.addWaiter (call : SizeCall) (f : SizeFetch) : SizeFetch :=
  { f with waiters := f.waiters ++ [call] }

def SizeFetch.settle (f : SizeFetch) : SizeFetch := { f with settled := true }

namespace SizeCache
variable (s : SizeCache)

def InProgress (k : ℕ) : Prop := ∃ f ∈ s.fetches[k]?, f.settled = false

instance (s : SizeCache) (k : ℕ) : Decidable (s.InProgress k) :=
  inferInstanceAs (Decidable (∃ f ∈ s.fetches[k]?, f.settled = false))

def inProgress : List ℕ :=
  (List.range s.fetches.length).filter fun k => s.InProgress k

def shouldRefresh (now : ℤ) : Bool :=
  match s.lastCheck, s.cachedSizeData with
  | some lastCheck, some _ => now - lastCheck ≥ s.sizeCheckCacheDuration
  | _, _ => true

/-- A call up to where it returns or waits. -/
def getCachedSizeData (now : ℤ) : SizeCache :=
  let call : SizeCall := ⟨now, s.resets, s.inProgress⟩
  match s.pendingCheck with
  | some k =>
    { s with fetches := s.fetches.modify k (SizeFetch.addWaiter call) }
  | none =>
    if s.shouldRefresh now then
      { s with
        fetches := s.fetches ++ [{ starter := call }]
        pendingCheck := some s.fetches.length }
    else { s with returned := s.returned ++ [(call, s.cachedSizeData)] }

/-- The rest of a call, with the data of a fetch. -/
def assignAndReturn (k : ℕ) (call : SizeCall) : SizeCache :=
  { s with cachedSizeData := some k, returned := s.returned ++ [(call, some k)] }

def settle (k : ℕ) : SizeCache :=
  { s with fetches := s.fetches.modify k SizeFetch.settle }

/-- The call that started the fetch goes on, and the calls that wait for it. -/
def complete (k : ℕ) : SizeCache :=
  match s.fetches[k]? with
  | none => s
  | some f =>
    let s := { (s.settle k).assignAndReturn k f.starter with
      lastCheck := some f.starter.now
      pendingCheck := none }
    f.waiters.foldl (fun s call => s.assignAndReturn k call) s

def fail (k : ℕ) : SizeCache := { s.settle k with pendingCheck := none }

def reset : SizeCache :=
  { s with
    lastCheck := none
    cachedSizeData := none
    pendingCheck := none
    resets := s.resets + 1 }

def step : SizeEvent → Except Unit SizeCache
  | .call now => .ok (s.getCachedSizeData now)
  | .complete k => onlyIf (s.InProgress k) (s.complete k)
  | .fail k => onlyIf (s.InProgress k) (s.fail k)
  | .reset => .ok s.reset

def Started (k : ℕ) (call : SizeCall) : Prop :=
  ∃ f, s.fetches[k]? = some f ∧ f.starter = call

/-- What a call returns: data of a fetch that was not started before the last reset before the
call, and that is recent, or was in progress when the call came. -/
def ReturnsFresh (call : SizeCall) (data : Option ℕ) : Prop :=
  ∃ k starter, data = some k ∧ s.Started k starter ∧ call.resets ≤ starter.resets ∧
    (call.now - starter.now ≤ s.sizeCheckCacheDuration ∨ k ∈ call.inProgress)

/-- **The cache is never older than its last reset**. -/
structure Fresh : Prop where
  /-- At most one fetch that was started since the last reset is in progress. -/
  once : ∀ k k' call call', s.InProgress k → s.InProgress k' → s.Started k call →
    s.Started k' call' → call.resets = s.resets → call'.resets = s.resets → k = k'
  returned : ∀ r ∈ s.returned, s.ReturnsFresh r.1 r.2

/-- A fetch from before the last reset is not completed, and does not fail while there is a pending
one. -/
def Timely : SizeEvent → Prop
  | .complete k => ∀ f ∈ s.fetches[k]?, f.starter.resets = s.resets
  | .fail k => s.pendingCheck = none ∨ ∀ f ∈ s.fetches[k]?, f.starter.resets = s.resets
  | _ => True

instance (s : SizeCache) : ∀ e, Decidable (s.Timely e)
  | .call _ => isTrue trivial
  | .complete k => inferInstanceAs (Decidable (∀ f ∈ s.fetches[k]?, f.starter.resets = s.resets))
  | .fail k => inferInstanceAs (Decidable (s.pendingCheck = none ∨
      ∀ f ∈ s.fetches[k]?, f.starter.resets = s.resets))
  | .reset => isTrue trivial

/-- The pending fetch is the one that was started since the last reset and is in progress, and the
cached data come from one that was. -/
structure Inv : Prop where
  pending : ∀ k, s.pendingCheck = some k →
    ∃ f, s.fetches[k]? = some f ∧ f.settled = false ∧ f.starter.resets = s.resets
  current : ∀ (k : ℕ) (f : SizeFetch), s.fetches[k]? = some f → f.settled = false →
    f.starter.resets = s.resets → s.pendingCheck = some k
  cached : ∀ k, s.cachedSizeData = some k →
    ∃ f, s.fetches[k]? = some f ∧ f.starter.resets = s.resets ∧
      s.lastCheck = some f.starter.now
  before : ∀ (k : ℕ) (f : SizeFetch), s.fetches[k]? = some f → f.starter.resets ≤ s.resets
  waiting : ∀ (k : ℕ) (f : SizeFetch), s.fetches[k]? = some f → ∀ call ∈ f.waiters,
    call.resets ≤ f.starter.resets ∧ k ∈ call.inProgress
  returned : ∀ r ∈ s.returned, s.ReturnsFresh r.1 r.2

variable {s : SizeCache}

theorem Inv.fresh (h : s.Inv) : s.Fresh := by
  refine ⟨?_, h.returned⟩
  rintro k k' call call' ⟨f, hf, hsettled⟩ ⟨f', hf', hsettled'⟩ ⟨g, hg, rfl⟩ ⟨g', hg', rfl⟩
    hcall hcall'
  cases hf.symm.trans hg
  cases hf'.symm.trans hg'
  have hpending := h.current k f hf hsettled hcall
  rw [h.current k' f' hf' hsettled' hcall'] at hpending
  exact (Option.some.inj hpending).symm

variable {k : ℕ}

theorem mem_inProgress : k ∈ s.inProgress ↔ s.InProgress k := by
  rw [inProgress, List.mem_filter, decide_eq_true_eq, List.mem_range]
  refine and_iff_right_of_imp ?_
  rintro ⟨f, hf, -⟩
  exact (List.getElem?_eq_some_iff.mp hf).1

variable {t : SizeCache}

theorem ReturnsFresh.mono {call : SizeCall} {data : Option ℕ}
    (h : s.ReturnsFresh call data) (hduration : t.sizeCheckCacheDuration = s.sizeCheckCacheDuration)
    (hstarted : ∀ k starter, s.Started k starter → t.Started k starter) :
    t.ReturnsFresh call data := by
  obtain ⟨k, starter, hdata, hk, hresets, hrecent⟩ := h
  exact ⟨k, starter, hdata, hstarted k starter hk, hresets, by rwa [hduration]⟩

variable {f : SizeFetch} {fetches : List SizeFetch} {g : SizeFetch → SizeFetch}

theorem exists_of_modify {i : ℕ} (h : (fetches.modify k g)[i]? = some f) :
    ∃ f', fetches[i]? = some f' ∧ f = if k = i then g f' else f' := by
  rw [List.getElem?_modify] at h
  obtain ⟨f', hf', rfl⟩ := Option.map_eq_some_iff.mp h
  exact ⟨f', hf', rfl⟩

theorem getElem?_modify_of {i : ℕ}
    (h : fetches[i]? = some f) (k : ℕ) (g : SizeFetch → SizeFetch) :
    (fetches.modify k g)[i]? = some (if k = i then g f else f) := by
  rw [List.getElem?_modify, h]
  rfl

theorem started_modify
    (hg : ∀ f, (g f).starter = f.starter) (h : t.fetches = s.fetches.modify k g) (i : ℕ)
    (starter : SizeCall) (hs : s.Started i starter) : t.Started i starter := by
  obtain ⟨f, hf, rfl⟩ := hs
  refine ⟨_, by rw [h]; exact getElem?_modify_of hf k g, ?_⟩
  split
  · exact hg f
  · rfl

theorem Inv.wait (h : s.Inv) (hk : s.pendingCheck = some k) (now : ℤ) :
    Inv { s with
      fetches := s.fetches.modify k (SizeFetch.addWaiter ⟨now, s.resets, s.inProgress⟩) } := by
  obtain ⟨f, hf, hsettled, hresets⟩ := h.pending k hk
  refine ⟨fun i hi => ?_, fun i g hg => ?_, fun i hi => ?_, fun i g hg => ?_, fun i g hg => ?_,
    fun r hr => ?_⟩
  · cases hk.symm.trans hi
    exact ⟨_, getElem?_modify_of hf k _, by rw [if_pos rfl]; exact hsettled,
      by rw [if_pos rfl]; exact hresets⟩
  · obtain ⟨g', hg', rfl⟩ := exists_of_modify hg
    split
    · exact h.current i g' hg'
    · exact h.current i g' hg'
  · obtain ⟨g, hg, hcurrent, hlast⟩ := h.cached i hi
    refine ⟨_, getElem?_modify_of hg k _, ?_⟩
    split
    · exact ⟨hcurrent, hlast⟩
    · exact ⟨hcurrent, hlast⟩
  · obtain ⟨g', hg', rfl⟩ := exists_of_modify hg
    split
    · exact h.before i g' hg'
    · exact h.before i g' hg'
  · obtain ⟨g', hg', rfl⟩ := exists_of_modify hg
    split
    · next hik =>
      subst hik
      cases hf.symm.trans hg'
      intro call hcall
      rcases List.mem_append.mp hcall with hcall | hcall
      · exact h.waiting k f hf call hcall
      · cases List.mem_singleton.mp hcall
        exact ⟨Nat.le_of_eq hresets.symm, mem_inProgress.mpr ⟨f, hf, hsettled⟩⟩
    · exact h.waiting i g' hg'
  · exact (h.returned r hr).mono rfl
      (started_modify (g := SizeFetch.addWaiter _) (fun _ => rfl) rfl)

theorem Inv.start (h : s.Inv) (hk : s.pendingCheck = none) (now : ℤ) :
    Inv { s with
      fetches := s.fetches ++ [{ starter := ⟨now, s.resets, s.inProgress⟩ }]
      pendingCheck := some s.fetches.length } := by
  have hlast : (s.fetches ++ [{ starter := ⟨now, s.resets, s.inProgress⟩ }])[s.fetches.length]?
      = some { starter := ⟨now, s.resets, s.inProgress⟩ } := List.getElem?_concat_length
  have hold : ∀ {i : ℕ} {f : SizeFetch}, s.fetches[i]? = some f →
      (s.fetches ++ [{ starter := ⟨now, s.resets, s.inProgress⟩ }])[i]? = some f := fun hf => by
    rw [List.getElem?_append_left (List.getElem?_eq_some_iff.mp hf).1]
    exact hf
  have hcases : ∀ {i : ℕ} {f : SizeFetch},
      (s.fetches ++ [{ starter := ⟨now, s.resets, s.inProgress⟩ }])[i]? = some f →
      s.fetches[i]? = some f ∨
        (i = s.fetches.length ∧ f = { starter := ⟨now, s.resets, s.inProgress⟩ }) := by
    intro i f hf
    rcases Nat.lt_trichotomy i s.fetches.length with hi | rfl | hi
    · rw [List.getElem?_append_left hi] at hf
      exact .inl hf
    · exact .inr ⟨rfl, Option.some.inj (hf.symm.trans hlast)⟩
    · rw [List.getElem?_eq_none (by simp; omega)] at hf
      cases hf
  refine ⟨fun i hi => ?_, fun i f hf hsettled hresets => ?_, fun i hi => ?_, fun i f hf => ?_,
    fun i f hf => ?_, fun r hr => ?_⟩
  · cases hi
    exact ⟨_, hlast, rfl, rfl⟩
  · rcases hcases hf with hf | ⟨rfl, -⟩
    · exact absurd (h.current i f hf hsettled hresets) (by rw [hk]; exact Option.some_ne_none i |>.symm)
    · rfl
  · obtain ⟨f, hf, hcurrent, hlast⟩ := h.cached i hi
    exact ⟨f, hold hf, hcurrent, hlast⟩
  · rcases hcases hf with hf | ⟨-, rfl⟩
    · exact h.before i f hf
    · exact Nat.le_refl _
  · rcases hcases hf with hf | ⟨-, rfl⟩
    · exact h.waiting i f hf
    · exact fun call hcall => absurd hcall List.not_mem_nil
  · refine (h.returned r hr).mono rfl ?_
    rintro k starter ⟨f, hf, hstarter⟩
    exact ⟨f, hold hf, hstarter⟩

theorem complete_eq (hf : s.fetches[k]? = some f) :
    s.complete k = { s.settle k with
      cachedSizeData := some k
      lastCheck := some f.starter.now
      pendingCheck := none
      returned := s.returned ++ (f.starter :: f.waiters).map fun call => (call, some k) } := by
  have hloop : ∀ (calls : List SizeCall) (t : SizeCache), t.cachedSizeData = some k →
      calls.foldl (fun t call => t.assignAndReturn k call) t
        = { t with returned := t.returned ++ calls.map fun call => (call, some k) } := by
    intro calls
    induction calls with
    | nil =>
      intro t _
      rw [List.foldl_nil, List.map_nil, List.append_nil]
    | cons call calls ih =>
      intro t ht
      rw [List.foldl_cons, ih _ rfl]
      simp [assignAndReturn, ht]
  rw [complete, hf]
  refine (hloop f.waiters _ rfl).trans ?_
  simp [assignAndReturn, settle]

theorem Inv.complete (h : s.Inv) (hf : s.fetches[k]? = some f)
    (hsettled : f.settled = false) (hresets : f.starter.resets = s.resets) :
    (s.complete k).Inv := by
  rw [complete_eq hf]
  have hstarted : ∀ i starter, s.Started i starter → (s.settle k).Started i starter :=
    started_modify (g := SizeFetch.settle) (fun _ => rfl) rfl
  refine ⟨nofun, fun i g hg hgsettled hgresets => ?_, fun i hi => ?_, fun i g hg => ?_,
    fun i g hg => ?_, fun r hr => ?_⟩
  · -- The only current fetch in progress was this one.
    obtain ⟨g', hg', rfl⟩ := exists_of_modify hg
    split at hgsettled
    · cases hgsettled
    · next hne =>
      rw [if_neg hne] at hgresets
      have hpending := h.current k f hf hsettled hresets
      rw [h.current i g' hg' hgsettled hgresets] at hpending
      exact absurd (Option.some.inj hpending).symm hne
  · cases hi
    exact ⟨_, getElem?_modify_of hf k _, by rw [if_pos rfl]; exact hresets,
      by rw [if_pos rfl]; rfl⟩
  · obtain ⟨g', hg', rfl⟩ := exists_of_modify hg
    split
    · exact h.before i g' hg'
    · exact h.before i g' hg'
  · obtain ⟨g', hg', rfl⟩ := exists_of_modify hg
    split
    · exact h.waiting i g' hg'
    · exact h.waiting i g' hg'
  · rcases List.mem_append.mp hr with hr | hr
    · exact (h.returned r hr).mono rfl hstarted
    · obtain ⟨call, hcall, rfl⟩ := List.mem_map.mp hr
      refine ⟨k, f.starter, rfl, hstarted k _ ⟨f, hf, rfl⟩, ?_⟩
      rcases List.mem_cons.mp hcall with rfl | hcall
      · exact ⟨Nat.le_refl _, .inl (by rw [Int.sub_self]; exact Int.natCast_nonneg _)⟩
      · obtain ⟨hle, hmem⟩ := h.waiting k f hf call hcall
        exact ⟨hle, .inr hmem⟩

theorem Inv.fail (h : s.Inv) (hf : s.fetches[k]? = some f)
    (hsettled : f.settled = false)
    (htimely : s.pendingCheck = none ∨ f.starter.resets = s.resets) : (s.fail k).Inv := by
  have hstarted : ∀ i starter, s.Started i starter → (s.fail k).Started i starter :=
    started_modify (g := SizeFetch.settle) (fun _ => rfl) rfl
  refine ⟨nofun, fun i g hg hgsettled hgresets => ?_, fun i hi => ?_, fun i g hg => ?_,
    fun i g hg => ?_, fun r hr => (h.returned r hr).mono rfl hstarted⟩
  · obtain ⟨g', hg', rfl⟩ := exists_of_modify hg
    split at hgsettled
    · cases hgsettled
    · next hne =>
      rw [if_neg hne] at hgresets
      have hpending := h.current i g' hg' hgsettled hgresets
      rcases htimely with hnone | hresets
      · rw [hnone] at hpending
        cases hpending
      · rw [h.current k f hf hsettled hresets] at hpending
        exact absurd (Option.some.inj hpending) hne
  · obtain ⟨g, hg, hcurrent, hlast⟩ := h.cached i hi
    refine ⟨_, getElem?_modify_of hg k _, ?_⟩
    split
    · exact ⟨hcurrent, hlast⟩
    · exact ⟨hcurrent, hlast⟩
  · obtain ⟨g', hg', rfl⟩ := exists_of_modify hg
    split
    · exact h.before i g' hg'
    · exact h.before i g' hg'
  · obtain ⟨g', hg', rfl⟩ := exists_of_modify hg
    split
    · exact h.waiting i g' hg'
    · exact h.waiting i g' hg'

theorem Inv.reset (h : s.Inv) : s.reset.Inv := by
  refine ⟨nofun, fun k f hf _ hresets => ?_, nofun, fun k f hf => ?_, h.waiting, h.returned⟩
  · have hle := h.before k f hf
    rw [hresets] at hle
    exact absurd hle (Nat.not_succ_le_self s.resets)
  · exact Nat.le_succ_of_le (h.before k f hf)

theorem Inv.cachedReturn (h : s.Inv) {now : ℤ} (hrefresh : s.shouldRefresh now = false)
    (inProgress : List ℕ) :
    Inv { s with
      returned := s.returned ++ [(⟨now, s.resets, inProgress⟩, s.cachedSizeData)] } := by
  refine ⟨h.pending, h.current, h.cached, h.before, h.waiting, fun r hr => ?_⟩
  rcases List.mem_append.mp hr with hr | hr
  · exact h.returned r hr
  · cases List.mem_singleton.mp hr
    rw [shouldRefresh] at hrefresh
    rcases hcached : s.cachedSizeData with _ | k
    · simp [hcached] at hrefresh
    obtain ⟨f, hf, hresets, hlast⟩ := h.cached k hcached
    rw [hcached, hlast] at hrefresh
    have hrecent := of_decide_eq_false hrefresh
    exact ⟨k, f.starter, rfl, ⟨f, hf, rfl⟩, Nat.le_of_eq hresets.symm,
      .inl (Int.le_of_lt (Int.not_le.mp hrecent))⟩

theorem Inv.call (h : s.Inv) (now : ℤ) : (s.getCachedSizeData now).Inv := by
  cases hpending : s.pendingCheck with
  | some k =>
    have hcall := h.wait hpending now
    simpa only [getCachedSizeData, hpending] using hcall
  | none =>
    cases hrefresh : s.shouldRefresh now with
    | true =>
      have hcall := h.start hpending now
      simpa only [getCachedSizeData, hpending, hrefresh, if_true] using hcall
    | false =>
      have hcall := h.cachedReturn hrefresh s.inProgress
      simpa only [getCachedSizeData, hpending, hrefresh, Bool.false_eq_true, if_false] using hcall

/-- **What one step keeps.** -/
theorem Inv.step {e : SizeEvent} (h : s.Inv) (hstep : s.step e = .ok t)
    (htimely : s.Timely e) : t.Inv := by
  cases e with
  | call now =>
    cases hstep
    exact h.call now
  | complete k =>
    obtain ⟨⟨f, hf, hsettled⟩, rfl⟩ := onlyIf_eq_ok.mp hstep
    exact h.complete hf hsettled (htimely f hf)
  | fail k =>
    obtain ⟨⟨f, hf, hsettled⟩, rfl⟩ := onlyIf_eq_ok.mp hstep
    exact h.fail hf hsettled (htimely.imp_right fun hresets => hresets f hf)
  | reset =>
    cases hstep
    exact h.reset

def initial (sizeCheckCacheDuration : ℕ) : SizeCache := { sizeCheckCacheDuration }

theorem Inv.initial (duration : ℕ) : (initial duration).Inv :=
  ⟨nofun, nofun, nofun, nofun, nofun, nofun⟩

/-- **When the cache is never older than its last reset:** along every run in which no fetch from
before the last reset is completed, or fails while there is a pending one. -/
theorem fresh_along {duration : ℕ} {events : List SizeEvent}
    (h : Along step (fun s e _ => s.Timely e) (initial duration) events) :
    Along step (fun _ _ t => t.Fresh) (initial duration) events := by
  refine Along.of_step (I := Inv) (fun s e t hs hstep htimely => ?_) (Inv.initial duration) h
  have ht := hs.step hstep htimely
  exact ⟨ht.fresh, ht⟩

/-- A fetch, a reset while none is in progress, and a second fetch. -/
theorem fresh_reset :
    Along step (fun _ _ t => t.Fresh) (initial 10)
      [.call 0, .call 1, .complete 0, .call 5, .reset, .call 6, .fail 1, .call 7, .complete 2] :=
  fresh_along (by decide)

/-- A fetch from before a reset is completed after it, and a later call returns its data. -/
theorem not_fresh_late :
    ∃ t, runInputs step (initial 10) [.call 0, .reset, .complete 0, .call 1] = .ok t ∧
      ¬ t.Fresh := by
  refine ⟨_, rfl, fun h => ?_⟩
  obtain ⟨k, starter, hdata, ⟨f, hf, rfl⟩, hresets, -⟩ :=
    h.returned (⟨1, 1, []⟩, some 0) (by decide)
  cases hdata
  cases hf
  exact absurd hresets (by decide)

end SizeCache

end N8n
