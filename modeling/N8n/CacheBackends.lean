/-
Both backends of the cache service as one map.

In each the results of overlapping calls are those of the map in some order, along runs
without the turns that break it.  Without these conditions neither is the map: in memory an
update that finds another one stored since it read throws that one away, and Redis has a
remaining time, which is true, for a key that is missing.

* **`cacheService_linearizable`** — both backends;
* **`not_cacheService_linearizable`** — a field that is lost in memory, and a missing key
  that exists over Redis.
-/
import N8n.MemoryCacheService
import N8n.RedisCacheService

namespace N8n

/-- **Both cache backends are one map of values and hashes** along undisturbed runs: the
calls give the results of some sequential order of them on the map. -/
theorem cacheService_linearizable (inputs : List CacheInput) :
    (Along MemoryCacheService.step (fun s input _ => s.Undisturbed input) {} inputs →
      Along MemoryCacheService.step
        (fun _ _ s' => Linearizable CacheMap.apply {} s'.calls) {} inputs) ∧
    (Along RedisCacheService.step (fun s input _ => s.Undisturbed input) {} inputs →
      Along RedisCacheService.step
        (fun _ _ s' => Linearizable CacheMap.apply {} s'.calls) {} inputs) :=
  ⟨MemoryCacheService.linearizable, RedisCacheService.linearizable⟩

/-- The fields `anna` and `ben` of a hash are set in turn, while it is read. -/
def setInTurn : List CacheInput :=
  [.call (.setHash "lock" (Dict.empty.set "anna" (.boolean true))), .proceed 0, .proceed 0,
    .proceed 0, .proceed 0, .call (.getHash "lock"),
    .call (.setHash "lock" (Dict.empty.set "ben" (.boolean true))), .proceed 2, .proceed 2,
    .proceed 1, .proceed 1]

theorem cacheService_linearizable_setInTurn :
    Along MemoryCacheService.step
      (fun _ _ s' => Linearizable CacheMap.apply {} s'.calls) {} setInTurn ∧
    Along RedisCacheService.step
      (fun _ _ s' => Linearizable CacheMap.apply {} s'.calls) {} setInTurn :=
  ⟨(cacheService_linearizable setInTurn).1 (by decide),
    (cacheService_linearizable setInTurn).2 (by decide)⟩

/-- The fields `anna` and `ben` of a hash are set at the same time, then it is read. -/
def setTwoFields : List CacheInput :=
  [.call (.setHash "lock" (Dict.empty.set "anna" (.boolean true))), .proceed 0, .proceed 0,
    .call (.setHash "lock" (Dict.empty.set "ben" (.boolean true))), .proceed 0, .proceed 1,
    .proceed 0, .proceed 1, .call (.getHash "lock"), .proceed 2, .proceed 2]

def askMissing : List CacheInput :=
  [.call (.get "a"), .proceed 0, .proceed 0, .proceed 0, .proceed 0,
    .call (.«exists» (.hash "lock")), .proceed 1, .proceed 1]

/-- In memory the second update stores only its own field; over Redis a missing key is said
to exist. -/
theorem not_cacheService_linearizable :
    (¬ ∀ inputs : List CacheInput, Along MemoryCacheService.step
        (fun _ _ s' => Linearizable CacheMap.apply {} s'.calls) {} inputs) ∧
    ¬ ∀ inputs : List CacheInput, Along RedisCacheService.step
        (fun _ _ s' => Linearizable CacheMap.apply {} s'.calls) {} inputs := by
  constructor
  · intro h
    obtain ⟨s, hrun, hall, hno⟩ : ∃ s, runInputs MemoryCacheService.step {} setTwoFields = .ok s ∧
        (∀ i < s.calls.length, ∃ c, s.calls[i]? = some c ∧ c.stage.result.isSome) ∧
        ∀ order ∈ (List.range s.calls.length).permutations',
          ¬ ((order.Pairwise fun i j => ∀ c ∈ s.calls[i]?, j ∉ c.after) ∧
            Explains CacheMap.apply s.calls {} order) := by
      refine ⟨_, rfl, ?_, ?_⟩
      · decide
      · decide
    exact not_linearizable hall hno (Along.last
      (P := fun s : MemoryCacheService => Linearizable CacheMap.apply {} s.calls)
      ⟨[], History.init.linearizes⟩ (h setTwoFields) hrun)
  · intro h
    obtain ⟨s, hrun, hall, hno⟩ : ∃ s, runInputs RedisCacheService.step {} askMissing = .ok s ∧
        (∀ i < s.calls.length, ∃ c, s.calls[i]? = some c ∧ c.stage.result.isSome) ∧
        ∀ order ∈ (List.range s.calls.length).permutations',
          ¬ ((order.Pairwise fun i j => ∀ c ∈ s.calls[i]?, j ∉ c.after) ∧
            Explains CacheMap.apply s.calls {} order) := by
      refine ⟨_, rfl, ?_, ?_⟩
      · decide
      · decide
    exact not_linearizable hall hno (Along.last
      (P := fun s : RedisCacheService => Linearizable CacheMap.apply {} s.calls)
      ⟨[], History.init.linearizes⟩ (h askMissing) hrun)

end N8n
