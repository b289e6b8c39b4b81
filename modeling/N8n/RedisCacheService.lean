/-
The cache service over Redis.

The server executes one command at a time and changes the fields of a hash in place, but
it has no empty hash and encodes a missing key in its own way.

* **`RedisCacheService.linearizable`** — the results are those of the map in some order.
-/
import N8n.CacheMap
import N8n.Linearization
import N8n.Runs

namespace N8n

/-- Where a call awaits: the `init` it started, its own turn after that, or the reply to its
command. -/
inductive RedisProgress where
  | initialising
  | ready
  | sent
  deriving DecidableEq

/-- What the server holds, with the values decoded from their texts, and the calls. -/
structure RedisCacheService where
  initialised : Bool := false
  values : Dict String JsValue := .empty
  hashes : Dict String Hash := .empty
  calls : Invocations CacheCall CacheResult RedisProgress := []
  deriving DecidableEq

namespace RedisCacheService
variable (s : RedisCacheService)

def setStage (i : ℕ) (stage : Stage CacheResult RedisProgress) : RedisCacheService :=
  { s with calls := s.calls.setStage i stage }

def respond (i : ℕ) (result : CacheResult) : RedisCacheService :=
  s.setStage i (.returning result)

def wait (i : ℕ) (progress : RedisProgress) : RedisCacheService :=
  s.setStage i (.working progress)

def del : CacheKey → RedisCacheService
  | .value name => { s with values := s.values.erase name }
  | .hash name => { s with hashes := s.hashes.erase name }

def has : CacheKey → Bool
  | .value name => s.values.has name
  | .hash name => s.hashes.has name

/-- The remaining time of a key: `-2` if there is none, `-1` if it does not expire. -/
def pttl (key : CacheKey) : ℤ := if s.has key then -1 else -2

/-- An empty hash for a key that is missing. -/
def hgetall (key : String) : Hash := (s.hashes.get? key).getD .empty

def hget (key field : String) : Option JsValue :=
  (s.hgetall key).get? field

def hset (key : String) (hash : Hash) : Option RedisCacheService :=
  if hash = .empty then none
  else some { s with hashes := s.hashes.set key ((s.hgetall key).setAll hash.entries) }

/-- The last field takes the key with it. -/
def hdel (key field : String) : RedisCacheService :=
  if (s.hgetall key).erase field = .empty then { s with hashes := s.hashes.erase key }
  else { s with hashes := s.hashes.set key ((s.hgetall key).erase field) }

/-- A call sends its command, after `init`. -/
def start (i : ℕ) (call : CacheCall) : RedisCacheService :=
  if call.ignored then s.respond i call.ignoredResult else s.wait i .sent

def begin (call : CacheCall) : RedisCacheService :=
  let i := s.calls.length
  let s := { s with calls := s.calls.begin call .initialising }
  if s.initialised then s.start i call
  else if call.awaitsInit then s
  else s.respond i (.held false)

def execute (i : ℕ) : CacheCall → RedisCacheService
  | .set key value => { s with values := s.values.set key value }.respond i .done
  | .setHash key hash => match s.hset key hash with
    | some s => s.respond i .done
    | none => s.respond i .threw
  | .deleteFromHash cacheKey hashKey => (s.hdel cacheKey hashKey).respond i .done
  | .delete key => (s.del key).respond i .done
  | .get key => s.respond i (.value (s.values.get? key))
  | .getHash key => s.respond i (.hash (some (s.hgetall key)))
  | .getHashValue cacheKey hashKey => s.respond i (.value (s.hget cacheKey hashKey))
  | .«exists» key => s.respond i (.held (s.pttl key ≠ 0))

def resume (i : ℕ) (call : CacheCall) : RedisProgress → RedisCacheService
  | .initialising => { s with initialised := true }.wait i .ready
  | .ready => s.start i call
  | .sent => s.execute i call

def step : CacheInput → Except Unit RedisCacheService
  | .call call => .ok (s.begin call)
  | .proceed i => match s.calls[i]? with
    | none => .error ()
    | some c => match c.stage with
      | .working progress => .ok (s.resume i c.call progress)
      | .returning result => .ok (s.setStage i (.ended result))
      | .ended _ => .error ()
  | .evict key => .ok (s.del key)

/-- No hash without fields is set; `exists` and `getHash` come to a key that holds
something. -/
def ExecutesWell : CacheCall → Prop
  | .setHash _ hash => hash ≠ .empty
  | .getHash key => s.has (.hash key) = true
  | .«exists» key => s.has key = true
  | _ => True

instance (s : RedisCacheService) (call : CacheCall) : Decidable (s.ExecutesWell call) := by
  unfold ExecutesWell
  split <;> infer_instance

def Undisturbed : CacheInput → Prop
  | .call _ => True
  | .proceed i => ∀ c ∈ s.calls[i]?, c.stage = .working .sent → s.ExecutesWell c.call
  | .evict key => s.has key = false

instance (s : RedisCacheService) (input : CacheInput) : Decidable (s.Undisturbed input) := by
  cases input with
  | call call => exact inferInstanceAs (Decidable True)
  | proceed i => exact inferInstanceAs (Decidable (∀ c ∈ s.calls[i]?, _ → _))
  | evict key => exact inferInstanceAs (Decidable (_ = _))

section Invariant

variable {s t : RedisCacheService} {m m' : CacheMap} {order : List ℕ} {i : ℕ}
  {c : Invocation CacheCall CacheResult RedisProgress} {r : CacheResult}

structure Agrees (s : RedisCacheService) (m : CacheMap) : Prop where
  values : m.values = s.values
  fields : ∀ key, m.fieldsOf key = s.hgetall key
  nonempty : ∀ key, ∀ hash ∈ s.hashes.get? key, hash ≠ .empty
  uninitialised : s.initialised = false → s.values = .empty ∧ s.hashes = .empty

def Pending (s : RedisCacheService) (call : CacheCall) : RedisProgress → Prop
  | .initialising => True
  | .ready => s.initialised = true
  | .sent => s.initialised = true ∧ call.ignored = false

structure Inv (s : RedisCacheService) (order : List ℕ) (m : CacheMap) : Prop where
  history : History CacheMap.apply {} s.calls order m
  agrees : s.Agrees m
  pending : ∀ (i : ℕ) (c : Invocation CacheCall CacheResult RedisProgress) (p : RedisProgress),
    s.calls[i]? = some c → c.stage = .working p → s.Pending c.call p

theorem Inv.initial : ({} : RedisCacheService).Inv [] {} where
  history := History.init
  agrees := ⟨rfl, fun _ => rfl, fun _ _ h => (by cases h), fun _ => ⟨rfl, rfl⟩⟩
  pending := fun i c p h => by cases h

theorem Pending.transfer {call : CacheCall} {p : RedisProgress} (h : s.Pending call p)
    (hinit : s.initialised = true → t.initialised = true) : t.Pending call p := by
  cases p with
  | initialising => trivial
  | ready => exact hinit h
  | sent => exact ⟨hinit h.1, h.2⟩

theorem Inv.setStage {stage : Stage CacheResult RedisProgress} {order' : List ℕ}
    (h : s.Inv order m) (hc : s.calls[i]? = some c) (hcalls : t.calls = s.calls)
    (hinit : s.initialised = true → t.initialised = true)
    (hhistory : History CacheMap.apply {} (s.calls.setStage i stage) order' m')
    (hagrees : t.Agrees m') (hpending : ∀ p, stage = .working p → t.Pending c.call p) :
    (t.setStage i stage).Inv order' m' where
  history := by
    rw [RedisCacheService.setStage, hcalls]
    exact hhistory
  agrees := ⟨hagrees.values, hagrees.fields, hagrees.nonempty, hagrees.uninitialised⟩
  pending := by
    intro j d p hd hstage
    rw [RedisCacheService.setStage, hcalls] at hd
    by_cases hj : j = i
    · subst hj
      rw [Invocations.getElem?_setStage_self hc, Option.some.injEq] at hd
      subst hd
      exact (hpending p hstage).transfer id
    · rw [Invocations.getElem?_setStage_of_ne hj] at hd
      exact (h.pending j d p hd hstage).transfer hinit

section

variable (h : s.Inv order m) (hc : s.calls[i]? = some c) (hnone : c.stage.result = none)
include h hc hnone

/-- **A command takes effect when the server executes it.** -/
theorem Inv.commit (hcalls : t.calls = s.calls)
    (hinit : t.initialised = s.initialised) (happly : m.apply c.call = (m', r))
    (hagrees : t.Agrees m') : (t.respond i r).Inv (order ++ [i]) m' := by
  have hcommit := h.history.commit hc hnone (r := r) (by rw [happly])
  rw [happly] at hcommit
  exact h.setStage hc hcalls (fun hs => hinit.trans hs) hcommit hagrees fun p hp => by cases hp

theorem Inv.respond (happly : m.apply c.call = (m, r)) :
    (s.respond i r).Inv (order ++ [i]) m :=
  h.commit hc hnone rfl rfl happly h.agrees

theorem Inv.start
    (hinit : s.initialised = true) : ∃ order m, (s.start i c.call).Inv order m := by
  rw [RedisCacheService.start]
  split
  · rename_i hignored
    exact ⟨_, _, h.respond hc hnone (CacheMap.apply_of_ignored hignored)⟩
  · rename_i hignored
    refine ⟨_, _, h.setStage hc rfl id (h.history.progress hc hnone) h.agrees fun p hp => ?_⟩
    cases hp
    exact ⟨hinit, Bool.not_eq_true _ ▸ hignored⟩

end

theorem Agrees.setHashes {hashes : Dict String Hash} (h : s.Agrees m) (key : String) (hash : Hash)
    (hinit : s.initialised = true)
    (hkey : (hashes.get? key).getD .empty = hash) (hempty : hashes.get? key ≠ some .empty)
    (hother : ∀ k ≠ key, hashes.get? k = s.hashes.get? k)
    (hvalues : m'.values = m.values)
    (hfields : ∀ k, m'.fieldsOf k = if k = key then hash else m.fieldsOf k) :
    ({ s with hashes } : RedisCacheService).Agrees m' := by
  refine ⟨hvalues.trans h.values, fun k => ?_, fun k e he => ?_, fun hs => ?_⟩
  · rw [hfields, hgetall]
    split
    · rename_i hk
      rw [hk, hkey]
    · rename_i hk
      rw [hother k hk]
      exact h.fields k
  · by_cases hk : k = key
    · rintro rfl
      exact hempty (hk ▸ he)
    · exact h.nonempty k e (hother k hk ▸ he)
  · rw [show s.initialised = false from hs] at hinit
    cases hinit

theorem Agrees.del (h : s.Agrees m) (hinit : s.initialised = true) (key : CacheKey) :
    (s.del key).Agrees (m.erase key) := by
  cases key with
  | value name =>
    refine ⟨congrArg (Dict.erase · name) h.values, h.fields, h.nonempty, fun hs => ?_⟩
    rw [show s.initialised = false from hs] at hinit
    cases hinit
  | hash name =>
    refine h.setHashes name .empty hinit ?_ ?_
      (fun k hk => Dict.get?_erase_of_ne _ hk) rfl fun k => CacheMap.fieldsOf_erase
    · rw [Dict.get?_erase_self]
      rfl
    · rw [Dict.get?_erase_self]
      exact fun heq => by cases heq

theorem setAll_ne_empty {fields hash : Hash} (h : hash ≠ .empty) :
    fields.setAll hash.entries ≠ .empty := by
  intro hempty
  obtain ⟨e, he⟩ : ∃ e, e ∈ hash.entries := by
    refine List.exists_mem_of_ne_nil _ fun hnil => h ?_
    exact Dict.ext_entries hnil
  have hget : (fields.setAll hash.entries).get? e.1 = some e.2 := by
    refine Dict.get?_setAll_of_agree (fun e' he' hkey => ?_) (Or.inr he)
    have hget' : hash.get? e'.1 = some e'.2 := Dict.mem_entries_iff.mp he'
    rw [hkey, Dict.mem_entries_iff.mp he] at hget'
    exact (Option.some.inj hget').symm
  rw [hempty, Dict.get?_empty] at hget
  cases hget

theorem Inv.execute (h : s.Inv order m) (hc : s.calls[i]? = some c)
    (hstage : c.stage = .working .sent) (hwell : s.ExecutesWell c.call) :
    ∃ order m, (s.execute i c.call).Inv order m := by
  have hnone : c.stage.result = none := by
    rw [hstage]
    rfl
  obtain ⟨hinit, hignored⟩ := h.pending i c _ hc hstage
  have happly := CacheMap.apply_of_not_ignored (m := m) hignored
  -- what a key holds, the server holds
  have hholds : ∀ key, m.holds key = s.has key := by
    intro key
    cases key with
    | value name => rw [CacheMap.holds, has, h.agrees.values]
    | hash name =>
      rw [CacheMap.holds, h.agrees.fields, has, Dict.has, hgetall]
      rcases hget : s.hashes.get? name with _ | hash
      · rfl
      · exact decide_eq_true (h.agrees.nonempty name hash hget)
  rcases hcall : c.call with ⟨key, value⟩ | ⟨key, hash⟩ | ⟨cacheKey, hashKey⟩ | key | key | key |
    ⟨cacheKey, hashKey⟩ | key
  all_goals
    rw [hcall] at happly hwell
    rw [RedisCacheService.execute]
  · refine ⟨_, { m with values := m.values.set key value }, h.commit hc hnone
      (t := { s with values := s.values.set key value }) rfl rfl (by rw [hcall]; exact happly)
      ⟨congrArg (Dict.set · key value) h.agrees.values, h.agrees.fields, h.agrees.nonempty, ?_⟩⟩
    intro hs
    rw [show s.initialised = false from hs] at hinit
    cases hinit
  · rw [hset, if_neg hwell]
    refine ⟨_, m.setFields key ((m.fieldsOf key).setAll hash.entries), h.commit hc hnone rfl rfl
      (by rw [hcall]; exact happly) ?_⟩
    refine h.agrees.setHashes key ((m.fieldsOf key).setAll hash.entries) hinit
      ?_ ?_ (fun k hk => Dict.get?_set_of_ne _ hk _) rfl fun k => CacheMap.fieldsOf_setFields
    · rw [Dict.get?_set_self, h.agrees.fields]
      rfl
    · rw [Dict.get?_set_self]
      exact fun heq => setAll_ne_empty hwell (Option.some.inj heq)
  · have hfields := h.agrees.fields cacheKey
    rw [hdel, ← hfields]
    by_cases hmissing : m.fieldsOf cacheKey = .empty
    · -- there was nothing to delete
      have herase : (m.fieldsOf cacheKey).erase hashKey = .empty := by
        rw [hmissing]
        rfl
      rw [if_pos herase]
      refine ⟨_, m, h.commit hc hnone rfl rfl ?_ ?_⟩
      · rw [hcall, happly, CacheMap.effect, if_pos hmissing]
      · refine h.agrees.setHashes cacheKey .empty hinit ?_ ?_
          (fun k hk => Dict.get?_erase_of_ne _ hk) rfl fun k => ?_
        · rw [Dict.get?_erase_self]
          rfl
        · rw [Dict.get?_erase_self]
          exact fun heq => by cases heq
        · split
          · rename_i hk
            rw [hk, hmissing]
          · rfl
    · have hresult : m.apply c.call
          = (m.setFields cacheKey ((m.fieldsOf cacheKey).erase hashKey), .done) := by
        rw [hcall, happly, CacheMap.effect, if_neg hmissing]
      split
      · rename_i herase
        refine ⟨_, _, h.commit hc hnone rfl rfl hresult (h.agrees.setHashes cacheKey
          ((m.fieldsOf cacheKey).erase hashKey) hinit ?_ ?_
          (fun k hk => Dict.get?_erase_of_ne _ hk) rfl fun k => CacheMap.fieldsOf_setFields)⟩
        · rw [Dict.get?_erase_self, herase]
          rfl
        · rw [Dict.get?_erase_self]
          exact fun heq => by cases heq
      · rename_i herase
        refine ⟨_, _, h.commit hc hnone rfl rfl hresult (h.agrees.setHashes cacheKey
          ((m.fieldsOf cacheKey).erase hashKey) hinit ?_ ?_
          (fun k hk => Dict.get?_set_of_ne _ hk _) rfl fun k => CacheMap.fieldsOf_setFields)⟩
        · rw [Dict.get?_set_self]
          rfl
        · rw [Dict.get?_set_self]
          exact fun heq => herase (Option.some.inj heq)
  · refine ⟨_, m.erase key, h.commit hc hnone ?_ ?_ (by rw [hcall]; exact happly)
      (h.agrees.del hinit key)⟩
    · cases key <;> rfl
    · cases key <;> rfl
  · refine ⟨_, _, h.respond hc hnone ?_⟩
    rw [hcall, happly, CacheMap.effect, h.agrees.values]
  · refine ⟨_, _, h.respond hc hnone ?_⟩
    have hheld : m.fieldsOf key ≠ .empty := of_decide_eq_true ((hholds (.hash key)).trans hwell)
    rw [hcall, happly, CacheMap.effect, if_neg hheld, h.agrees.fields]
  · refine ⟨_, _, h.respond hc hnone ?_⟩
    rw [hcall, happly, CacheMap.effect, h.agrees.fields]
    rfl
  · refine ⟨_, _, h.respond hc hnone ?_⟩
    rw [hcall, happly, CacheMap.effect, hholds, show s.has key = true from hwell, pttl,
      show s.has key = true from hwell]
    rfl

theorem Inv.begin (h : s.Inv order m) (call : CacheCall) :
    ({ s with calls := s.calls.begin call .initialising } : RedisCacheService).Inv order m where
  history := h.history.begin
  agrees := ⟨h.agrees.values, h.agrees.fields, h.agrees.nonempty, h.agrees.uninitialised⟩
  pending := by
    intro j d p hd hstage
    rcases Invocations.getElem?_begin hd with hold | ⟨-, rfl⟩
    · exact (h.pending j d p hold hstage).transfer id
    · cases hstage
      trivial

theorem Inv.call (h : s.Inv order m) (call : CacheCall) :
    ∃ order m, (s.begin call).Inv order m := by
  have hbegin := h.begin call
  have hc := Invocations.getElem?_begin_length s.calls call RedisProgress.initialising
  rw [RedisCacheService.begin]
  simp only
  split
  · rename_i hinit
    exact hbegin.start hc rfl hinit
  · rename_i hinit
    rw [Bool.not_eq_true] at hinit
    obtain ⟨hvalues, hhashes⟩ := h.agrees.uninitialised hinit
    cases call with
    | «exists» key =>
      rw [CacheCall.awaitsInit, if_neg Bool.false_ne_true]
      refine ⟨_, _, hbegin.respond hc rfl ?_⟩
      rw [CacheMap.apply_of_not_ignored rfl, CacheMap.effect]
      cases key with
      | value name =>
        rw [CacheMap.holds, h.agrees.values, hvalues]
        rfl
      | hash name =>
        rw [CacheMap.holds, h.agrees.fields, hgetall, hhashes]
        rfl
    | _ => exact ⟨_, _, hbegin⟩

/-- Step lemma: every undisturbed turn keeps the invariant. -/
theorem Inv.step {input : CacheInput} {s' : RedisCacheService} (h : s.Inv order m)
    (hwell : s.Undisturbed input) (hstep : s.step input = .ok s') :
    ∃ order m, s'.Inv order m := by
  cases input with
  | call call =>
    cases hstep
    exact h.call call
  | proceed i =>
    rw [RedisCacheService.step] at hstep
    rcases hc : s.calls[i]? with _ | c
    · rw [hc] at hstep
      cases hstep
    · have hturn := hwell c hc
      rw [hc] at hstep
      simp only at hstep
      rcases hstage : c.stage with p | r | r
      all_goals
        rw [hstage] at hstep
        cases hstep
      · have hnone : c.stage.result = none := by
          rw [hstage]
          rfl
        cases p with
        | initialising =>
          have hinit : ({ s with initialised := true } : RedisCacheService).Agrees m :=
            ⟨h.agrees.values, h.agrees.fields, h.agrees.nonempty, fun hs => (by cases hs)⟩
          refine ⟨_, _, h.setStage hc rfl (fun _ => rfl) (h.history.progress hc hnone) hinit
            fun p hp => ?_⟩
          cases hp
          rfl
        | ready => exact h.start hc hnone (h.pending i c _ hc hstage)
        | sent => exact h.execute hc hstage (hturn hstage)
      · exact ⟨order, m, h.setStage hc rfl id (h.history.finish hc hstage) h.agrees
          fun p hp => by cases hp⟩
  | evict key =>
    cases hstep
    have hdel : s.del key = s := by
      have hnot : s.has key = false := hwell
      cases key with
      | value name => rw [del, Dict.erase_of_not_mem (Dict.not_mem_keys_of_has hnot)]
      | hash name => rw [del, Dict.erase_of_not_mem (Dict.not_mem_keys_of_has hnot)]
    rw [hdel]
    exact ⟨order, m, h⟩

end Invariant

/-- **Over Redis the results are those of the map in some order**, along every run whose
commands come to keys that hold something where it matters. -/
theorem linearizable {inputs : List CacheInput}
    (h : Along step (fun s input _ => s.Undisturbed input) {} inputs) :
    Along step (fun _ _ s' => Linearizable CacheMap.apply {} s'.calls) {} inputs := by
  refine Along.of_step (I := fun s => ∃ order m, s.Inv order m) ?_ ⟨[], {}, Inv.initial⟩ h
  rintro s input s' ⟨order, m, hs⟩ hstep hwell
  obtain ⟨order', m', hs'⟩ := hs.step hwell hstep
  exact ⟨⟨order', hs'.history.linearizes⟩, order', m', hs'⟩

end RedisCacheService

end N8n
