/-
The cache service over the store in memory.

A hash is an object of the store that `get` hands out by reference: an update reads the
object, changes it some turns later and stores a clone, so that a call that reads the hash
may see a change made after it began.  The first calls make the store, each its own.

* **`MemoryCacheService.linearizable`** — the results are those of the map in some order.
-/
import N8n.CacheMap
import N8n.DirectedGraph
import N8n.Linearization

namespace N8n

/-- The names that an array has besides those of every object and its indexes. -/
def arrayNames : List String :=
  ["at", "concat", "copyWithin", "entries", "every", "fill", "filter", "find", "findIndex",
    "findLast", "findLastIndex", "flat", "flatMap", "forEach", "includes", "indexOf", "join",
    "keys", "lastIndexOf", "length", "map", "pop", "push", "reduce", "reduceRight", "reverse",
    "shift", "slice", "some", "sort", "splice", "toReversed", "toSorted", "toSpliced",
    "unshift", "values", "with"]

def JsValue.hasOwn : JsValue → String → Bool
  | object fields, name => fields.any fun f => f.1 = name
  | array items, name => name = "length" || (List.range items.length).any fun i => toString i = name
  | _, _ => false

/-- A property that an object gets when the value is its prototype, apart from those of
every object. -/
def JsValue.hands : JsValue → String → Bool
  | array items, name => (array items).hasOwn name || name ∈ arrayNames
  | value, name => value.hasOwn name

/-- An object of the store, with the key under which it was stored and the prototype that
an assignment to `__proto__` gave it. -/
structure HashObject where
  key : String
  own : Hash := .empty
  proto : Option JsValue := none
  deriving DecidableEq

namespace HashObject

/-- `o[field] = value`: `__proto__` is a setter, unless an own property hides it. -/
def assign (o : HashObject) (field : String) (value : JsValue) : HashObject :=
  if field = "__proto__" ∧ o.own.has field = false ∧ o.proto.any (·.hasOwn field) = false then
    match value with
    | .object fields => { o with proto := some (.object fields) }
    | .array items => { o with proto := some (.array items) }
    | _ => o
  else { o with own := o.own.set field value }

variable {o : HashObject}

theorem assign_of_ne {field : String} {value : JsValue}
    (h : field ≠ "__proto__") : o.assign field value = { o with own := o.own.set field value } := by
  unfold assign
  rw [if_neg fun hproto => h hproto.1]

def assignAll (o : HashObject) (hash : Hash) : HashObject :=
  hash.entries.foldl (fun o e => o.assign e.1 e.2) o

def lookup (o : HashObject) (name : String) : CacheResult :=
  match o.own.get? name with
  | some value => .value (some value)
  | none =>
    if name ∈ DirectedGraph.inheritedNames ∨ o.proto.any (·.hands name) = true then
      .inherited name
    else .value none

theorem lookup_of_plain {name : String} (h : o.proto = none)
    (hname : o.own.has name = true ∨ name ∉ DirectedGraph.inheritedNames) :
    o.lookup name = .value (o.own.get? name) := by
  rw [lookup]
  rcases hget : o.own.get? name with _ | value
  · rw [Dict.has, hget] at hname
    have hnot := hname.resolve_left Bool.false_ne_true
    simp only
    rw [h, Option.any_none, if_neg (not_or.mpr ⟨hnot, Bool.false_ne_true⟩)]
  · rfl

/-- `cloneDeep` keeps the prototype of an object whose constructor is a function. -/
def clone (o : HashObject) : HashObject :=
  if o.own.has "constructor" ∨ o.proto.any (·.hasOwn "constructor") = true then
    { o with proto := none }
  else o

theorem clone_of_plain (h : o.proto = none) : o.clone = o := by
  rw [clone]
  split
  · cases o
    simp only at h
    rw [h]
  · rfl

theorem assignAll_of_plain {hash : Hash} (h : "__proto__" ∉ hash.keys) :
    o.assignAll hash = { o with own := o.own.setAll hash.entries } := by
  have key : ∀ (entries : List (String × JsValue)) (o : HashObject),
      (∀ e ∈ entries, e.1 ≠ "__proto__") →
        entries.foldl (fun o e => o.assign e.1 e.2) o = { o with own := o.own.setAll entries } := by
    intro entries
    induction entries with
    | nil => exact fun _ _ => rfl
    | cons e entries ih =>
      intro o hentries
      obtain ⟨he, hrest⟩ := List.forall_mem_cons.mp hentries
      rw [List.foldl_cons, ih _ hrest, assign_of_ne he]
      rfl
  exact key hash.entries o fun e he hproto => h (hproto ▸ List.mem_map_of_mem (f := Prod.fst) he)

end HashObject

/-- Where a call awaits: the `init` it started, its own turn after that, or what it read
from the store. -/
inductive MemoryProgress where
  | initialising
  | ready
  | setHash (key : String) (hash : Hash) (read : Option ℕ)
  | deleteFromHash (cacheKey hashKey : String) (read : Option ℕ)
  | getHash (key : String) (read : Option ℕ)
  | getHashValue (cacheKey hashKey : String) (read : Option ℕ)
  deriving DecidableEq

/-- The store with the objects that were in it, and the calls. -/
structure MemoryCacheService where
  initialised : Bool := false
  values : Dict String JsValue := .empty
  hashes : Dict String ℕ := .empty
  heap : List HashObject := []
  calls : Invocations CacheCall CacheResult MemoryProgress := []
  deriving DecidableEq

namespace MemoryCacheService
variable (s : MemoryCacheService)

def setStage (i : ℕ) (stage : Stage CacheResult MemoryProgress) : MemoryCacheService :=
  { s with calls := s.calls.setStage i stage }

def respond (i : ℕ) (result : CacheResult) : MemoryCacheService :=
  s.setStage i (.returning result)

def wait (i : ℕ) (progress : MemoryProgress) : MemoryCacheService :=
  s.setStage i (.working progress)

def init : MemoryCacheService :=
  { s with initialised := true, values := .empty, hashes := .empty }

def mutate (o : HashObject) : Option ℕ → List HashObject
  | some ref => s.heap.set ref o
  | none => s.heap

def write (key : String) (read : Option ℕ) (o : HashObject) : MemoryCacheService :=
  { s with heap := s.mutate o read ++ [o.clone], hashes := s.hashes.set key s.heap.length }

def drop : CacheKey → MemoryCacheService
  | .value name => { s with values := s.values.erase name }
  | .hash name => { s with hashes := s.hashes.erase name }

theorem calls_drop (key : CacheKey) : (s.drop key).calls = s.calls := by
  cases key <;> rfl

theorem heap_drop (key : CacheKey) : (s.drop key).heap = s.heap := by
  cases key <;> rfl

theorem initialised_drop (key : CacheKey) : (s.drop key).initialised = s.initialised := by
  cases key <;> rfl

def has : CacheKey → Bool
  | .value name => s.values.has name
  | .hash name => s.hashes.has name

def access (i : ℕ) : CacheCall → MemoryCacheService
  | .set key value => { s with values := s.values.set key value }.respond i .done
  | .setHash key hash => s.wait i (.setHash key hash (s.hashes.get? key))
  | .deleteFromHash cacheKey hashKey =>
    s.wait i (.deleteFromHash cacheKey hashKey (s.hashes.get? cacheKey))
  | .delete key => (s.drop key).respond i .done
  | .get key => s.respond i (.value (s.values.get? key))
  | .getHash key =>
    if key = "" then s.respond i (.hash none) else s.wait i (.getHash key (s.hashes.get? key))
  | .getHashValue cacheKey hashKey =>
    s.wait i (.getHashValue cacheKey hashKey (s.hashes.get? cacheKey))
  | .«exists» key => s.respond i (.held (s.has key))

/-- The first turn of a call, up to the first `await` after that of `init`. -/
def start (i : ℕ) (call : CacheCall) : MemoryCacheService :=
  if call.ignored then s.respond i call.ignoredResult else s.access i call

def begin (call : CacheCall) : MemoryCacheService :=
  let i := s.calls.length
  let s := { s with calls := s.calls.begin call .initialising }
  if s.initialised then s.start i call
  else if call.awaitsInit then s
  else s.respond i (.held false)

def readObject (read : Option ℕ) : Option HashObject :=
  read.bind (s.heap[·]?)

def resume (i : ℕ) (call : CacheCall) : MemoryProgress → MemoryCacheService
  | .initialising => s.init.wait i .ready
  | .ready => s.start i call
  | .setHash key hash read =>
    let hashObject := (s.readObject read).getD { key }
    (s.write key read (hashObject.assignAll hash)).respond i .done
  | .deleteFromHash cacheKey hashKey read => match s.readObject read with
    | none => s.respond i .done
    | some hashObject =>
      (s.write cacheKey read { hashObject with own := hashObject.own.erase hashKey }).respond i
        .done
  | .getHash _ read => s.respond i (.hash ((s.readObject read).map (·.own)))
  | .getHashValue _ hashKey read => match s.readObject read with
    | none => s.respond i (.value none)
    | some hashObject => s.respond i (hashObject.lookup hashKey)

def step : CacheInput → Except Unit MemoryCacheService
  | .call call => .ok (s.begin call)
  | .proceed i => match s.calls[i]? with
    | none => .error ()
    | some c => match c.stage with
      | .working progress => .ok (s.resume i c.call progress)
      | .returning result => .ok (s.setStage i (.ended result))
      | .ended _ => .error ()
  | .evict key => .ok (s.drop key)

/-- `exists` finds no hash that was emptied. -/
def StartsWell : CacheCall → Prop
  | .«exists» (.hash name) => ∀ o ∈ s.readObject (s.hashes.get? name), o.own ≠ .empty
  | _ => True

instance (s : MemoryCacheService) (call : CacheCall) : Decidable (s.StartsWell call) := by
  unfold StartsWell
  split <;> infer_instance

/-- A new store replaces an empty one; an update finds what it read still stored, and sets
no `__proto__`; a read finds no hash that was emptied and no inherited property. -/
def ResumesWell (call : CacheCall) : MemoryProgress → Prop
  | .initialising => s.values = .empty ∧ s.hashes = .empty
  | .ready => s.StartsWell call
  | .setHash key hash read => s.hashes.get? key = read ∧ "__proto__" ∉ hash.keys
  | .deleteFromHash cacheKey _ read => read = none ∨ s.hashes.get? cacheKey = read
  | .getHash _ read => ∀ o ∈ s.readObject read, o.own ≠ .empty
  | .getHashValue _ hashKey read => ∀ o ∈ s.readObject read,
    o.own.has hashKey = true ∨ hashKey ∉ DirectedGraph.inheritedNames

instance (s : MemoryCacheService) (call : CacheCall) (progress : MemoryProgress) :
    Decidable (s.ResumesWell call progress) := by
  unfold ResumesWell
  split <;> infer_instance

def Undisturbed : CacheInput → Prop
  | .call call => s.initialised = true → s.StartsWell call
  | .proceed i => ∀ c ∈ s.calls[i]?, match c.stage with
    | .working progress => s.ResumesWell c.call progress
    | _ => True
  | .evict key => s.has key = false

instance (s : MemoryCacheService) : ∀ input, Decidable (s.Undisturbed input)
  | .call call => inferInstanceAs (Decidable (s.initialised = true → s.StartsWell call))
  | .proceed i => by
    rw [Undisturbed]
    have : ∀ c : Invocation CacheCall CacheResult MemoryProgress, Decidable (match c.stage with
        | .working progress => s.ResumesWell c.call progress
        | _ => True) := by
      intro c
      split <;> infer_instance
    infer_instance
  | .evict key => inferInstanceAs (Decidable (s.has key = false))

section Invariant

variable {s t : MemoryCacheService} {m m' : CacheMap} {order order' : List ℕ} {i : ℕ}
  {c : Invocation CacheCall CacheResult MemoryProgress} {key : String} {read : Option ℕ}
  {o : HashObject} {r : CacheResult}

/-- What is read through a reference now. -/
def fieldsAt (s : MemoryCacheService) (read : Option ℕ) : Hash :=
  ((s.readObject read).map (·.own)).getD .empty

structure Agrees (s : MemoryCacheService) (m : CacheMap) : Prop where
  values : m.values = s.values
  fields : ∀ key, m.fieldsOf key = s.fieldsAt (s.hashes.get? key)
  owned : ∀ key, ∀ ref ∈ s.hashes.get? key, ∃ o, s.heap[ref]? = some o ∧ o.key = key
  plain : ∀ o ∈ s.heap, o.proto = none
  emptyKey : m.fieldsOf "" = .empty
  uninitialised : s.initialised = false → s.values = .empty ∧ s.hashes = .empty

/-- A call read the hash under a key, and sees what it was at some place of the order. -/
structure Looked (s : MemoryCacheService) (order : List ℕ) (i : ℕ) (key : String)
    (read : Option ℕ) : Prop where
  object : ∀ ref ∈ read, ∃ o, s.heap[ref]? = some o ∧ o.key = key
  saw : Saw CacheMap.apply {} s.calls order i fun m => m.fieldsOf key = s.fieldsAt read

def Pending (s : MemoryCacheService) (order : List ℕ) (i : ℕ) (call : CacheCall) :
    MemoryProgress → Prop
  | .initialising => True
  | .ready => s.initialised = true
  | .setHash key hash _ =>
    s.initialised = true ∧ call = .setHash key hash ∧ call.ignored = false
  | .deleteFromHash cacheKey hashKey read => s.initialised = true ∧
    call = .deleteFromHash cacheKey hashKey ∧ call.ignored = false ∧ s.Looked order i cacheKey read
  | .getHash key read => call = .getHash key ∧ s.Looked order i key read
  | .getHashValue cacheKey hashKey read =>
    call = .getHashValue cacheKey hashKey ∧ s.Looked order i cacheKey read

structure Inv (s : MemoryCacheService) (order : List ℕ) (m : CacheMap) : Prop where
  history : History CacheMap.apply {} s.calls order m
  agrees : s.Agrees m
  pending : ∀ (i : ℕ) (c : Invocation CacheCall CacheResult MemoryProgress) (p : MemoryProgress),
    s.calls[i]? = some c → c.stage = .working p → s.Pending order i c.call p

variable {stage : Stage CacheResult MemoryProgress}

theorem Agrees.setStage (h : s.Agrees m) :
    (s.setStage i stage).Agrees m :=
  ⟨h.values, h.fields, h.owned, h.plain, h.emptyKey, h.uninitialised⟩

theorem Inv.initial : ({} : MemoryCacheService).Inv [] {} where
  history := History.init
  agrees :=
    { values := rfl
      fields := fun _ => rfl
      owned := fun _ _ h => by cases h
      plain := List.forall_mem_nil _
      emptyKey := rfl
      uninitialised := fun _ => ⟨rfl, rfl⟩ }
  pending := fun i c p h => by cases h

variable {p : MemoryProgress}

theorem Pending.transfer {call : CacheCall} (h : s.Pending order i call p)
    (hinit : s.initialised = true → t.initialised = true)
    (hlooked : ∀ key read, s.Looked order i key read → t.Looked order' i key read) :
    t.Pending order' i call p := by
  cases p with
  | initialising => trivial
  | ready => exact hinit h
  | setHash key hash read => exact ⟨hinit h.1, h.2⟩
  | deleteFromHash cacheKey hashKey read =>
    exact ⟨hinit h.1, h.2.1, h.2.2.1, hlooked _ _ h.2.2.2⟩
  | getHash key read => exact ⟨h.1, hlooked _ _ h.2⟩
  | getHashValue cacheKey hashKey read => exact ⟨h.1, hlooked _ _ h.2⟩

theorem Inv.setStage (h : s.Inv order m)
    (hc : s.calls[i]? = some c) (hcalls : t.calls = s.calls)
    (hinit : s.initialised = true → t.initialised = true)
    (hhistory : History CacheMap.apply {} (s.calls.setStage i stage) order' m')
    (hagrees : t.Agrees m')
    (hlooked : ∀ k key read, s.Looked order k key read →
      (t.setStage i stage).Looked order' k key read)
    (hpending : ∀ p, stage = .working p → (t.setStage i stage).Pending order' i c.call p) :
    (t.setStage i stage).Inv order' m' where
  history := by
    rw [MemoryCacheService.setStage, hcalls]
    exact hhistory
  agrees := hagrees.setStage
  pending := by
    intro j d p hd hstage
    rw [MemoryCacheService.setStage, hcalls] at hd
    by_cases hj : j = i
    · subst hj
      rw [Invocations.getElem?_setStage_self hc, Option.some.injEq] at hd
      subst hd
      exact hpending p hstage
    · rw [Invocations.getElem?_setStage_of_ne hj] at hd
      exact (h.pending j d p hd hstage).transfer hinit (hlooked j)

theorem Inv.commit (h : s.Inv order m) (hc : s.calls[i]? = some c)
    (hnone : c.stage.result = none) (hcalls : t.calls = s.calls) (hheap : t.heap = s.heap)
    (hinit : t.initialised = s.initialised) (happly : m.apply c.call = (m', r))
    (hagrees : t.Agrees m') : (t.respond i r).Inv (order ++ [i]) m' := by
  refine h.setStage hc hcalls (fun hs => hinit.trans hs) ?_ hagrees ?_ fun p hp => by cases hp
  · have hcommit := h.history.commit hc hnone (r := r) (by rw [happly])
    rw [happly] at hcommit
    exact hcommit
  · rintro k key read ⟨hobject, hsaw⟩
    have hread : (t.setStage i (.returning r)).fieldsAt read = s.fieldsAt read := by
      rw [fieldsAt, fieldsAt, readObject, readObject, MemoryCacheService.setStage, hheap]
    refine ⟨?_, ?_⟩
    · rw [MemoryCacheService.setStage, hheap]
      exact hobject
    · rw [hread, MemoryCacheService.setStage, hcalls]
      exact hsaw.setStage.snoc

theorem Inv.respond (h : s.Inv order m) (hc : s.calls[i]? = some c)
    (hnone : c.stage.result = none) (happly : m.apply c.call = (m, r)) :
    (s.respond i r).Inv (order ++ [i]) m :=
  h.commit hc hnone rfl rfl rfl happly h.agrees

theorem Looked.setStage {k : ℕ}
    (h : s.Looked order k key read) : (s.setStage i stage).Looked order k key read :=
  ⟨h.object, h.saw.setStage⟩

theorem Inv.wait (h : s.Inv order m) (hc : s.calls[i]? = some c)
    (hnone : c.stage.result = none) (hpending : (s.wait i p).Pending order i c.call p) :
    (s.wait i p).Inv order m :=
  h.setStage hc rfl id (h.history.progress hc hnone) h.agrees (fun _ _ _ => Looked.setStage)
    fun p' hp => by
      cases hp
      exact hpending

theorem Inv.looked (h : s.Inv order m) : s.Looked order i key (s.hashes.get? key) :=
  ⟨h.agrees.owned key, Saw.now h.history (h.agrees.fields key)⟩

theorem Inv.look (h : s.Inv order m) (hc : s.calls[i]? = some c) (hnone : c.stage.result = none)
    (hlooked : s.Looked order i key read)
    (happly : ∀ m : CacheMap, m.fieldsOf key = s.fieldsAt read → m.apply c.call = (m, r)) :
    ∃ order', (s.respond i r).Inv order' m := by
  obtain ⟨a, b, rfl, hkeep, hhistory⟩ := h.history.read hc hnone (hlooked.saw.mono happly)
  refine ⟨a ++ i :: b, h.setStage hc rfl id hhistory h.agrees ?_ fun p hp => by cases hp⟩
  exact fun k key read hk => ⟨hk.object, (hk.saw.read hc hkeep).setStage⟩

@[simp] theorem length_mutate : (s.mutate o read).length = s.heap.length := by
  cases read with
  | none => rfl
  | some ref => exact List.length_set

variable {o' : HashObject}

theorem readObject_write_of_ne {ref : ℕ} (hne : read ≠ some ref)
    (h : s.heap[ref]? = some o') : (s.write key read o).heap[ref]? = some o' := by
  have hlt : ref < s.heap.length := (List.getElem?_eq_some_iff.mp h).1
  rw [write, List.getElem?_append_left (length_mutate.symm ▸ hlt)]
  cases read with
  | none => exact h
  | some j =>
    rw [mutate, List.getElem?_set_ne fun hj => hne (congrArg some hj)]
    exact h

theorem readObject_write_self {ref : ℕ} (h : s.heap[ref]? = some o') :
    (s.write key (some ref) o).heap[ref]? = some o := by
  have hlt : ref < s.heap.length := (List.getElem?_eq_some_iff.mp h).1
  rw [write, List.getElem?_append_left (length_mutate.symm ▸ hlt), mutate,
    List.getElem?_set_self hlt]

variable (s key read) in
theorem exists_get?_write (ho : o.proto = none) :
    ∃ ref, (s.write key read o).hashes.get? key = some ref ∧
      (s.write key read o).heap[ref]? = some o := by
  refine ⟨_, Dict.get?_set_self _ _ _, ?_⟩
  rw [write, List.getElem?_append_right (length_mutate.le), length_mutate, Nat.sub_self,
    HashObject.clone_of_plain ho]
  rfl

theorem Agrees.write (h : s.Agrees m) (hread : s.hashes.get? key = read) (hokey : o.key = key)
    (hplain : o.proto = none) (hkey : key ≠ "") (hinit : s.initialised = true)
    (hvalues : m'.values = m.values)
    (hfields : ∀ k, m'.fieldsOf k = if k = key then o.own else m.fieldsOf k) :
    (s.write key read o).Agrees m' := by
  have hother : ∀ k ≠ key, ∀ ref ∈ s.hashes.get? k, ∀ o', s.heap[ref]? = some o' →
      (s.write key read o).heap[ref]? = some o' := by
    intro k hk ref href o' ho'
    refine readObject_write_of_ne ?_ ho'
    rintro rfl
    -- an object belongs to one key
    obtain ⟨d, hd, hdk⟩ := h.owned k ref href
    obtain ⟨e, he, hekey⟩ := h.owned key ref hread
    rw [hd, Option.some.injEq] at he
    exact hk (by rw [← hdk, he, hekey])
  have hget : ∀ k ≠ key, (s.write key read o).hashes.get? k = s.hashes.get? k :=
    fun k hk => Dict.get?_set_of_ne _ hk _
  obtain ⟨ref, href, hheap⟩ := exists_get?_write s key read hplain
  refine ⟨hvalues.trans h.values, ?_, ?_, ?_, ?_, fun hs => ?_⟩
  · intro k
    rw [hfields]
    by_cases hk : k = key
    · rw [if_pos hk, hk, href, fieldsAt, readObject, Option.bind_some, hheap]
      rfl
    · rw [if_neg hk, h.fields, hget k hk, fieldsAt, fieldsAt, readObject, readObject]
      rcases hs : s.hashes.get? k with _ | j
      · rfl
      · obtain ⟨d, hd, -⟩ := h.owned k j hs
        rw [Option.bind_some, Option.bind_some, hother k hk j hs d hd, hd]
  · intro k j hj
    by_cases hk : k = key
    · subst hk
      rw [href, Option.mem_some_iff] at hj
      exact ⟨o, hj ▸ hheap, hokey⟩
    · rw [hget k hk] at hj
      obtain ⟨d, hd, hdk⟩ := h.owned k j hj
      exact ⟨d, hother k hk j hj d hd, hdk⟩
  · intro d hd
    rw [MemoryCacheService.write, HashObject.clone_of_plain hplain] at hd
    rcases List.mem_append.mp hd with hd | hd
    · cases read with
      | none => exact h.plain d hd
      | some j =>
        rcases List.mem_or_eq_of_mem_set hd with hd | rfl
        · exact h.plain d hd
        · exact hplain
    · rw [List.mem_singleton.mp hd]
      exact hplain
  · rw [hfields, if_neg (Ne.symm hkey)]
    exact h.emptyKey
  · rw [show s.initialised = false from hs] at hinit
    cases hinit

/-- **An update that finds what it read takes effect when it stores.** -/
theorem Inv.write (h : s.Inv order m) (hc : s.calls[i]? = some c) (hnone : c.stage.result = none)
    (hread : s.hashes.get? key = read) (hokey : o.key = key) (hplain : o.proto = none)
    (hkey : key ≠ "") (hinit : s.initialised = true) (happly : m.apply c.call = (m', .done))
    (hvalues : m'.values = m.values)
    (hfields : ∀ k, m'.fieldsOf k = if k = key then o.own else m.fieldsOf k) :
    ((s.write key read o).respond i .done).Inv (order ++ [i]) m' := by
  have hcommit := h.history.commit hc hnone (r := CacheResult.done) (by rw [happly])
  rw [happly] at hcommit
  refine h.setStage hc rfl id hcommit
    (h.agrees.write hread hokey hplain hkey hinit hvalues hfields) ?_ fun p hp => by cases hp
  rintro k key' read' ⟨hobject, hsaw⟩
  by_cases hsame : read' ≠ none ∧ read = read'
  · -- what the call has read is the object that was changed: it sees the state now
    obtain ⟨hsome, rfl⟩ := hsame
    obtain ⟨ref, rfl⟩ := Option.ne_none_iff_exists'.mp hsome
    obtain ⟨d, hd, hdkey⟩ := hobject ref rfl
    obtain ⟨e, he, hekey⟩ := h.agrees.owned key ref hread
    rw [hd, Option.some.injEq] at he
    have hkey' : key' = key := by rw [← hdkey, he, hekey]
    subst hkey'
    have hself : (s.write key' (some ref) o).heap[ref]? = some o := readObject_write_self hd
    refine ⟨?_, Saw.now hcommit ?_⟩
    · intro j hj
      rw [Option.mem_some_iff] at hj
      exact ⟨o, hj ▸ hself, hokey⟩
    · rw [hfields, if_pos rfl, fieldsAt, readObject, Option.bind_some]
      exact (congrArg (fun d => (d.map HashObject.own).getD .empty) hself).symm
  · have hkeep : ∀ ref ∈ read', ∀ o', s.heap[ref]? = some o' →
        (s.write key read o).heap[ref]? = some o' := by
      intro ref href o' ho'
      refine readObject_write_of_ne (fun hr => hsame ⟨?_, ?_⟩) ho'
      · rw [href]
        exact Option.some_ne_none ref
      · rw [hr, href]
    refine ⟨?_, ?_⟩
    · intro ref href
      obtain ⟨d, hd, hdkey⟩ := hobject ref href
      exact ⟨d, hkeep ref href d hd, hdkey⟩
    · have hfields : ((s.write key read o).setStage i (.returning .done)).fieldsAt read'
          = s.fieldsAt read' := by
        cases read' with
        | none => rfl
        | some ref =>
          obtain ⟨d, hd, -⟩ := hobject ref rfl
          rw [fieldsAt, fieldsAt, readObject, readObject, Option.bind_some, Option.bind_some, hd]
          exact congrArg (fun d => (d.map HashObject.own).getD .empty) (hkeep ref rfl d hd)
      rw [hfields]
      exact hsaw.setStage.snoc

theorem fieldsAt_get?_of_readObject (h : s.readObject read = some o) : s.fieldsAt read = o.own := by
  rw [fieldsAt, h]
  rfl

theorem Agrees.holds (h : s.Agrees m) {key : CacheKey} (hwell : s.StartsWell (.«exists» key)) :
    m.holds key = s.has key := by
  cases key with
  | value name => rw [CacheMap.holds, has, h.values]
  | hash name =>
    rw [CacheMap.holds, h.fields, has, Dict.has]
    rcases hread : s.hashes.get? name with _ | ref
    · rfl
    · obtain ⟨o, ho, -⟩ := h.owned name ref hread
      have hobject : s.readObject (some ref) = some o := ho
      rw [fieldsAt_get?_of_readObject hobject]
      exact decide_eq_true (hwell o (by rw [hread]; exact hobject))

theorem Agrees.drop (h : s.Agrees m) (key : CacheKey) : (s.drop key).Agrees (m.erase key) := by
  cases key with
  | value name =>
    refine ⟨congrArg (Dict.erase · name) h.values, h.fields, h.owned, h.plain, h.emptyKey,
      fun hs => ?_⟩
    obtain ⟨hvalues, hhashes⟩ := h.uninitialised hs
    exact ⟨congrArg (Dict.erase · name) hvalues, hhashes⟩
  | hash name =>
    refine ⟨h.values, fun k => ?_, fun k ref href => ?_, h.plain, ?_, fun hs => ?_⟩
    · rw [CacheMap.fieldsOf_erase, MemoryCacheService.drop]
      simp only [Dict.get?_erase]
      split
      · rfl
      · exact h.fields k
    · exact h.owned k ref (Dict.get?_of_get?_erase href)
    · rw [CacheMap.fieldsOf_erase]
      split
      · rfl
      · exact h.emptyKey
    · obtain ⟨hvalues, hhashes⟩ := h.uninitialised hs
      exact ⟨hvalues, congrArg (Dict.erase · name) hhashes⟩

theorem Inv.start (h : s.Inv order m) (hc : s.calls[i]? = some c) (hnone : c.stage.result = none)
    (hinit : s.initialised = true) (hwell : s.StartsWell c.call) :
    ∃ order m, (s.start i c.call).Inv order m := by
  rw [MemoryCacheService.start]
  split
  · rename_i hignored
    exact ⟨_, _, h.respond hc hnone (CacheMap.apply_of_ignored hignored)⟩
  rename_i hignored
  rw [Bool.not_eq_true] at hignored
  have happly := CacheMap.apply_of_not_ignored (m := m) hignored
  rcases hcall : c.call with ⟨key, value⟩ | ⟨key, hash⟩ | ⟨cacheKey, hashKey⟩ | key | key | key |
    ⟨cacheKey, hashKey⟩ | key
  all_goals
    rw [hcall] at happly hwell hignored
    rw [access]
  · refine ⟨_, { m with values := m.values.set key value }, h.commit hc hnone
      (t := { s with values := s.values.set key value }) rfl rfl rfl
      (by rw [hcall]; exact happly) ⟨?_, h.agrees.fields, h.agrees.owned, h.agrees.plain, h.agrees.emptyKey, ?_⟩⟩
    · exact congrArg (Dict.set · key value) h.agrees.values
    · intro hs
      rw [show s.initialised = false from hs] at hinit
      cases hinit
  · exact ⟨_, _, h.wait hc hnone ⟨hinit, hcall, hcall ▸ hignored⟩⟩
  · exact ⟨_, _, h.wait hc hnone ⟨hinit, hcall, hcall ▸ hignored, h.looked.setStage⟩⟩
  · exact ⟨_, m.erase key, h.commit hc hnone (calls_drop s key) (heap_drop s key) (initialised_drop s key)
      (by rw [hcall]; exact happly) (h.agrees.drop key)⟩
  · refine ⟨_, _, h.respond hc hnone ?_⟩
    rw [hcall, happly, CacheMap.effect, h.agrees.values]
  · split
    · rename_i hkey
      refine ⟨_, _, h.respond hc hnone ?_⟩
      rw [hcall, happly, CacheMap.effect, hkey, h.agrees.emptyKey, if_pos rfl]
    · exact ⟨_, _, h.wait hc hnone ⟨hcall, h.looked.setStage⟩⟩
  · exact ⟨_, _, h.wait hc hnone ⟨hcall, h.looked.setStage⟩⟩
  · refine ⟨_, _, h.respond hc hnone ?_⟩
    rw [hcall, happly, CacheMap.effect, h.agrees.holds hwell]

theorem Inv.begin (h : s.Inv order m) (call : CacheCall) :
    ({ s with calls := s.calls.begin call .initialising } : MemoryCacheService).Inv order m where
  history := h.history.begin
  agrees := ⟨h.agrees.values, h.agrees.fields, h.agrees.owned, h.agrees.plain, h.agrees.emptyKey,
    h.agrees.uninitialised⟩
  pending := by
    intro j d p hd hstage
    rcases Invocations.getElem?_begin hd with hold | ⟨-, rfl⟩
    · have hlt : j < s.calls.length := (List.getElem?_eq_some_iff.mp hold).1
      exact (h.pending j d p hold hstage).transfer id fun key read hl =>
        ⟨hl.object, hl.saw.begin h.history hlt⟩
    · cases hstage
      trivial

theorem Inv.call (h : s.Inv order m) {call : CacheCall}
    (hwell : s.initialised = true → s.StartsWell call) :
    ∃ order m, (s.begin call).Inv order m := by
  have hbegin := h.begin call
  have hc := Invocations.getElem?_begin_length s.calls call MemoryProgress.initialising
  rw [MemoryCacheService.begin]
  simp only
  split
  · rename_i hinit
    exact hbegin.start hc rfl hinit (hwell hinit)
  · rename_i hinit
    rw [Bool.not_eq_true] at hinit
    obtain ⟨hvalues, hhashes⟩ := h.agrees.uninitialised hinit
    cases call with
    | «exists» key =>
      rw [CacheCall.awaitsInit, if_neg Bool.false_ne_true]
      have hwell' : s.StartsWell (.«exists» key) := by
        cases key with
        | value name => trivial
        | hash name =>
          intro o ho
          rw [hhashes] at ho
          cases ho
      refine ⟨_, _, hbegin.respond hc rfl ?_⟩
      rw [CacheMap.apply_of_not_ignored rfl, CacheMap.effect, h.agrees.holds hwell']
      cases key with
      | value name => rw [has, hvalues]; rfl
      | hash name => rw [has, hhashes]; rfl
    | _ => exact ⟨_, _, hbegin⟩

theorem Inv.resume (h : s.Inv order m) (hc : s.calls[i]? = some c)
    (hstage : c.stage = .working p) (hwell : s.ResumesWell c.call p) :
    ∃ order m, (s.resume i c.call p).Inv order m := by
  have hnone : c.stage.result = none := by
    rw [hstage]
    rfl
  have hpending := h.pending i c p hc hstage
  cases p with
  | initialising =>
    obtain ⟨hvalues, hhashes⟩ := hwell
    have hinit : s.init.Agrees m := by
      refine ⟨h.agrees.values.trans hvalues, fun key => ?_, fun key ref href => (by cases href),
        h.agrees.plain, h.agrees.emptyKey, fun hs => (by cases hs)⟩
      rw [h.agrees.fields, hhashes]
      rfl
    refine ⟨_, _, h.setStage hc rfl (fun _ => rfl) (h.history.progress hc hnone) hinit
      (fun k key read hk => ⟨hk.object, hk.saw.setStage⟩) fun p hp => ?_⟩
    cases hp
    rfl
  | ready => exact h.start hc hnone hpending hwell
  | setHash key hash read =>
    obtain ⟨hinit, hcall, hignored⟩ := hpending
    obtain ⟨hread, hproto⟩ := hwell
    have hkey : key ≠ "" := by
      rintro rfl
      rw [hcall] at hignored
      simp [CacheCall.ignored] at hignored
    -- the object that is read, or the one that is made in its place
    have hobject : ∃ o : HashObject, (s.readObject read).getD { key } = o ∧ o.key = key ∧
        o.proto = none ∧ o.own = m.fieldsOf key := by
      rw [h.agrees.fields, hread]
      cases read with
      | none => exact ⟨_, rfl, rfl, rfl, rfl⟩
      | some ref =>
        obtain ⟨o, ho, hokey⟩ := h.agrees.owned key ref hread
        have hobj : s.readObject (some ref) = some o := ho
        refine ⟨o, by rw [hobj]; rfl, hokey, h.agrees.plain o (List.mem_of_getElem? ho), ?_⟩
        rw [fieldsAt_get?_of_readObject hobj]
    obtain ⟨o, ho, hokey, hplain, hown⟩ := hobject
    rw [MemoryCacheService.resume, ho, HashObject.assignAll_of_plain hproto]
    refine ⟨_, m.setFields key ((m.fieldsOf key).setAll hash.entries),
      h.write hc hnone hread ?_ ?_ hkey hinit ?_ rfl fun k => ?_⟩
    · exact hokey
    · exact hplain
    · rw [CacheMap.apply_of_not_ignored hignored, hcall, CacheMap.effect]
    · rw [CacheMap.fieldsOf_setFields, hown]
  | deleteFromHash cacheKey hashKey read =>
    obtain ⟨hinit, hcall, hignored, hlooked⟩ := hpending
    have happly := fun m : CacheMap => CacheMap.apply_of_not_ignored (m := m) hignored
    rw [MemoryCacheService.resume]
    rcases hobj : s.readObject read with _ | o
    · -- nothing was there when it was read
      simp only
      obtain ⟨order', h'⟩ := h.look hc hnone hlooked (r := .done) fun m' hm' => by
        rw [happly, hcall, CacheMap.effect, if_pos]
        rw [hm', fieldsAt, hobj]
        rfl
      exact ⟨order', m, h'⟩
    · simp only
      cases read with
      | none => cases hobj
      | some ref =>
        have hread := hwell.resolve_left (Option.some_ne_none ref)
        obtain ⟨d, hd, hdkey⟩ := h.agrees.owned cacheKey ref hread
        have hdo : d = o := Option.some.inj (hd.symm.trans hobj)
        subst hdo
        have hkey : cacheKey ≠ "" := by
          rintro rfl
          rw [hcall] at hignored
          simp [CacheCall.ignored] at hignored
        have hfields : m.fieldsOf cacheKey = d.own := by
          rw [h.agrees.fields, hread, fieldsAt_get?_of_readObject hobj]
        have hplain := h.agrees.plain d (List.mem_of_getElem? hd)
        by_cases hempty : d.own = .empty
        · refine ⟨_, m, h.write hc hnone hread ?_ ?_ hkey hinit ?_ rfl fun k => ?_⟩
          · exact hdkey
          · exact hplain
          · rw [happly, hcall, CacheMap.effect, hfields, if_pos hempty]
          · split
            · rename_i hk
              rw [hk, hfields, hempty]
              rfl
            · rfl
        · refine ⟨_, m.setFields cacheKey (d.own.erase hashKey),
            h.write hc hnone hread ?_ ?_ hkey hinit ?_ rfl fun k => ?_⟩
          · exact hdkey
          · exact hplain
          · rw [happly, hcall, CacheMap.effect, hfields, if_neg hempty]
          · exact CacheMap.fieldsOf_setFields
  | getHash key read =>
    obtain ⟨hcall, hlooked⟩ := hpending
    obtain ⟨order', h'⟩ := h.look hc hnone hlooked
      (r := .hash ((s.readObject read).map (·.own))) fun m' hm' => by
        rw [hcall, CacheMap.apply_of_not_ignored rfl, CacheMap.effect, hm', fieldsAt]
        rcases hobj : s.readObject read with _ | o
        · rfl
        · exact if_neg (hwell o hobj) ▸ rfl
    exact ⟨order', m, h'⟩
  | getHashValue cacheKey hashKey read =>
    obtain ⟨hcall, hlooked⟩ := hpending
    have happly : ∀ m' : CacheMap, m'.fieldsOf cacheKey = s.fieldsAt read →
        m'.apply c.call = (m', .value ((s.fieldsAt read).get? hashKey)) := by
      intro m' hm'
      rw [hcall, CacheMap.apply_of_not_ignored rfl, CacheMap.effect, hm']
    obtain ⟨order', h'⟩ := h.look hc hnone hlooked happly
    refine ⟨order', m, ?_⟩
    rw [MemoryCacheService.resume]
    rcases hobj : s.readObject read with _ | o
    · rw [fieldsAt, hobj] at h'
      exact h'
    · rw [fieldsAt_get?_of_readObject hobj] at h'
      obtain ⟨ref, -, href⟩ := Option.bind_eq_some_iff.mp hobj
      simp only
      rw [HashObject.lookup_of_plain (h.agrees.plain o (List.mem_of_getElem? href)) (hwell o hobj)]
      exact h'

/-- Step lemma: every undisturbed turn keeps the invariant. -/
theorem Inv.step {input : CacheInput} {s' : MemoryCacheService} (h : s.Inv order m)
    (hwell : s.Undisturbed input) (hstep : s.step input = .ok s') :
    ∃ order m, s'.Inv order m := by
  cases input with
  | call call =>
    cases hstep
    exact h.call hwell
  | proceed i =>
    rw [MemoryCacheService.step] at hstep
    rcases hc : s.calls[i]? with _ | c
    · rw [hc] at hstep
      cases hstep
    · have hturn := hwell c hc
      rw [hc] at hstep
      simp only at hstep
      rcases hstage : c.stage with p | r | r
      all_goals
        rw [hstage] at hstep hturn
        cases hstep
      · exact h.resume hc hstage hturn
      · exact ⟨order, m, h.setStage hc rfl id (h.history.finish hc hstage) h.agrees
          (fun _ _ _ => Looked.setStage) fun p hp => by cases hp⟩
  | evict key =>
    cases hstep
    have hdrop : s.drop key = s := by
      have hnot : s.has key = false := hwell
      cases key with
      | value name => rw [drop, Dict.erase_of_not_mem (Dict.not_mem_keys_of_has hnot)]
      | hash name => rw [drop, Dict.erase_of_not_mem (Dict.not_mem_keys_of_has hnot)]
    rw [hdrop]
    exact ⟨order, m, h⟩

end Invariant

/-- **In memory the results are those of the map in some order**, along every run whose turns
are undisturbed. -/
theorem linearizable {inputs : List CacheInput}
    (h : Along step (fun s input _ => s.Undisturbed input) {} inputs) :
    Along step (fun _ _ s' => Linearizable CacheMap.apply {} s'.calls) {} inputs := by
  refine Along.of_step (I := fun s => ∃ order m, s.Inv order m) ?_ ⟨[], {}, Inv.initial⟩ h
  rintro s input s' ⟨order, m, hs⟩ hstep hwell
  obtain ⟨order', m', hs'⟩ := hs.step hwell hstep
  exact ⟨⟨order', hs'.history.linearizes⟩, order', m', hs'⟩

end MemoryCacheService

end N8n
