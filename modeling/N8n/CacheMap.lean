/-
One map of values and hashes, as the cache service is to be.

A key is used either for values or for hashes, and a hash without fields is the same as
none.  The calls of the service act on it one at a time; the early returns of the service
are part of what a call does.

* `CacheCall`, `CacheResult` — the calls, and what they resolve with;
* `CacheMap.apply` — the map after a call.
-/
import N8n.JsValue
import N8n.PathPattern

namespace N8n

/-- The fields of a hash, in the order in which they were first set. -/
abbrev Hash := Dict String JsValue

/-- A key is used either for values or for hashes. -/
inductive CacheKey where
  | value (name : String)
  | hash (name : String)
  deriving DecidableEq

def CacheKey.name : CacheKey → String
  | value name => name
  | hash name => name

inductive CacheCall where
  | set (key : String) (value : JsValue)
  | setHash (key : String) (hash : Hash)
  | deleteFromHash (cacheKey hashKey : String)
  | delete (key : CacheKey)
  | get (key : String)
  | getHash (key : String)
  | getHashValue (cacheKey hashKey : String)
  | «exists» (key : CacheKey)
  deriving DecidableEq

/-- A call of the service, the next turn of a call, or an entry that the store drops. -/
inductive CacheInput where
  | call (call : CacheCall)
  | proceed (i : ℕ)
  | evict (key : CacheKey)
  deriving DecidableEq

/-- What a call resolves with; `inherited` is a property that an object has from its
prototype. -/
inductive CacheResult where
  | done
  | value (value : Option JsValue)
  | hash (hash : Option Hash)
  | held (holds : Bool)
  | inherited (name : String)
  | threw
  deriving DecidableEq

def JsValue.isNullish : JsValue → Bool
  | undefined => true
  | null => true
  | _ => false

namespace CacheCall

/-- The early returns of the calls, before they look at the store. -/
def ignored : CacheCall → Bool
  | set key value => key = "" || !value.truthy
  | setHash key hash => key = "" || hash.values.any JsValue.isNullish
  | deleteFromHash cacheKey hashKey => cacheKey = "" || hashKey = ""
  | delete key => key.name = ""
  | get key => key = ""
  | _ => false

def ignoredResult : CacheCall → CacheResult
  | get _ => .value none
  | _ => .done

/-- `if (!this.cache) await this.init()`, which `exists` is without. -/
def awaitsInit : CacheCall → Bool
  | «exists» _ => false
  | _ => true

end CacheCall

/-- The values and the hashes; a hash without fields is the same as none. -/
structure CacheMap where
  values : Dict String JsValue := .empty
  hashes : Dict String Hash := .empty
  deriving DecidableEq

namespace CacheMap
variable (m : CacheMap)

def fieldsOf (key : String) : Hash := (m.hashes.get? key).getD .empty

def setFields (key : String) (hash : Hash) : CacheMap :=
  { m with hashes := m.hashes.set key hash }

def holds : CacheKey → Bool
  | .value name => m.values.has name
  | .hash name => m.fieldsOf name ≠ .empty

def erase : CacheKey → CacheMap
  | .value name => { m with values := m.values.erase name }
  | .hash name => { m with hashes := m.hashes.erase name }

def effect : CacheCall → CacheMap × CacheResult
  | .set key value => ({ m with values := m.values.set key value }, .done)
  | .setHash key hash => (m.setFields key ((m.fieldsOf key).setAll hash.entries), .done)
  | .deleteFromHash cacheKey hashKey =>
    (if m.fieldsOf cacheKey = .empty then m
      else m.setFields cacheKey ((m.fieldsOf cacheKey).erase hashKey), .done)
  | .delete key => (m.erase key, .done)
  | .get key => (m, .value (m.values.get? key))
  | .getHash key => (m, .hash (if m.fieldsOf key = .empty then none else some (m.fieldsOf key)))
  | .getHashValue cacheKey hashKey => (m, .value ((m.fieldsOf cacheKey).get? hashKey))
  | .«exists» key => (m, .held (m.holds key))

/-- The map after a call, and what the call resolves with. -/
def apply (call : CacheCall) : CacheMap × CacheResult :=
  if call.ignored then (m, call.ignoredResult) else m.effect call

variable {m : CacheMap} {key k : String} {hash : Hash}

theorem fieldsOf_setFields :
    (m.setFields key hash).fieldsOf k = if k = key then hash else m.fieldsOf k := by
  rw [fieldsOf, setFields, Dict.get?_set]
  split
  · rfl
  · rfl

theorem fieldsOf_erase : (m.erase (.hash key)).fieldsOf k
    = if k = key then .empty else m.fieldsOf k := by
  rw [fieldsOf, erase, Dict.get?_erase]
  split
  · rfl
  · rfl

variable {call : CacheCall}

theorem apply_of_ignored (h : call.ignored = true) :
    m.apply call = (m, call.ignoredResult) := by
  rw [apply, if_pos h]

theorem apply_of_not_ignored (h : call.ignored = false) :
    m.apply call = m.effect call := by
  rw [apply, h]
  rfl

end CacheMap

end N8n
