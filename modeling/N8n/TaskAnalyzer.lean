/-
The verdicts of the analyzers of Python code: `TaskAnalyzer`.

All analyzers share a cache of violations, by the hash of the code and the allowlists; the entry
that was not used for the longest time is dropped when the cache is full.

* **`validate_raises_iff`** — in any run, a call raises iff a walk that skips nothing finds a
  violation, and the cache is never too large.
-/
import Mathlib.Data.List.Induction
import N8n.SecurityValidator

namespace N8n.Python

structure CacheKey (H : Type) where
  codeHash : H
  allowlists : List PyString × List PyString
  deriving DecidableEq

/-- The violations by key, those that were used last at the end. -/
abbrev ValidationCache (H : Type) := List (CacheKey H × List PyString)

def MAX_VALIDATION_CACHE_SIZE : ℕ := 500

section Cache

variable {H : Type} [DecidableEq H]

def getCached (cache : ValidationCache H) (key : CacheKey H) : Option (List PyString) :=
  (cache.find? fun entry => entry.1 = key).map Prod.snd

def setLast (cache : ValidationCache H) (key : CacheKey H) (violations : List PyString) :
    ValidationCache H :=
  (cache.filter fun entry => entry.1 ≠ key) ++ [(key, violations)]

def setInCache (cache : ValidationCache H) (key : CacheKey H) (violations : List PyString) :
    ValidationCache H :=
  setLast (if cache.length ≥ MAX_VALIDATION_CACHE_SIZE then cache.tail else cache) key violations

end Cache

structure SecurityConfig.Allowlists where
  allowAll : Bool
  allowlists : List PyString × List PyString

/-- What an analyzer reads of its configuration when it is made. -/
def SecurityConfig.read (config : SecurityConfig) : SecurityConfig.Allowlists where
  allowAll := wildcard ∈ config.stdlibAllow ∧ wildcard ∈ config.externalAllow
  allowlists := (sorted config.stdlibAllow, sorted config.externalAllow)

/-- What the language does for an analyzer. -/
structure Interpreter (H : Type) where
  stdlibModuleNames : List PyString
  words : WordCharacters
  /-- `ast.parse(code)`, unless it raises a `SyntaxError`. -/
  parse : PyString → Option Node
  /-- `hashlib.sha256(code.encode()).hexdigest()`. -/
  sha256 : PyString → H

inductive Verdict where
  | passed
  | securityViolation (description : List PyString)
  | syntaxError
  deriving DecidableEq

/-- `_raise_security_error(violations)`, if there are any. -/
def verdictOf (violations : List PyString) : Verdict :=
  if violations = [] then .passed else .securityViolation violations

structure Validation where
  config : SecurityConfig
  code : PyString

variable {H : Type} [DecidableEq H] (interpreter : Interpreter H)

def cacheKey (call : Validation) : CacheKey H where
  codeHash := interpreter.sha256 call.code
  allowlists := call.config.read.allowlists

def validate (cache : ValidationCache H) (call : Validation) : ValidationCache H × Verdict :=
  if call.config.read.allowAll then (cache, .passed)
  else
    let key := cacheKey interpreter call
    match getCached cache key with
    | some cached => (setLast cache key cached, verdictOf cached)
    | none => match interpreter.parse call.code with
      | none => (cache, .syntaxError)
      | some tree =>
        let found := violations interpreter.stdlibModuleNames interpreter.words call.config tree
        (setInCache cache key found, verdictOf found)

/-- The cache after some calls. -/
def cacheAfter (calls : List Validation) : ValidationCache H :=
  calls.foldl (fun cache call => (validate interpreter cache call).1) []

/-- An entry has the violations of one of the calls. -/
def Right (calls : List Validation) (entry : CacheKey H × List PyString) : Prop :=
  ∃ call ∈ calls, ∃ tree, interpreter.parse call.code = some tree ∧
    entry.1 = cacheKey interpreter call ∧
    entry.2 = violations interpreter.stdlibModuleNames interpreter.words call.config tree

variable {interpreter} {cache : ValidationCache H} {calls : List Validation} {call : Validation}
  {key : CacheKey H} {cached : List PyString}

theorem mem_of_getCached
    (h : getCached cache key = some cached) : (key, cached) ∈ cache := by
  obtain ⟨entry, hentry, rfl⟩ := Option.map_eq_some_iff.mp h
  have hkey : entry.1 = key := by simpa using List.find?_some hentry
  rw [← hkey]
  exact List.mem_of_find?_eq_some hentry

variable {found : List PyString} {entry : CacheKey H × List PyString}

theorem mem_setLast
    (h : entry ∈ setLast cache key found) : entry ∈ cache ∨ entry = (key, found) := by
  rcases List.mem_append.mp h with h | h
  · exact .inl (List.mem_filter.mp h).1
  · exact .inr (List.mem_singleton.mp h)

theorem mem_setInCache (h : entry ∈ setInCache cache key found) :
    entry ∈ cache ∨ entry = (key, found) := by
  refine (mem_setLast h).imp_left fun hmem => ?_
  split at hmem
  · exact List.mem_of_mem_tail hmem
  · exact hmem

theorem length_setLast_le (key : CacheKey H) (found : List PyString) :
    (setLast cache key found).length ≤ cache.length + 1 := by
  rw [setLast, List.length_append, List.length_singleton]
  exact Nat.succ_le_succ (List.length_filter_le _ _)

theorem length_setInCache_le (h : cache.length ≤ MAX_VALIDATION_CACHE_SIZE) (key : CacheKey H)
    (found : List PyString) :
    (setInCache cache key found).length ≤ MAX_VALIDATION_CACHE_SIZE := by
  refine (length_setLast_le key found).trans ?_
  have hpos : 0 < MAX_VALIDATION_CACHE_SIZE := by decide
  split
  · rw [List.length_tail]
    omega
  · omega

theorem length_setLast_of_mem
    (h : getCached cache key = some cached) : (setLast cache key cached).length ≤ cache.length := by
  rw [setLast, List.length_append, List.length_singleton]
  have hlt : (cache.filter fun entry => entry.1 ≠ key).length < cache.length := by
    refine List.length_filter_lt_length_iff_exists.mpr ⟨_, mem_of_getCached h, ?_⟩
    simp
  exact hlt

variable (interpreter) in
/-- What holds of the cache after some calls. -/
structure Sound (calls : List Validation) (cache : ValidationCache H) : Prop where
  right : ∀ entry ∈ cache, Right interpreter calls entry
  length : cache.length ≤ MAX_VALIDATION_CACHE_SIZE

omit [DecidableEq H] in
theorem Right.append (h : Right interpreter calls entry)
    (more : List Validation) : Right interpreter (calls ++ more) entry := by
  obtain ⟨call, hcall, rest⟩ := h
  exact ⟨call, List.mem_append_left _ hcall, rest⟩

theorem Sound.validate (h : Sound interpreter calls cache) (call : Validation) :
    Sound interpreter (calls ++ [call]) (validate interpreter cache call).1 := by
  have hold : ∀ entry ∈ cache, Right interpreter (calls ++ [call]) entry :=
    fun entry hentry => (h.right entry hentry).append _
  rw [Python.validate]
  by_cases hall : call.config.read.allowAll = true
  · rw [if_pos hall]
    exact ⟨hold, h.length⟩
  rw [if_neg hall]
  cases hcached : getCached cache (cacheKey interpreter call) with
  | some cached =>
    simp only [hcached]
    refine ⟨fun entry hentry => ?_, (length_setLast_of_mem hcached).trans h.length⟩
    rcases mem_setLast hentry with hentry | rfl
    · exact hold entry hentry
    · exact hold _ (mem_of_getCached hcached)
  | none =>
    cases htree : interpreter.parse call.code with
    | none =>
      simp only [hcached]
      exact ⟨hold, h.length⟩
    | some tree =>
      simp only [hcached]
      refine ⟨fun entry hentry => ?_, length_setInCache_le h.length _ _⟩
      rcases mem_setInCache hentry with hentry | rfl
      · exact hold entry hentry
      · exact ⟨call, List.mem_append_right _ List.mem_cons_self, tree, htree, rfl, rfl⟩

variable (interpreter) in
theorem sound_cacheAfter (calls : List Validation) :
    Sound interpreter calls (cacheAfter interpreter calls) := by
  induction calls using List.reverseRecOn with
  | nil => exact ⟨fun _ hmem => absurd hmem List.not_mem_nil, Nat.zero_le _⟩
  | append_singleton calls call ih =>
    rw [cacheAfter, List.foldl_append]
    exact ih.validate call

theorem mem_sorted {name : PyString} {names : List PyString} :
    name ∈ sorted names ↔ name ∈ names := List.mem_mergeSort

theorem allowedNames_congr {names names' : List PyString} (h : sorted names = sorted names') :
    allowedNames names = allowedNames names' := by
  have hnil : names = [] ↔ names' = [] := by
    rw [List.eq_nil_iff_forall_not_mem, List.eq_nil_iff_forall_not_mem]
    exact forall_congr' fun name => by rw [← mem_sorted, h, mem_sorted]
  rw [allowedNames, allowedNames, h]
  exact if_congr hnil rfl rfl

theorem validateModuleImport_congr {config config' : SecurityConfig}
    (h : config.read.allowlists = config'.read.allowlists) (stdlibModuleNames : List PyString)
    (modulePath : PyString) : validateModuleImport stdlibModuleNames modulePath config =
      validateModuleImport stdlibModuleNames modulePath config' := by
  obtain ⟨hstdlib, hexternal⟩ := Prod.mk.inj h
  have hmem : ∀ {names names' : List PyString}, sorted names = sorted names' →
      ∀ name, name ∈ names ↔ name ∈ names' := by
    intro names names' hsorted name
    rw [← mem_sorted, hsorted, mem_sorted]
  rw [validateModuleImport, validateModuleImport, allowedNames_congr hstdlib,
    allowedNames_congr hexternal]
  simp only [hmem hstdlib, hmem hexternal]

theorem violations_congr {config config' : SecurityConfig}
    (h : config.read.allowlists = config'.read.allowlists) (stdlibModuleNames : List PyString)
    (words : WordCharacters) (tree : Node) : violations stdlibModuleNames words config tree =
      violations stdlibModuleNames words config' tree := by
  have hcheck : validateImport stdlibModuleNames config =
      validateImport stdlibModuleNames config' := by
    funext modulePath lineno v
    rw [validateImport, validateImport, validateModuleImport_congr h]
  rw [violations, violations, hcheck]

theorem verdictOf_eq_iff :
    (∃ description, verdictOf found = .securityViolation description) ↔ found ≠ [] := by
  rw [verdictOf]
  split
  · next h =>
    refine iff_of_false ?_ (not_not.mpr h)
    rintro ⟨_, heq⟩
    cases heq
  · next h => exact iff_of_true ⟨found, rfl⟩ h

/-- **A call raises** after any calls iff a walk that skips nothing finds a violation, and the cache
is never too large. -/
theorem validate_raises_iff (interpreter : Interpreter H) (calls : List Validation)
    (call : Validation) {tree : Node} (hparse : interpreter.parse call.code = some tree)
    (hallow : ¬ (wildcard ∈ call.config.stdlibAllow ∧ wildcard ∈ call.config.externalAllow))
    (hsha256 : ∀ other ∈ calls, interpreter.sha256 other.code = interpreter.sha256 call.code →
      other.code = call.code) :
    ((∃ description, (validate interpreter (cacheAfter interpreter calls) call).2 =
        .securityViolation description) ↔
      everyViolation interpreter.stdlibModuleNames interpreter.words call.config tree ≠ []) ∧
    (validate interpreter (cacheAfter interpreter calls) call).1.length
      ≤ MAX_VALIDATION_CACHE_SIZE := by
  have hsound := sound_cacheAfter interpreter calls
  refine ⟨?_, (hsound.validate call).length⟩
  rw [ne_eq, ← violations_eq_nil_iff, ← ne_eq]
  have hall : ¬ call.config.read.allowAll = true := fun h => hallow (of_decide_eq_true h)
  rw [validate, if_neg hall]
  cases hcached : getCached (cacheAfter interpreter calls) (cacheKey interpreter call) with
  | none =>
    simp only [hcached, hparse]
    exact verdictOf_eq_iff
  | some cached =>
    simp only [hcached]
    obtain ⟨other, hother, tree', htree', hkey, hfound⟩ :=
      hsound.right _ (mem_of_getCached hcached)
    have hcode := hsha256 other hother (congrArg CacheKey.codeHash hkey).symm
    rw [hcode, hparse] at htree'
    cases htree'
    have hlists : call.config.read.allowlists = other.config.read.allowlists :=
      congrArg CacheKey.allowlists hkey
    have hsame : cached = violations interpreter.stdlibModuleNames interpreter.words call.config
        tree := hfound.trans (violations_congr hlists ..).symm
    rw [hsame]
    exact verdictOf_eq_iff

/-- Every code imports a module of the standard library, which is its own hash. -/
def importing : Interpreter PyString where
  stdlibModuleNames := [str "os"]
  words := asciiWords
  parse _ := some (.importNames 1 [str "os"])
  sha256 code := code

/-- The second verdict is taken from the cache. -/
theorem raises_again : ∃ description,
    (validate importing (cacheAfter importing [⟨⟨[], []⟩, str "import os"⟩])
      ⟨⟨[], []⟩, str "import os"⟩).2 = .securityViolation description :=
  (validate_raises_iff importing [⟨⟨[], []⟩, str "import os"⟩] ⟨⟨[], []⟩, str "import os"⟩ rfl
    (by decide) (fun _ _ h => h)).1.mpr (by decide)

end N8n.Python
