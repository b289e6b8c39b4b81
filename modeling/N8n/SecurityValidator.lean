/-
The validator of Python code: `SecurityValidator`.

It walks over a syntax tree and collects violations.  A module that was checked once in a walk is
not checked again.

* **`violations_eq_nil_iff`** — both find violations in the same trees.
-/
import Mathlib.Data.List.Lex
import Mathlib.Order.Fin.Basic
import N8n.FormatStringCheck

namespace N8n.Python

def ERROR_RELATIVE_IMPORT : PyString := str "Relative imports are disallowed."

def ERROR_STDLIB_DISALLOWED (module allowed : PyString) : PyString :=
  str "Import of standard library module '" ++ module ++
    str "' is disallowed. Allowed stdlib modules: " ++ allowed

def ERROR_EXTERNAL_DISALLOWED (module allowed : PyString) : PyString :=
  str "Import of external package '" ++ module ++
    str "' is disallowed. Allowed external packages: " ++ allowed

def bypass : PyString :=
  str "' is disallowed, because it can be used to bypass security restrictions."

def ERROR_DANGEROUS_NAME (name : PyString) : PyString :=
  str "Access to name '" ++ name ++ bypass

def ERROR_DANGEROUS_ATTRIBUTE (attr : PyString) : PyString :=
  str "Access to attribute '" ++ attr ++ bypass

def ERROR_DANGEROUS_STRING_PATTERN (attr : PyString) : PyString :=
  str "String pattern accessing '" ++ attr ++ bypass

def ERROR_NAME_MANGLED_ATTRIBUTE : PyString := str
  "Access to name-mangled attributes (pattern: _ClassName__attr) is disallowed for security reasons."

def ERROR_DYNAMIC_IMPORT : PyString :=
  str "Dynamic __import__() calls are not allowed for security reasons."

def ERROR_MATCH_PATTERN_ATTRIBUTE (attr : PyString) : PyString :=
  str "Match pattern extracting attribute '" ++ attr ++ bypass

structure SecurityConfig where
  stdlibAllow : List PyString
  externalAllow : List PyString

def sorted (names : List PyString) : List PyString := names.mergeSort fun a b => decide (a ≤ b)

def allowedNames (names : List PyString) : PyString :=
  if names = [] then str "none" else (str ", ").intercalate (sorted names)

/-- The name of a module without those of its submodules. -/
def moduleName (modulePath : PyString) : PyString := firstPart (chr '.') modulePath

def wildcard : PyString := str "*"

variable (stdlibModuleNames : List PyString)

def validateModuleImport (modulePath : PyString) (config : SecurityConfig) :
    Bool × Option PyString :=
  let name := moduleName modulePath
  if name ∈ stdlibModuleNames then
    if wildcard ∈ config.stdlibAllow ∨ name ∈ config.stdlibAllow then (true, none)
    else (false, some (ERROR_STDLIB_DISALLOWED modulePath (allowedNames config.stdlibAllow)))
  else
    if wildcard ∈ config.externalAllow ∨ name ∈ config.externalAllow then (true, none)
    else (false, some (ERROR_EXTERNAL_DISALLOWED modulePath (allowedNames config.externalAllow)))

/-- Nodes of the syntax tree; a node without a visitor of its own has only its children. -/
inductive Node where
  | importNames (lineno : ℕ) (names : List PyString)
  | importFrom (lineno : ℕ) (module : Option PyString) (level : ℕ)
  | name (lineno : ℕ) (id : PyString)
  | attribute (lineno : ℕ) (value : Node) (attr : PyString)
  | call (lineno : ℕ) (func : Node) (args keywords : List Node)
  | subscript (lineno : ℕ) (value slice : Node)
  /-- A constant, with its value if that is a string. -/
  | constant (lineno : ℕ) (value : Option PyString)
  | matchClass (lineno : ℕ) (cls : Node) (patterns : List Node) (kwdAttrs : List PyString)
      (kwdPatterns : List Node)
  | other (children : List Node)

/-- `isinstance(node, ast.Constant) and isinstance(node.value, str)`, the value. -/
def Node.string? : Node → Option PyString
  | .constant _ value => value
  | _ => none

def Node.isName (names : List PyString) : Node → Bool
  | .name _ id => id ∈ names
  | _ => false

def isImportCall : Node → Bool
  | .attribute _ value attr =>
    attr = str "__import__" && value.isName [str "builtins", str "__builtins__"]
  | func => func.isName [str "__import__"]

def isBuiltinsAccess : Node → Bool
  | .attribute _ _ attr => attr ∈ [str "__builtins__", str "builtins"]
  | value => value.isName [str "__builtins__", str "builtins"]

/-- `s.split(cc, 1)[0]` for a doubled character, if the text has it. -/
def beforeDoubled (c : CodePoint) : PyString → Option PyString
  | a :: b :: rest =>
    if a = c ∧ b = c then some [] else (beforeDoubled c (b :: rest)).map (a :: ·)
  | _ => none

def isNameMangled (attr : PyString) : Bool :=
  startsWith (chr '_') attr && (beforeDoubled (chr '_') attr).any (startsWith (chr '_'))

structure SecurityValidator where
  checkedModules : List PyString := []
  violations : List PyString := []

def addViolation (lineno : ℕ) (message : PyString) (v : SecurityValidator) : SecurityValidator :=
  { v with violations :=
      v.violations ++ [str "Line " ++ str (toString lineno) ++ str ": " ++ message] }

/-- A violation for each of some names that is blocked, if it is. -/
def addViolations (lineno : ℕ) (message : PyString → PyString) (names : List PyString)
    (v : SecurityValidator) : SecurityValidator :=
  names.foldl (fun v name => addViolation lineno (message name) v) v

def validateImport (config : SecurityConfig) (modulePath : PyString) (lineno : ℕ)
    (v : SecurityValidator) : SecurityValidator :=
  if startsWith (chr '.') modulePath then addViolation lineno ERROR_RELATIVE_IMPORT v
  else if moduleName modulePath ∈ v.checkedModules then v
  else
    let v := { v with checkedModules := v.checkedModules ++ [moduleName modulePath] }
    match validateModuleImport stdlibModuleNames modulePath config with
    | (false, some error) => addViolation lineno error v
    | _ => v

section Visit

variable (words : WordCharacters)
  (checkImport : PyString → ℕ → SecurityValidator → SecurityValidator)

mutual

def visit : Node → SecurityValidator → SecurityValidator
  | .importNames lineno names, v => names.foldl (fun v name => checkImport name lineno v) v
  | .importFrom lineno module level, v =>
    if level > 0 then addViolation lineno ERROR_RELATIVE_IMPORT v
    else match module with
      | none => v
      | some module => if module = [] then v else checkImport module lineno v
  | .name lineno id, v =>
    if id ∈ BLOCKED_NAMES then addViolation lineno (ERROR_DANGEROUS_NAME id) v else v
  | .attribute lineno value attr, v =>
    let v := if attr ∈ BLOCKED_ATTRIBUTES then
      addViolation lineno (ERROR_DANGEROUS_ATTRIBUTE attr) v else v
    let v := if isNameMangled attr then addViolation lineno ERROR_NAME_MANGLED_ATTRIBUTE v else v
    visit value v
  | .call lineno func args keywords, v =>
    let v := if isImportCall func then
        match args.head?.bind Node.string? with
        | some name => checkImport name lineno v
        | none => addViolation lineno ERROR_DYNAMIC_IMPORT v
      else v
    visitAll keywords (visitAll args (visit func v))
  | .subscript lineno value slice, v =>
    let v := match slice.string? with
      | some key => if isBuiltinsAccess value ∧ key ∈ BLOCKED_ATTRIBUTES then
          addViolation lineno (ERROR_DANGEROUS_ATTRIBUTE key) v else v
      | none => v
    visit slice (visit value v)
  | .constant lineno value, v => match value with
    | some s => addViolations lineno ERROR_DANGEROUS_STRING_PATTERN (checkFormatString words s) v
    | none => v
  | .matchClass lineno cls patterns kwdAttrs kwdPatterns, v =>
    let v := addViolations lineno ERROR_MATCH_PATTERN_ATTRIBUTE
      (kwdAttrs.filter fun attr => attr ∈ BLOCKED_ATTRIBUTES) v
    visitAll kwdPatterns (visitAll patterns (visit cls v))
  | .other children, v => visitAll children v

def visitAll : List Node → SecurityValidator → SecurityValidator
  | [], v => v
  | node :: nodes, v => visitAll nodes (visit node v)

end

end Visit

def violations (words : WordCharacters) (config : SecurityConfig) (tree : Node) : List PyString :=
  (visit words (validateImport stdlibModuleNames config) tree {}).violations

def validateEveryImport (config : SecurityConfig) (modulePath : PyString) (lineno : ℕ)
    (v : SecurityValidator) : SecurityValidator :=
  if startsWith (chr '.') modulePath then addViolation lineno ERROR_RELATIVE_IMPORT v
  else match validateModuleImport stdlibModuleNames modulePath config with
    | (false, some error) => addViolation lineno error v
    | _ => v

def everyViolation (words : WordCharacters) (config : SecurityConfig) (tree : Node) :
    List PyString :=
  (visit words (validateEveryImport stdlibModuleNames config) tree {}).violations

section Agree

variable {stdlibModuleNames : List PyString} {words : WordCharacters} {config : SecurityConfig}
  {v w : SecurityValidator}

variable (stdlibModuleNames config) in
theorem validateModuleImport_cases (modulePath : PyString) :
    validateModuleImport stdlibModuleNames modulePath config = (true, none) ∨
      ∃ error, validateModuleImport stdlibModuleNames modulePath config = (false, some error) := by
  rw [validateModuleImport]
  split
  · split
    · exact .inl rfl
    · exact .inr ⟨_, rfl⟩
  · split
    · exact .inl rfl
    · exact .inr ⟨_, rfl⟩

theorem validateModuleImport_fst {modulePath other : PyString}
    (h : moduleName modulePath = moduleName other) :
    (validateModuleImport stdlibModuleNames modulePath config).1 =
      (validateModuleImport stdlibModuleNames other config).1 := by
  rw [validateModuleImport, validateModuleImport, h]
  simp only [apply_ite Prod.fst]

variable (stdlibModuleNames config) in
/-- One walk has found a violation iff the other has, and has checked modules that are allowed, if
there is none. -/
structure Agree (v w : SecurityValidator) : Prop where
  same : v.violations = [] ↔ w.violations = []
  checked : ∀ modulePath, moduleName modulePath ∈ v.checkedModules →
    (validateModuleImport stdlibModuleNames modulePath config).1 = true ∨ w.violations ≠ []

theorem violations_addViolation_ne_nil (lineno : ℕ) (message : PyString) :
    (addViolation lineno message v).violations ≠ [] :=
  List.append_ne_nil_of_right_ne_nil _ (List.cons_ne_nil _ _)

theorem agree_addViolation (lineno : ℕ) (message : PyString) :
    Agree stdlibModuleNames config (addViolation lineno message v)
      (addViolation lineno message w) where
  same := iff_of_false (violations_addViolation_ne_nil _ _) (violations_addViolation_ne_nil _ _)
  checked _ _ := .inr (violations_addViolation_ne_nil _ _)

theorem Agree.foldl {f g : SecurityValidator → PyString → SecurityValidator}
    (hstep : ∀ name (v w : SecurityValidator), Agree stdlibModuleNames config v w →
      Agree stdlibModuleNames config (f v name) (g w name)) :
    ∀ {names : List PyString} {v w : SecurityValidator}, Agree stdlibModuleNames config v w →
      Agree stdlibModuleNames config (names.foldl f v) (names.foldl g w) := by
  intro names
  induction names with
  | nil => exact fun h => h
  | cons name names ih => exact fun h => ih (hstep name _ _ h)

theorem Agree.addViolations (h : Agree stdlibModuleNames config v w) (lineno : ℕ)
    (message : PyString → PyString) (names : List PyString) :
    Agree stdlibModuleNames config (addViolations lineno message names v)
      (addViolations lineno message names w) := by
  rw [Python.addViolations, Python.addViolations]
  exact h.foldl fun name _ _ _ => agree_addViolation lineno (message name)

theorem Agree.validateImport (h : Agree stdlibModuleNames config v w) (modulePath : PyString)
    (lineno : ℕ) : Agree stdlibModuleNames config
      (validateImport stdlibModuleNames config modulePath lineno v)
      (validateEveryImport stdlibModuleNames config modulePath lineno w) := by
  rw [Python.validateImport, validateEveryImport]
  split
  · exact agree_addViolation _ _
  split
  · next hchecked =>
    rcases validateModuleImport_cases stdlibModuleNames config modulePath with hallowed | ⟨error, herror⟩
    · rw [hallowed]
      exact h
    · -- the module was not allowed when it was checked
      rw [herror]
      have hfound := (h.checked modulePath hchecked).resolve_left (by rw [herror]; exact Bool.false_ne_true)
      refine ⟨iff_of_false (fun hnil => hfound (h.same.mp hnil))
        (violations_addViolation_ne_nil _ _), fun _ _ => .inr (violations_addViolation_ne_nil _ _)⟩
  · rcases validateModuleImport_cases stdlibModuleNames config modulePath with hallowed | ⟨error, herror⟩
    · rw [hallowed]
      refine ⟨h.same, fun other hother => ?_⟩
      rcases List.mem_append.mp hother with hother | hother
      · exact h.checked other hother
      · refine .inl ?_
        rw [validateModuleImport_fst (List.mem_singleton.mp hother), hallowed]
    · rw [herror]
      exact ⟨iff_of_false (violations_addViolation_ne_nil _ _)
        (violations_addViolation_ne_nil _ _), fun _ _ => .inr (violations_addViolation_ne_nil _ _)⟩

mutual

theorem Agree.visit : ∀ (node : Node) {v w : SecurityValidator},
    Agree stdlibModuleNames config v w →
    Agree stdlibModuleNames config
      (visit words (Python.validateImport stdlibModuleNames config) node v)
      (visit words (validateEveryImport stdlibModuleNames config) node w)
  | .importNames lineno names, v, w, h => by
    rw [Python.visit, Python.visit]
    exact h.foldl fun name _ _ h => h.validateImport name lineno
  | .importFrom lineno none level, v, w, h => by
    rw [Python.visit, Python.visit]
    split
    · exact agree_addViolation _ _
    · exact h
  | .importFrom lineno (some module) level, v, w, h => by
    rw [Python.visit, Python.visit]
    split
    · exact agree_addViolation _ _
    · split
      · exact h
      · exact h.validateImport module lineno
  | .name lineno id, v, w, h => by
    rw [Python.visit, Python.visit]
    split
    · exact agree_addViolation _ _
    · exact h
  | .attribute lineno value attr, v, w, h => by
    rw [Python.visit, Python.visit]
    refine Agree.visit value ?_
    by_cases hblocked : attr ∈ BLOCKED_ATTRIBUTES
    · rw [if_pos hblocked, if_pos hblocked]
      split
      · exact agree_addViolation _ _
      · exact agree_addViolation _ _
    · rw [if_neg hblocked, if_neg hblocked]
      split
      · exact agree_addViolation _ _
      · exact h
  | .call lineno func args keywords, v, w, h => by
    rw [Python.visit, Python.visit]
    refine Agree.visitAll keywords (Agree.visitAll args (Agree.visit func ?_))
    split
    · cases args.head?.bind Node.string? with
      | none => exact agree_addViolation _ _
      | some name => exact h.validateImport name lineno
    · exact h
  | .subscript lineno value slice, v, w, h => by
    rw [Python.visit, Python.visit]
    refine Agree.visit slice (Agree.visit value ?_)
    cases slice.string? with
    | none => exact h
    | some key =>
      simp only
      split
      · exact agree_addViolation _ _
      · exact h
  | .constant lineno none, v, w, h => by
    rw [Python.visit, Python.visit]
    exact h
  | .constant lineno (some s), v, w, h => by
    rw [Python.visit, Python.visit]
    exact h.addViolations _ _ _
  | .matchClass lineno cls patterns kwdAttrs kwdPatterns, v, w, h => by
    rw [Python.visit, Python.visit]
    exact Agree.visitAll kwdPatterns (Agree.visitAll patterns
      (Agree.visit cls (h.addViolations _ _ _)))
  | .other children, v, w, h => by
    rw [Python.visit, Python.visit]
    exact Agree.visitAll children h

theorem Agree.visitAll : ∀ (nodes : List Node) {v w : SecurityValidator},
    Agree stdlibModuleNames config v w →
    Agree stdlibModuleNames config
      (visitAll words (Python.validateImport stdlibModuleNames config) nodes v)
      (visitAll words (validateEveryImport stdlibModuleNames config) nodes w)
  | [], v, w, h => by
    rw [Python.visitAll, Python.visitAll]
    exact h
  | node :: nodes, v, w, h => by
    rw [Python.visitAll, Python.visitAll]
    exact Agree.visitAll nodes (Agree.visit node h)

end

/-- **Both walks find violations** in the same trees. -/
theorem violations_eq_nil_iff (words : WordCharacters) (config : SecurityConfig) (tree : Node) :
    violations stdlibModuleNames words config tree = [] ↔
      everyViolation stdlibModuleNames words config tree = [] := by
  have hstart : Agree stdlibModuleNames config {} {} :=
    ⟨Iff.rfl, fun _ hmem => absurd hmem List.not_mem_nil⟩
  have hvisit : Agree stdlibModuleNames config (visit words _ tree {}) (visit words _ tree {}) :=
    hstart.visit tree
  exact hvisit.same

end Agree

end N8n.Python
