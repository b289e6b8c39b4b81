/-
What `str.format` accesses, and when the check of format strings finds it.

Fields are resolved one after another, each as it is read, until the text is at its end or is no
format string from there on.  The names and numbers of arguments are taken to be there.

* **`soundAt_iff`** — at which texts the check finds what is accessed.
-/
import N8n.FormatStringCheck

namespace N8n.Python

/-- A step of an access path: an attribute or an index. -/
inductive Step where
  | attr (name : PyString)
  | index (text : PyString)
  deriving DecidableEq

/-- Where the reading of an access path stands, with what was read of the step. -/
inductive PathState where
  | first
  | attr (name : PyString)
  | index (text : PyString)
  /-- Behind an index. -/
  | closed

/-- Steps that are resolved, and if all of the text could be read. -/
abbrev Steps := List Step × Bool

/-- What comes next is resolved only if all before it could be. -/
def Steps.andThen (steps next : Steps) : Steps :=
  if steps.2 then (steps.1 ++ next.1, next.2) else steps

/-- The steps of an access path behind the name of the argument; a step may not be empty. -/
def accessSteps : PathState → PyString → Steps
  | .first, [] => ([], true)
  | .closed, [] => ([], true)
  | .attr name, [] => if name = [] then ([], false) else ([.attr name], true)
  | .index _, [] => ([], false)
  | .first, c :: rest =>
    if c = chr '.' then accessSteps (.attr []) rest
    else if c = chr '[' then accessSteps (.index []) rest
    else accessSteps .first rest
  | .closed, c :: rest =>
    if c = chr '.' then accessSteps (.attr []) rest
    else if c = chr '[' then accessSteps (.index []) rest
    else ([], false)
  | .attr name, c :: rest =>
    if c = chr '.' ∨ c = chr '[' then
      if name = [] then ([], false)
      else Steps.andThen ([.attr name], true)
        (accessSteps (if c = chr '.' then .attr [] else .index []) rest)
    else accessSteps (.attr (name ++ [c])) rest
  | .index text, c :: rest =>
    if c = chr ']' then
      if text = [] then ([], false)
      else Steps.andThen ([.index text], true) (accessSteps .closed rest)
    else accessSteps (.index (text ++ [c])) rest

structure Field where
  name : PyString
  conversion : Option CodePoint
  formatSpec : PyString
  rest : PyString

/-- The name of a field, the character it ends with, and the text behind that; brackets are skipped,
with whatever is in them. -/
def scanName : Bool → PyString → PyString → Option (PyString × CodePoint × PyString)
  | _, _, [] => none
  | true, name, c :: rest => scanName (c ≠ chr ']') (name ++ [c]) rest
  | false, name, c :: rest =>
    if c = chr '{' then none
    else if c = chr '}' ∨ c = chr ':' ∨ c = chr '!' then some (name, c, rest)
    else scanName (c = chr '[') (name ++ [c]) rest

/-- The format specification up to its closing brace, with the braces that are open in it. -/
def scanSpec : ℕ → PyString → PyString → Option (PyString × PyString)
  | _, _, [] => none
  | count, spec, c :: rest =>
    if c = chr '{' then scanSpec (count + 1) (spec ++ [c]) rest
    else if c = chr '}' then match count with
      | 0 => some (spec, rest)
      | count + 1 => scanSpec count (spec ++ [c]) rest
    else scanSpec count (spec ++ [c]) rest

variable (s : PyString)

/-- The parts of a field, unless the text ends before it does, or has a brace in its name. -/
def parseField : Option Field :=
  match scanName false [] s with
  | none => none
  | some (name, c, rest) =>
    let withSpec (conversion : Option CodePoint) (rest : PyString) : Option Field :=
      (scanSpec 0 [] rest).map fun (formatSpec, rest) => { name, conversion, formatSpec, rest }
    if c = chr '}' then some { name, conversion := none, formatSpec := [], rest }
    else if c = chr ':' then withSpec none rest
    else match rest with
      | conversion :: d :: rest =>
        if d = chr '}' then some { name, conversion := some conversion, formatSpec := [], rest }
        else if d = chr ':' then withSpec (some conversion) rest
        else none
      | _ => none

def isConversion (c : CodePoint) : Bool := c = chr 'r' ∨ c = chr 's' ∨ c = chr 'a'

/-- The steps of a field, and of the fields in its format specification. -/
def fieldSteps (nested : PyString → Steps) (field : Field) : Steps :=
  (accessSteps .first field.name).andThen
    (if field.conversion.all isConversion = false then ([], false)
    else if chr '{' ∈ field.formatSpec then nested field.formatSpec
    else ([], true))

def textSteps (nested : PyString → Steps) : ℕ → PyString → Steps
  | 0, _ => ([], false)
  | _ + 1, [] => ([], true)
  | bound + 1, [c] => if c = chr '{' ∨ c = chr '}' then ([], false) else textSteps nested bound []
  | bound + 1, c :: d :: rest =>
    if c = chr '{' then
      if d = chr '{' then textSteps nested bound rest
      else match parseField (d :: rest) with
        | none => ([], false)
        | some field => (fieldSteps nested field).andThen (textSteps nested bound field.rest)
    else if c = chr '}' then
      if d = chr '}' then textSteps nested bound rest else ([], false)
    else textSteps nested bound (d :: rest)

/-- The steps of a text, with a bound on how deep fields are nested. -/
def formatted : ℕ → PyString → Steps
  | 0, _ => ([], false)
  | depth + 1, s => textSteps (formatted depth) (s.length + 1) s

/-- What `s.format` accesses: fields may have fields in their format specification, and those no
other ones. -/
def resolvedSteps : List Step := (formatted 2 s).1

example : resolvedSteps (str "{{{0.a[b].c!r:>{w.d}}}}") =
    [.attr (str "a"), .index (str "b"), .attr (str "c"), .attr (str "d")] := by decide

def Resolves : Prop :=
  ∃ name, Blocked name ∧ (.attr name ∈ resolvedSteps s ∨ .index name ∈ resolvedSteps s)

/-- If a blocked name is accessed, a violation is found. -/
def SoundAt (words : WordCharacters) (s : PyString) : Prop :=
  Resolves s → checkFormatString words s ≠ []

def Step.text : Step → PyString
  | .attr name => chr '.' :: name
  | .index text => chr '[' :: (text ++ [chr ']'])

theorem Step.text_eq_cons (step : Step) : ∃ c tail, step.text = c :: tail := by
  cases step with
  | attr name => exact ⟨_, _, rfl⟩
  | index text => exact ⟨_, _, rfl⟩

def EndsName (c : CodePoint) : Prop :=
  c = chr '.' ∨ c = chr '[' ∨ c = chr '}' ∨ c = chr ':' ∨ c = chr '!'

variable {step : Step}

theorem mem_andThen {steps next : Steps} (h : step ∈ (steps.andThen next).1) :
    step ∈ steps.1 ∨ step ∈ next.1 := by
  rw [Steps.andThen] at h
  split at h
  · exact List.mem_append.mp h
  · exact .inl h

/-- What was read of the present step. -/
def PathState.read : PathState → PyString
  | .attr name => chr '.' :: name
  | .index text => chr '[' :: text
  | _ => []

theorem exists_of_mem_accessSteps : ∀ {s : PyString} {state : PathState},
    step ∈ (accessSteps state s).1 → ∃ u v, state.read ++ s = u ++ (step.text ++ v) ∧
      ∀ c ∈ v.head?, (∃ name, step = .attr name) → EndsName c := by
  intro s
  induction s with
  | nil =>
    intro state h
    cases state with
    | attr name =>
      rw [accessSteps] at h
      split at h
      · exact absurd h List.not_mem_nil
      · obtain rfl := List.mem_singleton.mp h
        exact ⟨[], [], rfl, fun c hc => by cases hc⟩
    | _ => exact absurd h List.not_mem_nil
  | cons c rest ih =>
    intro state h
    have hlater : ∀ (state' : PathState) (u : PyString), state.read ++ [c] = u ++ state'.read →
        step ∈ (accessSteps state' rest).1 → ∃ u v, state.read ++ c :: rest = u ++ (step.text ++ v) ∧
          ∀ c ∈ v.head?, (∃ name, step = .attr name) → EndsName c := by
      intro state' u hread hmem
      obtain ⟨u', v, heq, hv⟩ := ih hmem
      refine ⟨u ++ u', v, ?_, hv⟩
      rw [List.append_assoc, ← heq, ← List.append_assoc, ← hread, List.append_assoc]
      rfl
    cases state with
    | first =>
      rw [accessSteps] at h
      split at h
      · next hc => exact hlater (.attr []) [] (by rw [hc]; rfl) h
      · split at h
        · next hc => exact hlater (.index []) [] (by rw [hc]; rfl) h
        · exact hlater .first [c] rfl h
    | closed =>
      rw [accessSteps] at h
      split at h
      · next hc => exact hlater (.attr []) [] (by rw [hc]; rfl) h
      · split at h
        · next hc => exact hlater (.index []) [] (by rw [hc]; rfl) h
        · exact absurd h List.not_mem_nil
    | attr name =>
      rw [accessSteps] at h
      split at h
      · next hc =>
        split at h
        · exact absurd h List.not_mem_nil
        · rcases mem_andThen h with h | h
          · obtain rfl := List.mem_singleton.mp h
            refine ⟨[], c :: rest, rfl, ?_⟩
            rintro d ⟨⟩ -
            exact hc.imp_right .inl
          · split at h
            · next hdot => exact hlater (.attr []) (chr '.' :: name) (by rw [hdot]; rfl) h
            · next hdot =>
              exact hlater (.index []) (chr '.' :: name) (by rw [hc.resolve_left hdot]; rfl) h
      · exact hlater (.attr (name ++ [c])) [] rfl h
    | index text =>
      rw [accessSteps] at h
      split at h
      · next hc =>
        split at h
        · exact absurd h List.not_mem_nil
        · rcases mem_andThen h with h | h
          · obtain rfl := List.mem_singleton.mp h
            refine ⟨[], rest, ?_, ?_⟩
            · rw [hc, List.nil_append]
              show chr '[' :: (text ++ chr ']' :: rest) = chr '[' :: (text ++ [chr ']'] ++ rest)
              rw [List.append_assoc]
              rfl
            · rintro d - ⟨name, hname⟩
              cases hname
          · exact hlater .closed _ (List.append_nil _).symm h
      · exact hlater (.index (text ++ [c])) [] rfl h

/-- No index has a closing brace in it. -/
def PlainIndexes : Prop :=
  ∀ u x y, s = u ++ chr '[' :: (x ++ chr '}' :: y) → chr ']' ∈ x

theorem PlainIndexes.infix {a s b : PyString} (h : PlainIndexes (a ++ (s ++ b))) :
    PlainIndexes s := by
  rintro u x y rfl
  refine h (a ++ u) x (y ++ b) ?_
  rw [List.append_assoc, List.append_assoc, List.cons_append, List.append_assoc, List.cons_append]

def EndsField (c : CodePoint) : Prop := c = chr '}' ∨ c = chr ':' ∨ c = chr '!'

theorem of_scanName : ∀ {s name : PyString} {bracket : Bool} {name' : PyString} {c : CodePoint}
    {rest : PyString}, scanName bracket name s = some (name', c, rest) → PlainIndexes s →
    (bracket = true → ∀ x y, s = x ++ chr '}' :: y → chr ']' ∈ x) →
    ∃ more, name' = name ++ more ∧ s = more ++ c :: rest ∧ EndsField c ∧ chr '}' ∉ more := by
  intro s
  induction s with
  | nil =>
    intro name bracket name' c rest h
    cases bracket with
    | false => cases h
    | true => cases h
  | cons d s ih =>
    intro name bracket name' c rest h hplain hbracket
    have hs : PlainIndexes s := by
      have : PlainIndexes ([d] ++ (s ++ [])) := by rw [List.append_nil]; exact hplain
      exact this.infix
    have hgo : ∀ {bracket' : Bool}, scanName bracket' (name ++ [d]) s = some (name', c, rest) →
        (bracket' = true → ∀ x y, s = x ++ chr '}' :: y → chr ']' ∈ x) → d ≠ chr '}' →
        ∃ more, name' = name ++ more ∧ d :: s = more ++ c :: rest ∧ EndsField c ∧
          chr '}' ∉ more := by
      intro bracket' hscan hin hd
      obtain ⟨more, rfl, rfl, hc, hmore⟩ := ih hscan hs hin
      refine ⟨d :: more, List.append_assoc .., rfl, hc, ?_⟩
      rw [List.mem_cons, not_or]
      exact ⟨fun heq => hd heq.symm, hmore⟩
    cases bracket with
    | true =>
      rw [scanName] at h
      refine hgo h ?_ ?_
      · intro hopen x y heq
        have hmem := hbracket rfl (d :: x) y (by rw [heq]; rfl)
        exact (List.mem_cons.mp hmem).resolve_left fun heq => of_decide_eq_true hopen heq.symm
      · rintro rfl
        exact absurd (hbracket rfl [] s rfl) List.not_mem_nil
    | false =>
      rw [scanName] at h
      split at h
      · cases h
      · split at h
        · next hc =>
          cases h
          exact ⟨[], (List.append_nil _).symm, rfl, hc, List.not_mem_nil⟩
        · next hc =>
          refine hgo h ?_ fun heq => hc (.inl heq)
          intro hopen x y heq
          obtain rfl := of_decide_eq_true hopen
          exact hplain [] x y (by rw [heq]; rfl)

theorem of_scanSpec : ∀ {s spec : PyString} {count : ℕ} {spec' rest : PyString},
    scanSpec count spec s = some (spec', rest) →
    ∃ more, spec' = spec ++ more ∧ s = more ++ chr '}' :: rest := by
  intro s
  induction s with
  | nil =>
    intro spec count spec' rest h
    cases h
  | cons c s ih =>
    intro spec count spec' rest h
    have hgo : ∀ {count' : ℕ}, scanSpec count' (spec ++ [c]) s = some (spec', rest) →
        ∃ more, spec' = spec ++ more ∧ c :: s = more ++ chr '}' :: rest := by
      intro count' hscan
      obtain ⟨more, rfl, rfl⟩ := ih hscan
      exact ⟨c :: more, List.append_assoc .., rfl⟩
    rw [scanSpec.eq_def] at h
    simp only at h
    split at h
    · exact hgo h
    · split at h
      · next hc =>
        cases count with
        | zero =>
          cases h
          exact ⟨[], (List.append_nil _).symm, by rw [hc]; rfl⟩
        | succ count => exact hgo h
      · exact hgo h

/-- Where the parts of a field stand in the text behind its opening brace. -/
structure FieldIn (field : Field) : Prop where
  name : ∃ c tail, s = field.name ++ c :: tail ∧ EndsField c ∧ chr '}' ∈ c :: tail
  closed : chr '}' ∉ field.name
  formatSpec : field.formatSpec = [] ∨
    ∃ before, s = before ++ chr ':' :: (field.formatSpec ++ chr '}' :: field.rest)
  rest : ∃ before, s = before ++ chr '}' :: field.rest

variable {field : Field}

theorem fieldIn_of_parseField {s : PyString} (h : parseField s = some field)
    (hplain : PlainIndexes s) : FieldIn s field := by
  rw [parseField] at h
  split at h
  · cases h
  · next name c rest hscan =>
    obtain ⟨name, rfl, rfl, hc, hname⟩ := of_scanName hscan hplain fun hbracket => by cases hbracket
    have hspec : ∀ (before : PyString) {conversion : Option CodePoint} {rest' : PyString},
        c :: rest = before ++ chr ':' :: rest' →
        (scanSpec 0 [] rest').map (fun parts =>
          ({ name, conversion, formatSpec := parts.1, rest := parts.2 } : Field)) =
            some field → FieldIn (name ++ c :: rest) field := by
      intro before conversion rest' hbefore hmap
      obtain ⟨⟨spec, rest''⟩, hspec, rfl⟩ := Option.map_eq_some_iff.mp hmap
      obtain ⟨spec, rfl, rfl⟩ := of_scanSpec hspec
      have hmem : chr '}' ∈ c :: rest := by
        simp [hbefore]
      refine ⟨⟨c, rest, rfl, hc, hmem⟩, hname, .inr ⟨name ++ before, ?_⟩, ?_⟩
      · rw [hbefore, List.append_assoc]
      · refine ⟨name ++ (before ++ chr ':' :: spec), ?_⟩
        rw [hbefore, List.append_assoc, List.append_assoc]
        rfl
    simp only at h
    split at h
    · next heq =>
      cases h
      subst heq
      exact ⟨⟨_, rest, rfl, hc, List.mem_cons_self⟩, hname, .inl rfl, name, rfl⟩
    · split at h
      · next heq => exact hspec [] (by rw [heq]; rfl) h
      · split at h
        · next conversion d rest =>
          split at h
          · next heq =>
            cases h
            subst heq
            refine ⟨⟨c, _, rfl, hc, by simp⟩, hname, .inl rfl, name ++ [c, conversion], ?_⟩
            rw [List.append_assoc]
            rfl
          · split at h
            · next heq => exact hspec [c, conversion] (by rw [heq]; rfl) h
            · cases h
        · cases h

/-- Doubled opening braces do not go over the end of a text. -/
def Aligned (x : PyString) : Prop :=
  ∀ y, deleteDoubled (chr '{') (x ++ y) =
    deleteDoubled (chr '{') x ++ deleteDoubled (chr '{') y

variable {c : CodePoint}

theorem deleteDoubled_append {d : CodePoint} (hd : d ≠ c) : ∀ x y : PyString,
    deleteDoubled c (x ++ d :: y) = deleteDoubled c x ++ d :: deleteDoubled c y
  | [], [] => rfl
  | [], e :: y => by rw [List.nil_append, deleteDoubled, if_neg fun h => hd h.1]; rfl
  | [a], y => by
    rw [List.singleton_append, deleteDoubled, if_neg fun h => hd h.2]
    have := deleteDoubled_append hd [] y
    rw [List.nil_append] at this
    rw [this]
    rfl
  | a :: b :: x, y => by
    rw [List.cons_append, List.cons_append, deleteDoubled, deleteDoubled]
    split
    · exact deleteDoubled_append hd x y
    · have := deleteDoubled_append hd (b :: x) y
      rw [List.cons_append] at this
      rw [this]
      rfl

theorem aligned_nil : Aligned [] := fun _ => rfl

theorem aligned_concat (x : PyString) {d : CodePoint} (hd : d ≠ chr '{') : Aligned (x ++ [d]) := by
  intro y
  rw [List.append_assoc, List.singleton_append, deleteDoubled_append hd, deleteDoubled_append hd]
  rw [List.append_assoc]
  rfl

theorem Aligned.append {x y : PyString} (hx : Aligned x) (hy : Aligned y) :
    Aligned (x ++ y) := by
  intro z
  rw [List.append_assoc, hx, hy, hx, List.append_assoc]

theorem aligned_escape : Aligned [chr '{', chr '{'] := fun _ => rfl

/-- A step stands in a field, behind an opening brace that is not doubled and before a closing
one. -/
def Located (step : Step) : Prop :=
  ∃ x u v, s = x ++ chr '{' :: (u ++ (step.text ++ v)) ∧ Aligned x ∧
    (∀ c ∈ (u ++ step.text).head?, c ≠ chr '{') ∧ chr '}' ∉ u ∧ chr '}' ∈ v ∧
    ∀ c ∈ v.head?, (∃ name, step = .attr name) → EndsName c

theorem Located.append {s : PyString} (h : Located s step) (y : PyString) :
    Located (s ++ y) step := by
  obtain ⟨x, u, v, rfl, hx, hu, hopen, hclose, hv⟩ := h
  refine ⟨x, u, v ++ y, ?_, hx, hu, hopen, List.mem_append_left _ hclose, ?_⟩
  · simp only [List.append_assoc, List.cons_append]
  · intro c hc
    refine hv c ?_
    cases v with
    | nil => exact absurd hclose List.not_mem_nil
    | cons d v => exact hc

theorem Located.prepend {s x : PyString} (h : Located s step) (hx : Aligned x) :
    Located (x ++ s) step := by
  obtain ⟨x', u, v, rfl, hx', h⟩ := h
  exact ⟨x ++ x', u, v, (List.append_assoc ..).symm, hx.append hx', h⟩

theorem located_of_accessSteps {s : PyString}
    (hfield : FieldIn s field) (hfirst : ∀ c ∈ s.head?, c ≠ chr '{')
    (h : step ∈ (accessSteps .first field.name).1) : Located (chr '{' :: s) step := by
  obtain ⟨u, v, hname, hv⟩ := exists_of_mem_accessSteps h
  obtain ⟨c, tail, rfl, hc, hclose⟩ := hfield.name
  have hclosed := hfield.closed
  have hname : field.name = u ++ (step.text ++ v) := hname
  rw [hname] at hclosed hfirst ⊢
  refine ⟨[], u, v ++ c :: tail, ?_, aligned_nil, ?_, ?_, List.mem_append_right _ hclose, ?_⟩
  · simp only [List.append_assoc, List.nil_append]
  · intro d hd
    refine hfirst d ?_
    have hsplit : u ++ (step.text ++ v) ++ c :: tail = (u ++ step.text) ++ (v ++ c :: tail) := by
      simp only [List.append_assoc]
    rw [hsplit, List.head?_append, Option.mem_def.mp hd]
    rfl
  · exact fun hmem => hclosed (List.mem_append_left _ hmem)
  · intro d hd hattr
    cases v with
    | nil =>
      cases hd
      exact .inr (.inr hc)
    | cons e v => exact hv d hd hattr

theorem PlainIndexes.suffix {a s : PyString} (h : PlainIndexes (a ++ s)) : PlainIndexes s := by
  have : PlainIndexes (a ++ (s ++ [])) := by rw [List.append_nil]; exact h
  exact this.infix

variable {nested : PyString → Steps}

theorem located_of_fieldSteps {s : PyString} (hnested : ∀ spec, PlainIndexes spec → step ∈ (nested spec).1 →
      Located spec step)
    (hfield : FieldIn s field) (hplain : PlainIndexes s) (hfirst : ∀ c ∈ s.head?, c ≠ chr '{')
    (h : step ∈ (fieldSteps nested field).1) : Located (chr '{' :: s) step := by
  rcases mem_andThen h with h | h
  · exact located_of_accessSteps hfield hfirst h
  · split at h
    · exact absurd h List.not_mem_nil
    · split at h
      · next hbrace =>
        rcases hfield.formatSpec with hnil | ⟨before, heq⟩
        · rw [hnil] at hbrace
          exact absurd hbrace List.not_mem_nil
        · have hspec : PlainIndexes field.formatSpec := by
            have hplain' : PlainIndexes ((before ++ [chr ':']) ++
                (field.formatSpec ++ chr '}' :: field.rest)) := by
              rw [List.append_assoc, List.singleton_append, ← heq]
              exact hplain
            exact hplain'.infix
          have hlocated := ((hnested _ hspec h).append (chr '}' :: field.rest)).prepend
            (aligned_concat (chr '{' :: before) (d := chr ':') (by decide))
          rw [heq]
          rw [List.append_assoc] at hlocated
          exact hlocated
      · exact absurd h List.not_mem_nil

theorem located_of_textSteps
    (hnested : ∀ spec, PlainIndexes spec → step ∈ (nested spec).1 → Located spec step) :
    ∀ {bound : ℕ} {s : PyString}, PlainIndexes s → step ∈ (textSteps nested bound s).1 →
      Located s step := by
  intro bound
  induction bound with
  | zero => exact fun _ h => absurd h List.not_mem_nil
  | succ bound ih =>
    intro s hplain h
    rcases s with _ | ⟨c, _ | ⟨d, rest⟩⟩
    · exact absurd h List.not_mem_nil
    · rw [textSteps] at h
      split at h
      · exact absurd h List.not_mem_nil
      · next hc =>
        exact (ih (hplain.suffix (a := [c])) h).prepend
          (aligned_concat [] fun heq => hc (.inl heq))
    · rw [textSteps] at h
      split at h
      · next hc =>
        subst hc
        split at h
        · next hd =>
          subst hd
          exact (ih (hplain.suffix (a := [_, _])) h).prepend aligned_escape
        · next hd =>
          split at h
          · exact absurd h List.not_mem_nil
          · next field hfield =>
            have hrest : PlainIndexes (d :: rest) := hplain.suffix (a := [_])
            have hin := fieldIn_of_parseField hfield hrest
            rcases mem_andThen h with h | h
            · refine located_of_fieldSteps hnested hin hrest ?_ h
              rintro e ⟨⟩
              exact hd
            · obtain ⟨before, heq⟩ := hin.rest
              have hlater : PlainIndexes field.rest := by
                rw [heq] at hrest
                exact PlainIndexes.suffix (a := before ++ [chr '}']) (by simpa using hrest)
              have hlocated := (ih hlater h).prepend
                (aligned_concat (chr '{' :: before) (d := chr '}') (by decide))
              rw [heq]
              rw [List.append_assoc] at hlocated
              exact hlocated
      · next hc =>
        split at h
        · next hclose =>
          subst hclose
          split at h
          · next hd =>
            subst hd
            exact (ih (hplain.suffix (a := [_, _])) h).prepend
              (aligned_concat [chr '}'] (d := chr '}') (by decide))
          · exact absurd h List.not_mem_nil
        · exact (ih (hplain.suffix (a := [c])) h).prepend (aligned_concat [] hc)

theorem located_of_formatted : ∀ {depth : ℕ} {s : PyString}, PlainIndexes s →
    step ∈ (formatted depth s).1 → Located s step := by
  intro depth
  induction depth with
  | zero => exact fun _ h => absurd h List.not_mem_nil
  | succ depth ih => exact fun hplain h => located_of_textSteps (fun _ => ih) hplain h

/-- No index has a closing brace in it, and none are doubled, once doubled opening braces are
deleted. -/
def Plain : Prop :=
  PlainIndexes s ∧ ¬ [chr '}', chr '}'] <:+: deleteDoubled (chr '{') s

theorem deleteDoubled_of_absent : ∀ {s : PyString}, ¬ [c, c] <:+: s →
    deleteDoubled c s = s
  | [], _ => rfl
  | [_], _ => rfl
  | a :: b :: s, h => by
    rw [deleteDoubled, if_neg]
    · rw [deleteDoubled_of_absent fun hin => h (hin.trans (List.suffix_cons _ _).isInfix)]
    · rintro ⟨rfl, rfl⟩
      exact h ⟨[], s, rfl⟩

theorem mem_deleteDoubled {a : CodePoint} (ha : a ≠ c) : ∀ {s : PyString},
    a ∈ deleteDoubled c s ↔ a ∈ s
  | [] => Iff.rfl
  | [_] => Iff.rfl
  | b :: d :: s => by
    rw [deleteDoubled]
    split
    · next h =>
      rw [mem_deleteDoubled ha, List.mem_cons, List.mem_cons, h.1, h.2]
      exact ⟨fun hs => .inr (.inr hs), fun hs => (hs.resolve_left ha).resolve_left ha⟩
    · rw [List.mem_cons, mem_deleteDoubled ha, List.mem_cons (a := a) (b := b)]

theorem deleteDoubled_run (v : PyString) : ∀ {run : PyString}, c ∉ run →
    deleteDoubled c (run ++ v) = run ++ deleteDoubled c v := by
  intro run
  induction run with
  | nil => exact fun _ => rfl
  | cons d run ih =>
    intro h
    obtain ⟨hd, hrun⟩ := not_or.mp (List.mem_cons.not.mp h)
    have := deleteDoubled_append (Ne.symm hd) [] (run ++ v)
    rw [List.nil_append] at this
    rw [List.cons_append, this, ih hrun]
    rfl

section Sound

variable {words : WordCharacters} {name : PyString} {s : PyString} {step : Step}

theorem Blocked.not_mem (h : Blocked name) {c : Char} (hascii : c.toNat < 128)
    (hword : (c.isAlphanum || c == '_') = false) : chr c ∉ name := by
  intro hmem
  have hyes := (h.word asciiWords).2 _ hmem
  rw [asciiWords.ascii c hascii, hword] at hyes
  cases hyes

theorem EndsName.not_word (h : EndsName c) : words.isWord c = false := by
  rcases h with rfl | rfl | rfl | rfl | rfl
  · exact words.ascii '.' (by decide)
  · exact words.ascii '[' (by decide)
  · exact words.ascii '}' (by decide)
  · exact words.ascii ':' (by decide)
  · exact words.ascii '!' (by decide)

theorem EndsName.ne_open (h : EndsName c) : c ≠ chr '{' := by
  rcases h with rfl | rfl | rfl | rfl | rfl
  all_goals decide

variable (words) in
theorem head_deleteDoubled {v : PyString} (hv : ∀ c ∈ v.head?, EndsName c) :
    ∀ c ∈ (deleteDoubled (chr '{') v).head?, words.isWord c = false := by
  intro c hc
  cases v with
  | nil => cases hc
  | cons d v =>
    have hd := hv d rfl
    have heq := deleteDoubled_append hd.ne_open [] v
    rw [List.nil_append] at heq
    rw [heq] at hc
    cases hc
    exact hd.not_word

theorem accesses_of_step (hstep : step = .attr name ∨ step = .index name) (u : PyString)
    {w : PyString} (hw : (∃ name, step = .attr name) → ∀ c ∈ w.head?, words.isWord c = false) :
    Accesses words name (u ++ (step.text ++ w)) := by
  rcases hstep with rfl | rfl
  · exact .attr u w (hw ⟨name, rfl⟩)
  · have hindex : Accesses words name _ := .index u [] w
      ⟨Nat.zero_le _, fun c hc => absurd hc List.not_mem_nil⟩
    show Accesses words name (u ++ chr '[' :: (name ++ [chr ']'] ++ w))
    rw [List.append_assoc]
    exact hindex

theorem Blocked.not_mem_text (h : Blocked name) (hstep : step = .attr name ∨ step = .index name) :
    chr '{' ∉ step.text ∧ chr '}' ∉ step.text := by
  have hopen : chr '{' ∉ name := h.not_mem (by decide) (by decide)
  have hclose : chr '}' ∉ name := h.not_mem (by decide) (by decide)
  rcases hstep with rfl | rfl
  · refine ⟨?_, ?_⟩
    · rw [Step.text, List.mem_cons, not_or]
      exact ⟨by decide, hopen⟩
    · rw [Step.text, List.mem_cons, not_or]
      exact ⟨by decide, hclose⟩
  · refine ⟨?_, ?_⟩
    · rw [Step.text, List.mem_cons, List.mem_append, List.mem_singleton]
      exact fun hmem => hmem.elim (by decide) fun hmem => hmem.elim hopen (by decide)
    · rw [Step.text, List.mem_cons, List.mem_append, List.mem_singleton]
      exact fun hmem => hmem.elim (by decide) fun hmem => hmem.elim hclose (by decide)

theorem exposed_of_located (hplain : Plain s) (hblocked : Blocked name)
    (hstep : step = .attr name ∨ step = .index name) (h : Located s step) : Exposed words s := by
  have hkeep := deleteDoubled_of_absent hplain.2
  obtain ⟨x, u, v, rfl, hx, hfirst, hu, hclose, hv⟩ := h
  obtain ⟨hopenText, hcloseText⟩ := hblocked.not_mem_text hstep
  -- the opening brace is followed by another character, so it is not deleted
  have hbrace : deleteDoubled (chr '{') (chr '{' :: (u ++ (step.text ++ v))) =
      chr '{' :: deleteDoubled (chr '{') (u ++ (step.text ++ v)) := by
    obtain ⟨d, tail, htail⟩ := step.text_eq_cons
    have hne : u ++ step.text ≠ [] :=
      List.append_ne_nil_of_right_ne_nil _ (htail ▸ List.cons_ne_nil _ _)
    obtain ⟨c, rest, hcons⟩ := List.exists_cons_of_ne_nil hne
    rw [hcons] at hfirst
    rw [← List.append_assoc, hcons, List.cons_append, deleteDoubled,
      if_neg fun h => hfirst c rfl h.2]
  have htext : deleteDoubled (chr '{') (u ++ (step.text ++ v)) =
      deleteDoubled (chr '{') u ++ (step.text ++ deleteDoubled (chr '{') v) := by
    obtain ⟨c, tail, htail⟩ := step.text_eq_cons
    rw [htail, List.mem_cons, not_or] at hopenText
    rw [htail, List.cons_append, deleteDoubled_append (Ne.symm hopenText.1),
      deleteDoubled_run v hopenText.2]
    rfl
  obtain ⟨w, after, hw, hnot⟩ := List.eq_append_cons_of_mem
    ((mem_deleteDoubled (c := chr '{') (by decide)).mpr hclose)
  refine ⟨deleteDoubled (chr '{') x, deleteDoubled (chr '{') u ++ (step.text ++ w), after, ?_, ?_,
    name, hblocked, accesses_of_step hstep _ ?_⟩
  · rw [withoutEscapes, hkeep, hx, hbrace, htext, hw]
    simp only [List.append_assoc]
  · rw [List.mem_append, List.mem_append, mem_deleteDoubled (by decide)]
    exact fun hmem => hmem.elim hu fun hmem => hmem.elim hcloseText hnot
  · intro hattr c hc
    have hhead := head_deleteDoubled words fun d hd => hv d hd hattr
    rw [hw] at hhead
    cases w with
    | nil => cases hc
    | cons d w => exact hhead c hc

theorem exposed_of_resolves (hplain : Plain s) (h : Resolves s) : Exposed words s := by
  obtain ⟨name, hblocked, hattr | hindex⟩ := h
  · exact exposed_of_located hplain hblocked (.inl rfl) (located_of_formatted hplain.1 hattr)
  · exact exposed_of_located hplain hblocked (.inr rfl) (located_of_formatted hplain.1 hindex)

/-- **The check is sound at a text** iff the text is plain, or accesses no blocked name, or what is
left of it exposes one. -/
theorem soundAt_iff : SoundAt words s ↔ Plain s ∨ ¬ Resolves s ∨ Exposed words s := by
  rw [SoundAt, checkFormatString_ne_nil_iff]
  constructor
  · exact fun h => .inr (not_or_of_imp h)
  · rintro (hplain | hnone | hexposed) hresolves
    · exact exposed_of_resolves hplain hresolves
    · exact absurd hresolves hnone
    · exact hexposed

end Sound

/-- The field in the format specification accesses the class, and has no closing brace left. -/
theorem not_soundAt_nested : ¬ ∀ words s, SoundAt words s := by
  intro h
  have hresolves : Resolves (str "{0:{0.__class__}}") :=
    ⟨str "__class__", by decide, .inl (by decide)⟩
  exact absurd (h asciiWords _ hresolves) (by decide)

end N8n.Python
