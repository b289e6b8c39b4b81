/-
Renaming a node in an expression: `applyAccessPatterns`.

Four patterns for the ways in which an expression refers to a node are replaced one after
another, each with the old name escaped for the pattern and the new one for the replacement.
After the third, the dotted one, a callback puts a new name that has no dotted form into
brackets.  Strings are lists of characters here.

* **`renames_of_sound`** — when the references to the node, and nothing else, are renamed.
-/
import N8n.GlobalReplace

namespace N8n.NodeReferences

open GlobalReplace

/-- The characters of the expression `DOT_NOTATION_BANNED_CHARS`. -/
def bannedChars : List Char :=
  ['\\', ' ', '`', '!', '@', '#', '$', '%', '^', '&', '*', '(', ')', '_', '+', '-', '=', '[', ']',
    '{', '}', ';', '\'', ':', '"', '|', ',', '.', '<', '>', '?', '~']

def hasDotNotationBannedChar (nodeName : List Char) : Bool :=
  (nodeName.head?.any Char.isDigit) || nodeName.any fun c => c ∈ bannedChars

/-- The characters of the expression `BACKSLASH_ESCAPABLE_CHARS`. -/
def escapableChars : List Char :=
  ['.', '*', '+', '?', '^', '$', '{', '}', '(', ')', '|', '[', ']', '\\']

def backslashEscape (nodeName : List Char) : List Char :=
  nodeName.flatMap fun c => if c ∈ escapableChars then ['\\', c] else [c]

def dollarEscape (nodeName : List Char) : List Char :=
  nodeName.flatMap fun c => if c = '$' then ['$', '$'] else [c]

/-- What a pattern without operators matches: itself, but for the backslashes that escape. -/
def literal : List Char → List Char
  | '\\' :: c :: s => c :: literal s
  | c :: s => c :: literal s
  | [] => []

/-- What a replacement stands for: `$$` is a dollar, `$1` and `$2` are the groups.  There is no
third group, so a digit behind `$1` is a digit of its own. -/
def expand (group₁ group₂ : List Char) : List Char → List Char
  | '$' :: '$' :: s => '$' :: expand group₁ group₂ s
  | '$' :: '1' :: s => group₁ ++ expand group₁ group₂ s
  | '$' :: '2' :: s => group₂ ++ expand group₁ group₂ s
  | c :: s => c :: expand group₁ group₂ s
  | [] => []

/-- The forms of a reference with a name in quotes. -/
inductive Kind where
  | call
  | bracket
  | items
  deriving DecidableEq

def opening : Kind → List Char
  | .call => ['$', '(']
  | .bracket => ['$', 'n', 'o', 'd', 'e', '[']
  | .items => ['$', 'i', 't', 'e', 'm', 's', '(']

def closings : Kind → List Char
  | .call => [')']
  | .bracket => [']']
  | .items => [',', ')']

def nodeDot : List Char := ['$', 'n', 'o', 'd', 'e', '.']

def quotes : List Char := ['\'', '"']

def strip : List Char → List Char → Option (List Char)
  | [], s => some s
  | _ :: _, [] => none
  | a :: p, b :: s => if a = b then strip p s else none

/-- `(\$\(['"])name(['"]\))`, and the same with the other openings. -/
def quotedPattern (kind : Kind) (escapedOldName escapedNewName : List Char) : Pattern Char :=
  fun s => match strip (opening kind) s with
  | some (q :: s) =>
    if q ∈ quotes then match strip (literal escapedOldName) s with
      | some (q' :: x :: _) =>
        if q' ∈ quotes ∧ x ∈ closings kind then
          some ((opening kind).length + (literal escapedOldName).length + 3,
            expand (opening kind ++ [q]) [q', x] (['$', '1'] ++ escapedNewName ++ ['$', '2']))
        else none
      | _ => none
    else none
  | _ => none

def dottedPattern (escapedOldName escapedNewName : List Char) : Pattern Char :=
  fun s => match strip (nodeDot ++ literal escapedOldName) s with
  | some ('.' :: _) => some ((nodeDot ++ literal escapedOldName).length + 1,
      expand nodeDot ['.'] (['$', '1'] ++ escapedNewName ++ ['$', '2']))
  | some _ => some ((nodeDot ++ literal escapedOldName).length,
      expand nodeDot [] (['$', '1'] ++ escapedNewName ++ ['$', '2']))
  | none => none

/-- What `.` does not match. -/
def lineTerminators : List Char := ['\n', '\r', '\u2028', '\u2029']

/-- `.name( |\.)`, the pattern of the callback.  Its first letter is any character: of one that
takes two code units it would be the second unit only, which makes no difference to where it
matches. -/
def accessPattern (newName escapedNewName : List Char) : Pattern Char
  | [] => none
  | c :: s =>
    if c ∈ lineTerminators then none
    else match strip (literal (backslashEscape newName)) s with
      | some (x :: _) =>
        if x = ' ' ∨ x = '.' then some ((literal (backslashEscape newName)).length + 2,
          expand [x] [] (['[', '"'] ++ escapedNewName ++ ['"', ']', '$', '1']))
        else none
      | _ => none

def customCallback (newName escapedNewName expression : List Char) : List Char :=
  if hasDotNotationBannedChar newName then
    replaceAll (accessPattern newName escapedNewName) 0 expression
  else expression

def pass (checkPattern : List Char) (replace : List Char → List Char) (expression : List Char) :
    List Char :=
  if checkPattern <:+: expression then replace expression else expression

def applyAccessPatterns (expression previousName newName : List Char) : List Char :=
  if previousName <:+: expression then
    let escapedOldName := backslashEscape previousName
    let escapedNewName := dollarEscape newName
    let expression := pass (opening .call)
      (replaceAll (quotedPattern .call escapedOldName escapedNewName) 0) expression
    let expression := pass (opening .bracket)
      (replaceAll (quotedPattern .bracket escapedOldName escapedNewName) 0) expression
    let expression := pass nodeDot (fun expression =>
      customCallback newName escapedNewName
        (replaceAll (dottedPattern escapedOldName escapedNewName) 0 expression)) expression
    pass (opening .items)
      (replaceAll (quotedPattern .items escapedOldName escapedNewName) 0) expression
  else expression

/-- The letters of an identifier in an expression. -/
structure Identifiers where
  start : Char → Bool
  part : Char → Bool
  part_dollar : part '$' = true

/-- A name that can stand behind a dot. -/
def dottedName (names : Identifiers) : List Char → Bool
  | [] => false
  | c :: name => names.start c && name.all names.part

/-- A name that can stand between quotes as it is. -/
def quotable (quote : Char) (name : List Char) : Bool :=
  name.all fun c => c ∉ [quote, '\\', '\n', '\r']

/-- A reference to a node. -/
inductive Reference where
  | quoted (kind : Kind) (quote : Char)
  | dotted
  deriving DecidableEq

def text (name : List Char) : Reference → List Char
  | .quoted kind quote => opening kind ++ quote :: (name ++ [quote])
  | .dotted => nodeDot ++ name

def bracketed (quote : Char) : Reference := .quoted .bracket quote

def quotedAt (kind : Kind) (name s : List Char) : Option Reference :=
  match strip (opening kind) s with
  | some (q :: s) =>
    if q ∈ quotes ∧ quotable q name = true then match strip (name ++ [q]) s with
      | some (x :: _) => if x ∈ closings kind then some (.quoted kind q) else none
      | _ => none
    else none
  | _ => none

/-- `$node.name`, where the name is all that stands behind the dot. -/
def dottedAt (names : Identifiers) (name s : List Char) : Option Reference :=
  match strip (nodeDot ++ name) s with
  | some s => if dottedName names name && !(s.head?.any names.part) then some .dotted else none
  | none => none

/-- The reference to a node that a text starts with. -/
def referenceAt (names : Identifiers) (name s : List Char) : Option Reference :=
  (((quotedAt .call name s).or (quotedAt .bracket name s)).or (quotedAt .items name s)).or
    (dottedAt names name s)

/-- A text with the references to a node marked, if its first letters belong to one before. -/
def tokenize (names : Identifiers) (name : List Char) :
    ℕ → List Char → List (Token Char Reference)
  | _, [] => []
  | k + 1, _ :: s => tokenize names name k s
  | 0, c :: s => match referenceAt names name (c :: s) with
    | some r => .mark r :: tokenize names name ((text name r).length - 1) s
    | none => .letter c :: tokenize names name 0 s

/-- The texts that refer to a node in the position of a reference: the same form, or brackets for a
name behind a dot. -/
inductive Refers (names : Identifiers) (name : List Char) : Reference → List Char → Prop
  | quoted {kind : Kind} {q : Char} (h : quotable q name = true) :
    Refers names name (.quoted kind q) (text name (.quoted kind q))
  | dotted (h : dottedName names name = true) : Refers names name .dotted (text name .dotted)
  | bracketed {q : Char} (hq : q ∈ quotes) (h : quotable q name = true) :
    Refers names name .dotted (text name (bracketed q) ++ [']'])

/-- The text with its references written as references to a node, and no letter changed. -/
inductive Rewritten (names : Identifiers) (name : List Char) :
    List (Token Char Reference) → List Char → Prop
  | nil : Rewritten names name [] []
  | letter {a : Char} {ts : List (Token Char Reference)} {out : List Char}
    (h : Rewritten names name ts out) : Rewritten names name (.letter a :: ts) (a :: out)
  | mark {r : Reference} {ts : List (Token Char Reference)} {w out : List Char}
    (hw : Refers names name r w) (h : Rewritten names name ts out) :
    Rewritten names name (.mark r :: ts) (w ++ out)

/-- No reference to the node stands in the expression. -/
def Fresh (names : Identifiers) (name expression : List Char) : Prop :=
  tokenize names name 0 expression = expression.map .letter

/-- The references to the node become references to the new name, nothing else changes, and renaming
back gives the expression again, up to the form of the dotted references. -/
def Renames (names : Identifiers) (expression previousName newName : List Char) : Prop :=
  Rewritten names newName (tokenize names previousName 0 expression)
      (applyAccessPatterns expression previousName newName) ∧
    (Fresh names newName expression →
      Rewritten names previousName (tokenize names previousName 0 expression)
        (applyAccessPatterns (applyAccessPatterns expression previousName newName)
          newName previousName))

def isKind (kind : Kind) : Reference → Bool
  | .quoted kind' _ => kind' = kind
  | .dotted => false

def isDotted : Reference → Bool
  | .quoted _ _ => false
  | .dotted => true

/-- A dotted reference to a name that has no dotted form goes into brackets. -/
def target (newName : List Char) : Reference → List Char
  | .quoted kind q => text newName (.quoted kind q)
  | .dotted =>
    if hasDotNotationBannedChar newName then text newName (bracketed '"') ++ [']']
    else text newName .dotted

def swap (own : Reference → Bool) (write' write : Reference → List Char) (r : Reference) :
    List Char :=
  if own r then write' r else write r

section

variable (previousName newName : List Char)

/-- The references after the first pattern, the second, the third, and the callback. -/
def callsDone : Reference → List Char :=
  swap (isKind .call) (text newName) (text previousName)

def bracketsDone : Reference → List Char :=
  swap (isKind .bracket) (text newName) (callsDone previousName newName)

def dottedDone : Reference → List Char :=
  swap isDotted (text newName) (bracketsDone previousName newName)

def callbackDone : Reference → List Char :=
  swap isDotted (target newName) (bracketsDone previousName newName)

/-- Behind each dotted reference stands what the callback looks for, and no match of it starts
between the dollar and the dot. -/
def accessed : List (Token Char Reference) → Bool
  | [] => true
  | .letter _ :: ts => accessed ts
  | .mark (.quoted _ _) :: ts => accessed ts
  | .mark .dotted :: ts =>
    (ts.head? = some (.letter ' ') || ts.head? = some (.letter '.')) &&
      quiet (accessPattern newName (dollarEscape newName)) ['$', 'n', 'o', 'd', 'e']
        ('.' :: (newName ++ render (dottedDone previousName newName) ts)) &&
      accessed ts

/-- The new name can stand where the reference stands. -/
def writable (names : Identifiers) : Reference → Bool
  | .quoted _ q => quotable q newName
  | .dotted =>
    if hasDotNotationBannedChar newName then quotable '"' newName else dottedName names newName

/-- A pattern, in its turn, finds references of its own form only; the callback finds each dotted
reference, if there is a dot to look behind; and the new name can stand in each place. -/
structure Sound (names : Identifiers) (ts : List (Token Char Reference)) : Prop where
  calls : onlyAt (quotedPattern .call (backslashEscape previousName) (dollarEscape newName))
    (isKind .call) (text previousName) false ts = true
  brackets : onlyAt (quotedPattern .bracket (backslashEscape previousName) (dollarEscape newName))
    (isKind .bracket) (callsDone previousName newName) false ts = true
  dotted : onlyAt (dottedPattern (backslashEscape previousName) (dollarEscape newName))
    isDotted (bracketsDone previousName newName) false ts = true
  callback : hasDotNotationBannedChar newName = true →
    nodeDot <:+: render (bracketsDone previousName newName) ts →
    onlyAt (accessPattern newName (dollarEscape newName)) isDotted
        (dottedDone previousName newName) false ts = true ∧
      accessed previousName newName ts = true
  items : onlyAt (quotedPattern .items (backslashEscape previousName) (dollarEscape newName))
    (isKind .items) (callbackDone previousName newName) false ts = true
  writable : marksAll (writable newName names) ts = true

end

/-- The expression after the renaming, with the references to the new name marked. -/
def renamedTokens (newName : List Char) (ts : List (Token Char Reference)) :
    List (Token Char Reference) :=
  ts.flatMap fun t =>
    if t = .mark .dotted ∧ hasDotNotationBannedChar newName = true then
      [.mark (bracketed '"'), .letter ']']
    else [t]

/-- In the renamed expression the references to the new name are those that were renamed, and the
patterns find references only on the way back. -/
structure Returns (names : Identifiers) (expression previousName newName : List Char) : Prop where
  tokens : tokenize names newName 0
      (render (target newName) (tokenize names previousName 0 expression)) =
    renamedTokens newName (tokenize names previousName 0 expression)
  sound : newName <:+: render (target newName) (tokenize names previousName 0 expression) →
    Sound newName previousName names
      (renamedTokens newName (tokenize names previousName 0 expression))

theorem literal_cons {c : Char} (h : c ≠ '\\') (s : List Char) :
    literal (c :: s) = c :: literal s := by
  rw [literal]
  rintro c' s' rfl
  exact absurd rfl h

theorem literal_backslashEscape (name : List Char) : literal (backslashEscape name) = name := by
  induction name with
  | nil => rfl
  | cons c name ih =>
    rw [backslashEscape, List.flatMap_cons]
    by_cases hc : c ∈ escapableChars
    · rw [if_pos hc]
      exact congrArg (c :: ·) ih
    · rw [if_neg hc, List.singleton_append, literal_cons]
      · exact congrArg (c :: ·) ih
      · rintro rfl
        exact hc (by decide)

theorem expand_cons {c : Char} (h : c ≠ '$') (group₁ group₂ s : List Char) :
    expand group₁ group₂ (c :: s) = c :: expand group₁ group₂ s := by
  rw [expand] <;>
  · rintro s' rfl
    exact absurd rfl h

theorem expand_dollarEscape (group₁ group₂ name s : List Char) :
    expand group₁ group₂ (dollarEscape name ++ s) = name ++ expand group₁ group₂ s := by
  induction name with
  | nil => rfl
  | cons c name ih =>
    rw [dollarEscape, List.flatMap_cons]
    by_cases hc : c = '$'
    · rw [if_pos hc, hc]
      exact congrArg ('$' :: ·) ih
    · rw [if_neg hc, List.singleton_append, List.cons_append, expand_cons hc]
      exact congrArg (c :: ·) ih

theorem expand_groups (group₁ group₂ name : List Char) :
    expand group₁ group₂ (['$', '1'] ++ dollarEscape name ++ ['$', '2']) =
      group₁ ++ name ++ group₂ := by
  have h := expand_dollarEscape group₁ group₂ name ['$', '2']
  rw [List.append_assoc]
  show group₁ ++ expand group₁ group₂ (dollarEscape name ++ ['$', '2']) = _
  rw [h, List.append_assoc]
  simp [expand]

theorem strip_eq_some_iff {p s t : List Char} : strip p s = some t ↔ s = p ++ t := by
  induction p generalizing s with
  | nil => exact Option.some_inj.trans ⟨id, id⟩
  | cons a p ih =>
    cases s with
    | nil => simp [strip]
    | cons b s =>
      rw [strip]
      by_cases hab : a = b
      · rw [if_pos hab, ih, hab]
        simp
      · rw [if_neg hab]
        simp [Ne.symm hab]

section

variable {kind : Kind} {A B s rest : List Char} {q x : Char}

theorem quotedPattern_text (hq : q ∈ quotes) (hx : x ∈ closings kind) :
    quotedPattern kind (backslashEscape A) (dollarEscape B)
        ((text A (.quoted kind q) ++ [x]) ++ rest) =
      some ((text A (.quoted kind q) ++ [x]).length, text B (.quoted kind q) ++ [x]) := by
  have hopening : strip (opening kind) ((text A (.quoted kind q) ++ [x]) ++ rest) =
      some (q :: (A ++ q :: x :: rest)) := by
    rw [strip_eq_some_iff]
    simp [text]
  have hname : strip A (A ++ q :: x :: rest) = some (q :: x :: rest) := strip_eq_some_iff.mpr rfl
  simp only [quotedPattern, hopening, if_pos hq, literal_backslashEscape, hname,
    if_pos (And.intro hq hx), expand_groups]
  simp [text]
  omega

theorem opening_prefix_of_quotedPattern {escapedA escapedB : List Char}
    (h : (quotedPattern kind escapedA escapedB s).isSome = true) : opening kind <+: s := by
  rw [quotedPattern] at h
  split at h
  · next heq =>
    rw [strip_eq_some_iff] at heq
    exact ⟨_, heq.symm⟩
  · cases h

theorem quotedPattern_cons (h : x ≠ '$') {escapedA escapedB : List Char} :
    quotedPattern kind escapedA escapedB (x :: rest) = none := by
  by_contra hne
  have hsome := Option.isSome_iff_ne_none.mpr hne
  obtain ⟨t, ht⟩ := opening_prefix_of_quotedPattern hsome
  cases kind <;> exact h (List.cons.inj ht).1.symm

theorem ne_dollar_of_mem_closings (h : x ∈ closings kind) : x ≠ '$' := by
  rintro rfl
  cases kind <;> exact absurd h (by decide)

theorem replaceAll_quoted (hq : q ∈ quotes) (hx : x ∈ closings kind) :
    replaceAll (quotedPattern kind (backslashEscape A) (dollarEscape B)) 0
        (text A (.quoted kind q) ++ x :: rest) =
      text B (.quoted kind q) ++
        replaceAll (quotedPattern kind (backslashEscape A) (dollarEscape B)) 0 (x :: rest) := by
  rw [replaceAll_of_none (quotedPattern_cons (ne_dollar_of_mem_closings hx)),
    ← List.singleton_append, ← List.append_assoc,
    replaceAll_of_match (by simp) (quotedPattern_text hq hx), List.append_assoc,
    List.singleton_append]

theorem dottedPattern_cons (h : x ≠ '$') {escapedA escapedB : List Char} :
    dottedPattern escapedA escapedB (x :: rest) = none := by
  have hstrip : strip (nodeDot ++ literal escapedA) (x :: rest) = none := if_neg (Ne.symm h)
  rw [dottedPattern, hstrip]

theorem replaceAll_dotted :
    replaceAll (dottedPattern (backslashEscape A) (dollarEscape B)) 0 (text A .dotted ++ s) =
      text B .dotted ++ replaceAll (dottedPattern (backslashEscape A) (dollarEscape B)) 0 s := by
  have hstrip : ∀ s, strip (nodeDot ++ literal (backslashEscape A)) (text A .dotted ++ s) =
      some s := by
    intro s
    rw [literal_backslashEscape]
    exact strip_eq_some_iff.mpr rfl
  -- The pattern takes a dot behind the name along; it is written again as the second group.
  by_cases hdot : ∃ t, s = '.' :: t
  · obtain ⟨t, rfl⟩ := hdot
    have hmatch : dottedPattern (backslashEscape A) (dollarEscape B)
        ((text A .dotted ++ ['.']) ++ t) =
        some ((text A .dotted ++ ['.']).length, text B .dotted ++ ['.']) := by
      rw [List.append_assoc, List.singleton_append, dottedPattern, hstrip]
      show some _ = some _
      rw [expand_groups, literal_backslashEscape]
      simp [text, Nat.add_assoc]
    rw [replaceAll_of_none (dottedPattern_cons (by decide)), ← List.singleton_append,
      ← List.append_assoc, replaceAll_of_match (by simp) hmatch, List.append_assoc,
      List.singleton_append]
  · have hmatch : dottedPattern (backslashEscape A) (dollarEscape B) (text A .dotted ++ s) =
        some ((text A .dotted).length, text B .dotted) := by
      rw [dottedPattern, hstrip]
      split
      · next heq => exact absurd ⟨_, Option.some_inj.mp heq⟩ hdot
      · rw [expand_groups, literal_backslashEscape, List.append_nil]
        rfl
      · next heq => cases heq
    exact replaceAll_of_match (by simp [text, nodeDot]) hmatch

theorem replaceAll_of_not_mem {m : Pattern Char} {check : List Char}
    (hcheck : ∀ s, (m s).isSome = true → check <+: s) (h : ¬ check <:+: s) :
    replaceAll m 0 s = s := by
  refine replaceAll_eq_self fun t ht => ?_
  by_contra hne
  exact h ((hcheck t (Option.isSome_iff_ne_none.mpr hne)).isInfix.trans ht.isInfix)

theorem pass_quoted {escapedA escapedB : List Char} :
    pass (opening kind) (replaceAll (quotedPattern kind escapedA escapedB) 0) s =
      replaceAll (quotedPattern kind escapedA escapedB) 0 s := by
  rw [pass]
  split
  · rfl
  · next h =>
    exact (replaceAll_of_not_mem (fun _ => opening_prefix_of_quotedPattern) h).symm

end

section

variable {names : Identifiers} {kind : Kind} {A B s w rest : List Char} {r : Reference} {c : Char}
  {ts us : List (Token Char Reference)}

/-- What stands behind a reference. -/
def Follows (names : Identifiers) : Reference → List Char → Prop
  | .quoted kind q, rest => q ∈ quotes ∧ ∃ x ∈ closings kind, ∃ rest', rest = x :: rest'
  | .dotted, rest => rest.head?.any names.part = false

theorem quotedAt_sound (h : quotedAt kind A s = some r) :
    ∃ rest, s = text A r ++ rest ∧ Follows names r rest := by
  rw [quotedAt] at h
  split at h
  · next q s' hopening =>
    split at h
    · next hq =>
      split at h
      · next x rest hname =>
        split at h
        · next hx =>
          rw [strip_eq_some_iff] at hopening hname
          obtain rfl := Option.some_inj.mp h
          exact ⟨x :: rest, by simp [text, hopening, hname], hq.1, x, hx, rest, rfl⟩
        · cases h
      · cases h
    · cases h
  · cases h

theorem dottedAt_sound (h : dottedAt names A s = some r) :
    ∃ rest, s = text A r ++ rest ∧ Follows names r rest := by
  rw [dottedAt] at h
  split at h
  · next rest hstrip =>
    split at h
    · next hname =>
      rw [strip_eq_some_iff] at hstrip
      rw [Bool.and_eq_true, Bool.not_eq_true'] at hname
      obtain rfl := Option.some_inj.mp h
      exact ⟨rest, hstrip, hname.2⟩
    · cases h
  · cases h

theorem referenceAt_sound (h : referenceAt names A s = some r) :
    ∃ rest, s = text A r ++ rest ∧ Follows names r rest := by
  rw [referenceAt, Option.or_eq_some_iff, Option.or_eq_some_iff, Option.or_eq_some_iff] at h
  obtain ((hcall | ⟨-, hbracket⟩) | ⟨-, hitems⟩) | ⟨-, hdotted⟩ := h
  · exact quotedAt_sound hcall
  · exact quotedAt_sound hbracket
  · exact quotedAt_sound hitems
  · exact dottedAt_sound hdotted

theorem text_eq_cons (name : List Char) (r : Reference) : ∃ w, text name r = '$' :: w := by
  cases r with
  | quoted kind q => cases kind <;> exact ⟨_, rfl⟩
  | dotted => exact ⟨_, rfl⟩

theorem referenceAt_cons (h : c ≠ '$') : referenceAt names A (c :: s) = none := by
  by_contra hne
  obtain ⟨r, hr⟩ := Option.ne_none_iff_exists'.mp hne
  obtain ⟨rest, hs, -⟩ := referenceAt_sound hr
  obtain ⟨w, hw⟩ := text_eq_cons A r
  rw [hw] at hs
  exact h (List.cons.inj hs).1

theorem tokenize_skip : tokenize names A w.length (w ++ s) = tokenize names A 0 s := by
  induction w with
  | nil => rfl
  | cons c w ih => exact ih

theorem tokenize_letter (h : referenceAt names A (c :: s) = none) :
    tokenize names A 0 (c :: s) = .letter c :: tokenize names A 0 s := by
  rw [tokenize, h]

theorem tokenize_mark (h : referenceAt names A (text A r ++ rest) = some r) :
    tokenize names A 0 (text A r ++ rest) = .mark r :: tokenize names A 0 rest := by
  obtain ⟨w, hw⟩ := text_eq_cons A r
  rw [hw, List.cons_append] at h ⊢
  rw [tokenize, h]
  show Token.mark r :: tokenize names A ((text A r).length - 1) (w ++ rest) = _
  rw [hw]
  exact congrArg (Token.mark r :: ·) tokenize_skip

theorem tokenize_induction (names : Identifiers) (A : List Char) {motive : List Char → Prop}
    (nil : motive [])
    (letter : ∀ c s, referenceAt names A (c :: s) = none → motive s → motive (c :: s))
    (mark : ∀ r rest, referenceAt names A (text A r ++ rest) = some r → Follows names r rest →
      motive rest → motive (text A r ++ rest)) (s : List Char) : motive s := by
  -- A reference is passed as a whole, so the induction is on the length.
  induction hlength : s.length using Nat.strong_induction_on generalizing s with
  | _ n ih =>
    cases s with
    | nil => exact nil
    | cons c s =>
      cases hr : referenceAt names A (c :: s) with
      | none => exact letter c s hr (ih s.length (by simp [← hlength]) s rfl)
      | some r =>
        obtain ⟨rest, hs, hfollows⟩ := referenceAt_sound hr
        rw [hs] at hr ⊢
        refine mark r rest hr hfollows (ih rest.length ?_ rest rfl)
        obtain ⟨w, hw⟩ := text_eq_cons A r
        rw [← hlength, hs, hw, List.length_append]
        exact Nat.lt_add_of_pos_left (Nat.succ_pos _)

theorem render_tokenize : render (text A) (tokenize names A 0 s) = s := by
  induction s using tokenize_induction names A with
  | nil => rfl
  | letter c s hnone ih => rw [tokenize_letter hnone, render, ih]
  | mark r rest hr _ ih => rw [tokenize_mark hr, render, ih]

/-- Behind a marked reference stands a letter: what closes it, or one that does not belong to the
name; or the text ends. -/
def Behind : Reference → List (Token Char Reference) → Prop
  | .quoted kind q, us => q ∈ quotes ∧ ∃ x ∈ closings kind, ∃ vs, us = .letter x :: vs
  | .dotted, us => us = [] ∨ ∃ a vs, us = .letter a :: vs ∧ a ≠ '$'

theorem Follows.behind (h : Follows names r rest) : Behind r (tokenize names A 0 rest) := by
  cases r with
  | quoted kind q =>
    obtain ⟨hq, x, hx, rest', rfl⟩ := h
    exact ⟨hq, x, hx, _, tokenize_letter (referenceAt_cons (ne_dollar_of_mem_closings hx))⟩
  | dotted =>
    cases rest with
    | nil => exact .inl rfl
    | cons a rest =>
      have ha : a ≠ '$' := by
        rintro rfl
        exact absurd (names.part_dollar.symm.trans h) (by decide)
      exact .inr ⟨a, _, tokenize_letter (referenceAt_cons ha), ha⟩

theorem behind_of_suffix_tokenize (h : .mark r :: us <:+ tokenize names A 0 s) : Behind r us := by
  induction s using tokenize_induction names A with
  | nil => exact absurd (List.eq_nil_of_suffix_nil h) (by simp)
  | letter c s hnone ih =>
    rw [tokenize_letter hnone] at h
    obtain heq | hsuffix := List.suffix_cons_iff.mp h
    · exact nomatch (List.cons.inj heq).1
    · exact ih hsuffix
  | mark r' rest hr hfollows ih =>
    rw [tokenize_mark hr] at h
    obtain heq | hsuffix := List.suffix_cons_iff.mp h
    · obtain ⟨hmark, rfl⟩ := List.cons.inj heq
      obtain rfl := Token.mark.inj hmark
      exact hfollows.behind
    · exact ih hsuffix

/-- Behind each marked reference stands what the patterns look for. -/
def Wellformed (ts : List (Token Char Reference)) : Prop :=
  ∀ r us, .mark r :: us <:+ ts → Behind r us

theorem exists_of_isKind (h : isKind kind r = true) : ∃ q, r = .quoted kind q := by
  cases r with
  | quoted kind' q => exact ⟨q, by rw [of_decide_eq_true h]⟩
  | dotted => cases h

theorem eq_dotted_of_isDotted (h : isDotted r = true) : r = .dotted := by
  cases r with
  | quoted kind q => cases h
  | dotted => rfl

variable {write : Reference → List Char}

theorem replaces_quoted (hbehind : Behind r us) (hkind : isKind kind r = true)
    (hwrite : write r = text A r) :
    Replaces (quotedPattern kind (backslashEscape A) (dollarEscape B)) write
      (swap (isKind kind) (text B) write) r us := by
  obtain ⟨q, rfl⟩ := exists_of_isKind hkind
  obtain ⟨hq, x, hx, vs, rfl⟩ := hbehind
  refine .inr ⟨x, vs, rfl, ?_⟩
  rw [hwrite, replaceAll_quoted hq hx,
    replaceAll_of_none (quotedPattern_cons (ne_dollar_of_mem_closings hx)), swap, if_pos hkind]

theorem pass_quoted_render (hts : Wellformed ts)
    (honly : onlyAt (quotedPattern kind (backslashEscape A) (dollarEscape B)) (isKind kind) write
      false ts = true)
    (hwrite : ∀ r, isKind kind r = true → write r = text A r) :
    pass (opening kind) (replaceAll (quotedPattern kind (backslashEscape A) (dollarEscape B)) 0)
        (render write ts) =
      render (swap (isKind kind) (text B) write) ts := by
  rw [pass_quoted]
  refine replaceAll_render honly (fun r hr => ?_) fun r us hus hr =>
    replaces_quoted (hts r us hus) hr (hwrite r hr)
  rw [swap, hr, if_neg Bool.false_ne_true]

theorem replaces_dotted (hbehind : Behind r us) (hdotted : isDotted r = true)
    (hwrite : write r = text A r) :
    Replaces (dottedPattern (backslashEscape A) (dollarEscape B)) write
      (swap isDotted (text B) write) r us := by
  obtain rfl := eq_dotted_of_isDotted hdotted
  obtain rfl | ⟨a, vs, rfl, ha⟩ := hbehind
  · have h := replaceAll_dotted (A := A) (B := B) (s := [])
    rw [replaceAll, List.append_nil, List.append_nil] at h
    exact .inl ⟨rfl, by rw [hwrite, h, swap, if_pos hdotted]⟩
  · refine .inr ⟨a, vs, rfl, ?_⟩
    rw [hwrite, replaceAll_dotted, replaceAll_of_none (dottedPattern_cons ha), swap,
      if_pos hdotted]

theorem accessPattern_text {x : Char} (hx : x = ' ' ∨ x = '.') :
    accessPattern B (dollarEscape B) (('.' :: B ++ [x]) ++ rest) =
      some (('.' :: B ++ [x]).length, ['[', '"'] ++ B ++ ['"', ']'] ++ [x]) := by
  have hstrip : strip (literal (backslashEscape B)) ((B ++ [x]) ++ rest) = some (x :: rest) := by
    rw [strip_eq_some_iff, literal_backslashEscape, List.append_assoc, List.singleton_append]
  have hexpand := expand_dollarEscape [x] [] B ['"', ']', '$', '1']
  rw [List.cons_append, List.cons_append, accessPattern, if_neg (by decide), hstrip]
  show (if x = ' ' ∨ x = '.' then _ else _) = _
  rw [if_pos hx, literal_backslashEscape]
  show some (_, '[' :: '"' :: expand [x] [] (dollarEscape B ++ ['"', ']', '$', '1'])) = _
  rw [hexpand]
  simp [expand]

theorem replaces_accessed {x : Char} {vs : List (Token Char Reference)}
    (hwrite : write .dotted = text B .dotted) (hx : x = ' ' ∨ x = '.')
    (hquiet : quiet (accessPattern B (dollarEscape B)) ['$', 'n', 'o', 'd', 'e']
      ('.' :: (B ++ x :: render write vs)) = true) :
    replaceAll (accessPattern B (dollarEscape B)) 0 (write .dotted ++ x :: render write vs) =
      (text B (bracketed '"') ++ [']']) ++
        x :: replaceAll (accessPattern B (dollarEscape B)) 0 (render write vs) := by
  have hsplit : write .dotted ++ x :: render write vs =
      ['$', 'n', 'o', 'd', 'e'] ++ ('.' :: (B ++ x :: render write vs)) := by
    rw [hwrite]
    rfl
  have hfound : '.' :: (B ++ x :: render write vs) = ('.' :: B ++ [x]) ++ render write vs := by simp
  rw [hsplit, replaceAll_of_quiet hquiet, hfound,
    replaceAll_of_match (by simp) (accessPattern_text hx)]
  simp [text, bracketed, opening]

theorem accessed_of_suffix (h : accessed A B ts = true) (hsuffix : .mark .dotted :: us <:+ ts) :
    accessed A B (.mark .dotted :: us) = true := by
  induction ts with
  | nil => exact absurd (List.eq_nil_of_suffix_nil hsuffix) (by simp)
  | cons t ts ih =>
    obtain heq | hsuffix := List.suffix_cons_iff.mp hsuffix
    · rwa [heq]
    · refine ih ?_ hsuffix
      obtain _ | _ | _ := t
      · exact h
      · exact h
      · rw [accessed, Bool.and_eq_true] at h
        exact h.2

theorem customCallback_render
    (hsound : hasDotNotationBannedChar B = true →
      onlyAt (accessPattern B (dollarEscape B)) isDotted (dottedDone A B) false ts = true ∧
        accessed A B ts = true) :
    customCallback B (dollarEscape B) (render (dottedDone A B) ts) =
      render (callbackDone A B) ts := by
  rw [customCallback]
  split
  · next hbanned =>
    obtain ⟨honly, haccessed⟩ := hsound hbanned
    refine replaceAll_render honly (fun r hr => ?_) fun r us hus hr => ?_
    · rw [callbackDone, dottedDone, swap, swap, hr]
      rfl
    · obtain rfl := eq_dotted_of_isDotted hr
      have hbehind := accessed_of_suffix haccessed hus
      rw [accessed, Bool.and_eq_true, Bool.and_eq_true, Bool.or_eq_true, decide_eq_true_eq,
        decide_eq_true_eq] at hbehind
      obtain ⟨⟨hhead, hquiet⟩, -⟩ := hbehind
      obtain ⟨x, hx, vs, rfl⟩ : ∃ x, (x = ' ' ∨ x = '.') ∧ ∃ vs, us = .letter x :: vs := by
        obtain h | h := hhead <;>
        obtain ⟨vs, rfl⟩ := List.head?_eq_some_iff.mp h
        · exact ⟨' ', .inl rfl, vs, rfl⟩
        · exact ⟨'.', .inr rfl, vs, rfl⟩
      have htarget : callbackDone A B .dotted = text B (bracketed '"') ++ [']'] := by
        rw [callbackDone, swap, if_pos hr, target, if_pos hbanned]
      exact .inr ⟨x, vs, rfl, htarget ▸ replaces_accessed rfl hx hquiet⟩
  · next hbanned =>
    refine render_congr fun r _ => ?_
    rw [callbackDone, dottedDone, swap, swap]
    split
    · next hr =>
      obtain rfl := eq_dotted_of_isDotted hr
      rw [target, if_neg hbanned]
    · rfl

theorem pass_dotted_render (hts : Wellformed ts)
    (honly : onlyAt (dottedPattern (backslashEscape A) (dollarEscape B)) isDotted (bracketsDone A B)
      false ts = true)
    (hcallback : hasDotNotationBannedChar B = true → nodeDot <:+: render (bracketsDone A B) ts →
      onlyAt (accessPattern B (dollarEscape B)) isDotted (dottedDone A B) false ts = true ∧
        accessed A B ts = true) :
    pass nodeDot (fun expression => customCallback B (dollarEscape B)
        (replaceAll (dottedPattern (backslashEscape A) (dollarEscape B)) 0 expression))
        (render (bracketsDone A B) ts) =
      render (callbackDone A B) ts := by
  rw [pass]
  split
  · next hdot =>
    have hdotted : replaceAll (dottedPattern (backslashEscape A) (dollarEscape B)) 0
        (render (bracketsDone A B) ts) = render (dottedDone A B) ts := by
      refine replaceAll_render honly (fun r hr => ?_) fun r us hus hr =>
        replaces_dotted (hts r us hus) hr ?_
      · rw [dottedDone, swap, hr, if_neg Bool.false_ne_true]
      · rw [eq_dotted_of_isDotted hr]
        rfl
    rw [hdotted]
    exact customCallback_render fun hbanned => hcallback hbanned hdot
  · next hdot =>
    -- Without the dot there is no dotted reference to write in another way.
    refine render_congr fun r hr => ?_
    cases r with
    | quoted kind q => rfl
    | dotted =>
      have hstart : nodeDot <+: bracketsDone A B .dotted := List.prefix_append nodeDot A
      exact absurd (hstart.isInfix.trans (infix_render_of_mem hr)) hdot

theorem swap_items_callbackDone : swap (isKind .items) (text B) (callbackDone A B) = target B := by
  funext r
  obtain kind | _ := r
  · cases kind <;> rfl
  · rfl

/-- **The renaming, where the patterns find references only**: each reference becomes its target. -/
theorem applyAccessPatterns_render (hts : Wellformed ts) (hsound : Sound A B names ts)
    (hA : A <:+: render (text A) ts) :
    applyAccessPatterns (render (text A) ts) A B = render (target B) ts := by
  have hcalls := pass_quoted_render (B := B) hts hsound.calls fun _ _ => rfl
  have hbrackets := pass_quoted_render hts hsound.brackets fun r hr => by
    obtain ⟨q, rfl⟩ := exists_of_isKind hr
    rfl
  have hitems := pass_quoted_render hts hsound.items fun r hr => by
    obtain ⟨q, rfl⟩ := exists_of_isKind hr
    rfl
  rw [applyAccessPatterns, if_pos hA]
  show pass (opening .items) _ (pass nodeDot _ (pass (opening .bracket) _ (pass (opening .call) _
    (render (text A) ts)))) = _
  rw [hcalls]
  show pass (opening .items) _ (pass nodeDot _ (pass (opening .bracket) _
    (render (callsDone A B) ts))) = _
  rw [hbrackets]
  show pass (opening .items) _ (pass nodeDot _ (render (bracketsDone A B) ts)) = _
  rw [pass_dotted_render hts hsound.dotted hsound.callback, hitems, swap_items_callbackDone]

theorem infix_of_mem_tokenize (h : .mark r ∈ tokenize names A 0 s) : A <:+: s := by
  have htext : text A r <:+: render (text A) (tokenize names A 0 s) := infix_render_of_mem h
  rw [render_tokenize] at htext
  refine List.IsInfix.trans ?_ htext
  cases r with
  | quoted kind q => exact ⟨opening kind ++ [q], [q], by simp [text]⟩
  | dotted => exact (List.suffix_append nodeDot A).isInfix

theorem applyAccessPatterns_eq (h : A <:+: s → Sound A B names (tokenize names A 0 s)) :
    applyAccessPatterns s A B = render (target B) (tokenize names A 0 s) := by
  by_cases hA : A <:+: s
  · have hrender := applyAccessPatterns_render (fun _ _ => behind_of_suffix_tokenize) (h hA)
      (by rwa [render_tokenize])
    rwa [render_tokenize] at hrender
  · have hnone : render (target B) (tokenize names A 0 s) =
        render (text A) (tokenize names A 0 s) :=
      render_congr fun r hr => absurd (infix_of_mem_tokenize hr) hA
    rw [applyAccessPatterns, if_neg hA, hnone, render_tokenize]

theorem refers_target (h : writable B names r = true) : Refers names B r (target B r) := by
  cases r with
  | quoted kind q => exact .quoted h
  | dotted =>
    rw [writable] at h
    rw [target]
    split at h
    · next hbanned =>
      rw [if_pos hbanned]
      exact .bracketed (by decide) h
    · next hbanned =>
      rw [if_neg hbanned]
      exact .dotted h

theorem rewritten_render (h : ∀ r, .mark r ∈ ts → Refers names B r (write r)) :
    Rewritten names B ts (render write ts) := by
  induction ts with
  | nil => exact .nil
  | cons t ts ih =>
    have hrest := ih fun r hr => h r (List.mem_cons_of_mem t hr)
    cases t with
    | letter a => exact .letter hrest
    | mark r => exact .mark (h r List.mem_cons_self) hrest

theorem rewritten_applyAccessPatterns
    (h : A <:+: s → Sound A B names (tokenize names A 0 s)) :
    Rewritten names B (tokenize names A 0 s) (applyAccessPatterns s A B) := by
  rw [applyAccessPatterns_eq h]
  exact rewritten_render fun r hr =>
    refers_target (of_marksAll (h (infix_of_mem_tokenize hr)).writable hr)

theorem Rewritten.of_renamedTokens {out : List Char}
    (h : Rewritten names A (renamedTokens B ts) out) : Rewritten names A ts out := by
  induction ts generalizing out with
  | nil => exact h
  | cons t ts ih =>
    rw [renamedTokens, List.flatMap_cons] at h
    split at h
    · next ht =>
      obtain ⟨rfl, -⟩ := ht
      obtain _ | _ | ⟨hw, _ | ⟨hrest⟩⟩ := h
      cases hw with
      | quoted hquotable =>
        have hmark := Rewritten.mark (.bracketed (by decide) hquotable) (ih hrest)
        rwa [List.append_assoc] at hmark
    · cases t with
      | letter a =>
        obtain _ | ⟨hrest⟩ := h
        exact .letter (ih hrest)
      | mark r =>
        obtain _ | _ | ⟨hw, hrest⟩ := h
        exact .mark hw (ih hrest)

/-- **When the references to a node are renamed**: each pattern finds references of its form only,
and the new name can stand in their places; and when the renaming can be undone. -/
theorem renames_of_sound {names : Identifiers} {expression previousName newName : List Char}
    (h : previousName <:+: expression →
      Sound previousName newName names (tokenize names previousName 0 expression))
    (hback : Fresh names newName expression → Returns names expression previousName newName) :
    Renames names expression previousName newName := by
  refine ⟨rewritten_applyAccessPatterns h, fun hfresh => ?_⟩
  -- The way back renames the references of the renamed expression, which are the old ones.
  obtain ⟨htokens, hsound⟩ := hback hfresh
  have hreturn : Rewritten names previousName
      (tokenize names newName 0 (applyAccessPatterns expression previousName newName))
      (applyAccessPatterns (applyAccessPatterns expression previousName newName)
        newName previousName) := by
    refine rewritten_applyAccessPatterns fun hnew => ?_
    rw [applyAccessPatterns_eq h] at hnew ⊢
    rw [htokens]
    exact hsound hnew
  rw [applyAccessPatterns_eq h, htokens] at hreturn
  rw [applyAccessPatterns_eq h]
  exact hreturn.of_renamedTokens

end

/-- The letters of an identifier, without those outside of ASCII. -/
def asciiIdentifiers : Identifiers where
  start c := c.isAlpha || c = '_' || c = '$'
  part c := c.isAlphanum || c = '_' || c = '$'
  part_dollar := rfl

/-- `$node.A.x+$('A')` with `A` renamed to `B c`. -/
theorem renames_to_brackets :
    Renames asciiIdentifiers ['$', 'n', 'o', 'd', 'e', '.', 'A', '.', 'x', '+', '$', '(', '\'', 'A',
      '\'', ')'] ['A'] ['B', ' ', 'c'] :=
  renames_of_sound
    (fun _ => ⟨by decide, by decide, by decide, by decide, by decide, by decide⟩)
    fun _ => ⟨by decide, fun _ =>
      ⟨by decide, by decide, by decide, by decide, by decide, by decide⟩⟩

theorem Rewritten.eq_of_letters {names : Identifiers} {name s out : List Char}
    (h : Rewritten names name (s.map .letter) out) : out = s := by
  induction s generalizing out with
  | nil =>
    cases h
    rfl
  | cons a s ih =>
    cases h with
    | letter hrest => rw [ih hrest]

/-- In `$node.Apple.x` the name `Apple` becomes `Cpple` when `A` is renamed to `C`. -/
theorem not_renames_prefix :
    ¬ Renames asciiIdentifiers ['$', 'n', 'o', 'd', 'e', '.', 'A', 'p', 'p', 'l', 'e', '.', 'x']
      ['A'] ['C'] := by
  rintro ⟨h, -⟩
  have htokens : tokenize asciiIdentifiers ['A'] 0
      ['$', 'n', 'o', 'd', 'e', '.', 'A', 'p', 'p', 'l', 'e', '.', 'x'] =
      ['$', 'n', 'o', 'd', 'e', '.', 'A', 'p', 'p', 'l', 'e', '.', 'x'].map .letter := by decide
  rw [htokens] at h
  exact absurd h.eq_of_letters (by decide)

end N8n.NodeReferences
