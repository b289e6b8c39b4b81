/-
Reading `$fromAI` calls out of an expression: `extractFromAICalls`.

The calls are found by a pattern, their arguments cut out up to the closing parenthesis, split
at the commas outside quotes, and stripped of their quotes.  Strings are lists of characters
here.

* `parsedBack_iff` — **a call with quoted arguments is read back as the one call it is** iff
  the pattern matches neither in the text around it nor in one of the strings, and no string has
  a backslash in front of a quote or of another backslash: the escapes are taken back twice.
-/
import N8n.ActiveWorkflows
import Mathlib.Data.List.TakeWhile

namespace N8n.FromAI

/-- `defaultValue`; numbers and parsed JSON are values of a type `V`. -/
inductive DefaultValue (V : Type*) where
  | string (value : List Char)
  | boolean (value : Bool)
  | other (value : V)
  deriving DecidableEq

structure FromAIArgument (V : Type*) where
  key : List Char
  description : Option (List Char)
  type : List Char
  defaultValue : Option (DefaultValue V)
  deriving DecidableEq

def quotes : List Char := ['"', '\'', '`']

def afterWord : List Char → List Char → Option (List Char)
  | [], s => some s
  | _ :: _, [] => none
  | w :: word, c :: s => if c.toLower = w then afterWord word s else none

/-- The rest after the opening parenthesis of the pattern, and the white space around it. -/
def afterParenthesis (s : List Char) : Option (List Char) :=
  match s.dropWhile isTrimmed with
  | '(' :: s => some (s.dropWhile isTrimmed)
  | _ => none

/-- The rest after a match of `/\$fromAI\s*\(\s*/i` at the start of the text. -/
def afterStart (s : List Char) : Option (List Char) :=
  (afterWord ['$', 'f', 'r', 'o', 'm', 'a', 'i'] s).bind afterParenthesis

/-- The loop over the characters of the arguments, with `parenthesesCount` and `quoteChar`: the
string it builds, if the parentheses are balanced. -/
def scan : ℕ → Option Char → List Char → Option (List Char)
  | 0, _, _ => some []
  | _ + 1, _, [] => none
  | _ + 1, some _, '\\' :: [] => none
  | count + 1, some quoteChar, '\\' :: char :: s =>
    (scan (count + 1) (some quoteChar) s).map fun args => '\\' :: char :: args
  | count + 1, some quoteChar, char :: s =>
    (scan (count + 1) (if char = quoteChar then none else some quoteChar) s).map (char :: ·)
  | count + 1, none, char :: s =>
    if char ∈ quotes then (scan (count + 1) (some char) s).map (char :: ·)
    else if char = '(' then (scan (count + 2) none s).map (char :: ·)
    else if char = ')' then
      (scan count none s).map fun args => if count > 0 then char :: args else args
    else (scan (count + 1) none s).map (char :: ·)

def trimmed (s : List Char) : List Char :=
  ((s.dropWhile isTrimmed).reverse.dropWhile isTrimmed).reverse

/-- The loop that splits the arguments, with `currentArg` and `quoteChar`. -/
def splitArguments : List Char → Option Char → List Char → List (List Char)
  | currentArg, _, [] => if currentArg = [] then [] else [trimmed currentArg]
  | currentArg, _, '\\' :: [] => if currentArg = [] then [] else [trimmed currentArg]
  | currentArg, quoteChar, '\\' :: char :: s => splitArguments (currentArg ++ [char]) quoteChar s
  | currentArg, quoteChar, char :: s =>
    if char ∈ quotes then
      splitArguments (currentArg ++ [char])
        (match quoteChar with
          | none => some char
          | some quoteChar => if char = quoteChar then none else some quoteChar) s
    else if char = ',' ∧ quoteChar = none then trimmed currentArg :: splitArguments [] none s
    else splitArguments (currentArg ++ [char]) quoteChar s

/-- `replace(/\\c/g, c)`: a backslash in front of the character is taken away. -/
def unescapeOne (c : Char) : List Char → List Char
  | '\\' :: d :: s => if d = c then c :: unescapeOne c s else '\\' :: unescapeOne c (d :: s)
  | d :: s => d :: unescapeOne c s
  | [] => []

def unescape (s : List Char) : List Char :=
  unescapeOne '\\' (unescapeOne '"' (unescapeOne '`' (unescapeOne '\'' s)))

def isQuoted (s : List Char) : Bool :=
  quotes.any fun quote => s.head? = some quote && s.getLast? = some quote

def cleanArgument (arg : List Char) : List Char :=
  let s := trimmed arg
  if isQuoted s then unescape s.tail.dropLast else s

def lowerCase (s : List Char) : List Char := s.map Char.toLower

def argumentTypes : List (List Char) :=
  ["string".toList, "number".toList, "boolean".toList, "json".toList]

section

variable {V : Type} (toNumber jsonParse : List Char → Option V)

/-- `toNumber` is `Number`, where it is not `NaN`, and `jsonParse` the parser, where it does
not throw. -/
def parseDefaultValue (value type : List Char) : DefaultValue V :=
  if type = "string".toList then .string value
  else if type = "boolean".toList ∧
      (lowerCase value = "true".toList ∨ lowerCase value = "false".toList) then
    .boolean (lowerCase value = "true".toList)
  else match (if type = "number".toList then toNumber value else none) with
    | some number => .other number
    | none => match jsonParse value with
      | some parsed => .other parsed
      | none => .string value

def parseArguments (argsString : List Char) : Except String (FromAIArgument V) :=
  let cleanArgs := (splitArguments [] none argsString).map cleanArgument
  let type := cleanArgs[2]?.getD "string".toList
  if lowerCase type ∉ argumentTypes then .error ("Invalid type: " ++ String.ofList type)
  else .ok {
    key := cleanArgs[0]?.getD []
    description := cleanArgs[1]?
    type := type
    defaultValue := cleanArgs[3]?.map fun value =>
      parseDefaultValue toNumber jsonParse value type }

def parseCall (s : List Char) : Except String (FromAIArgument V) :=
  match scan 1 none s with
  | none => .error ("Unbalanced parentheses while parsing $fromAI call: " ++ String.ofList s)
  | some argsString =>
    match parseArguments toNumber jsonParse argsString with
    | .error message => .error ("Failed to parse $fromAI arguments: " ++
        String.ofList argsString ++ ": Error: " ++ message)
    | .ok parsedArgs => .ok parsedArgs

/-- The loop over the matches: the next one is searched after so many characters. -/
def extractFrom : ℕ → List Char → Except String (List (FromAIArgument V))
  | _, [] => .ok []
  | skip + 1, _ :: s => extractFrom skip s
  | 0, c :: s =>
    match afterStart (c :: s) with
    | none => extractFrom 0 s
    | some rest => do
      let parsedArgs ← parseCall toNumber jsonParse rest
      let args ← extractFrom (s.length - rest.length) s
      return parsedArgs :: args

def extractFromAICalls (str : List Char) : Except String (List (FromAIArgument V)) :=
  extractFrom toNumber jsonParse 0 str

end

/-- A quote character. -/
inductive Quote where
  | single
  | double
  | backtick
  deriving DecidableEq

def Quote.char : Quote → Char
  | single => '\''
  | double => '"'
  | backtick => '`'

variable (q : Quote) (s : List Char)

def escape : List Char :=
  s.flatMap fun c => if c = q.char ∨ c = '\\' then ['\\', c] else [c]

def quoted : List Char := q.char :: (escape q s ++ [q.char])

/-- The arguments of a call, each quoted. -/
def argumentsText (key description value : List Char) : List Char :=
  quoted q key ++ ',' :: ' ' :: (quoted q description ++ ',' :: ' ' ::
    (quoted q "string".toList ++ ',' :: ' ' :: quoted q value))

def callText (key description value : List Char) : List Char :=
  ['$', 'f', 'r', 'o', 'm', 'A', 'I', '('] ++ argumentsText q key description value ++ [')']

theorem Quote.char_mem : q.char ∈ quotes := by
  cases q <;> decide

theorem Quote.char_ne_backslash : q.char ≠ '\\' := by
  cases q <;> decide

theorem escape_cons (c : Char) (s : List Char) :
    escape q (c :: s) = (if c = q.char ∨ c = '\\' then ['\\', c] else [c]) ++ escape q s := rfl

theorem scan_quoted (count : ℕ) (s rest : List Char) : scan (count + 1) none (quoted q s ++ rest) =
      (scan (count + 1) none rest).map (quoted q s ++ ·) := by
  have hinside : scan (count + 1) (some q.char) (escape q s ++ q.char :: rest) =
      (scan (count + 1) none rest).map fun args => escape q s ++ q.char :: args := by
    induction s with
    | nil =>
      rw [escape, List.flatMap_nil, List.nil_append, scan, if_pos rfl]
      · rfl
      · exact fun h => absurd h q.char_ne_backslash
      · exact fun _ _ h => absurd h q.char_ne_backslash
    | cons c s ih =>
      rw [escape_cons]
      split
      · simp only [List.cons_append, List.nil_append]
        rw [scan, ih, Option.map_map]
        rfl
      · next hc =>
        rw [not_or] at hc
        rw [List.cons_append, List.nil_append, List.cons_append, scan, if_neg hc.1, ih,
          Option.map_map]
        · rfl
        · exact fun h => absurd h hc.2
        · exact fun _ _ h => absurd h hc.2
  rw [quoted, List.cons_append, List.append_assoc, List.singleton_append, scan,
    if_pos q.char_mem, hinside, Option.map_map]
  congr 1
  funext args
  simp

theorem splitArguments_quoted (currentArg s rest : List Char) :
    splitArguments currentArg none (quoted q s ++ rest) =
      splitArguments (currentArg ++ q.char :: (s ++ [q.char])) none rest := by
  have hinside : ∀ currentArg,
      splitArguments currentArg (some q.char) (escape q s ++ q.char :: rest) =
        splitArguments (currentArg ++ (s ++ [q.char])) none rest := by
    induction s with
    | nil =>
      intro currentArg
      rw [escape, List.flatMap_nil, List.nil_append, splitArguments, if_pos q.char_mem]
      · simp
      · exact fun h => absurd h q.char_ne_backslash
      · exact fun _ _ h => absurd h q.char_ne_backslash
    | cons c s ih =>
      intro currentArg
      rw [escape_cons]
      split
      · simp only [List.cons_append, List.nil_append]
        rw [splitArguments, ih]
        simp
      · next hc =>
        rw [not_or] at hc
        rw [List.cons_append, List.nil_append, List.cons_append, splitArguments]
        · rw [if_neg hc.1, ih]
          split <;> simp
        · exact fun h => absurd h hc.2
        · exact fun _ _ h => absurd h hc.2
  rw [quoted, List.cons_append, List.append_assoc, List.singleton_append, splitArguments,
    if_pos q.char_mem, hinside]
  · simp
  · exact fun h => absurd h q.char_ne_backslash
  · exact fun _ _ h => absurd h q.char_ne_backslash

theorem scan_comma (count : ℕ) (rest : List Char) :
    scan (count + 1) none (',' :: ' ' :: rest) =
      (scan (count + 1) none rest).map fun args => ',' :: ' ' :: args := by
  simp [scan, quotes, Option.map_map, Function.comp_def]

variable (key description value rest : List Char)

theorem scan_argumentsText : scan 1 none (argumentsText q key description value ++ ')' :: rest) =
      some (argumentsText q key description value) := by
  have hend : scan 1 none (')' :: rest) = some [] := by
    simp [scan, quotes]
  simp only [argumentsText, List.append_assoc, List.cons_append]
  rw [scan_quoted, scan_comma, scan_quoted, scan_comma, scan_quoted, scan_comma, scan_quoted, hend]
  simp

theorem Quote.not_isTrimmed : isTrimmed q.char = false := by
  cases q <;> decide

theorem trimmed_quoted : trimmed (q.char :: (s ++ [q.char])) = q.char :: (s ++ [q.char]) := by
  have hfirst : (q.char :: (s ++ [q.char])).dropWhile isTrimmed = q.char :: (s ++ [q.char]) :=
    List.dropWhile_cons_of_neg (by rw [q.not_isTrimmed]; exact Bool.false_ne_true)
  have hlast : (q.char :: (s ++ [q.char])).reverse = q.char :: (s.reverse ++ [q.char]) := by simp
  rw [trimmed, hfirst, hlast,
    List.dropWhile_cons_of_neg (by rw [q.not_isTrimmed]; exact Bool.false_ne_true), ← hlast,
    List.reverse_reverse]

theorem trimmed_space_quoted :
    trimmed (' ' :: q.char :: (s ++ [q.char])) = q.char :: (s ++ [q.char]) := by
  have hspace : (' ' :: q.char :: (s ++ [q.char])).dropWhile isTrimmed =
      (q.char :: (s ++ [q.char])).dropWhile isTrimmed := List.dropWhile_cons_of_pos (by decide)
  rw [trimmed, hspace, ← trimmed, trimmed_quoted]

theorem splitArguments_comma {currentArg : List Char} (rest : List Char) :
    splitArguments currentArg none (',' :: ' ' :: rest) =
      trimmed currentArg :: splitArguments [' '] none rest := by
  rw [splitArguments, if_neg (by decide), if_pos ⟨rfl, rfl⟩, splitArguments, if_neg (by decide),
    if_neg (by decide)]
  · rfl
  all_goals simp

theorem splitArguments_argumentsText (key description value : List Char) :
    splitArguments [] none (argumentsText q key description value) =
      [key, description, "string".toList, value].map fun s => q.char :: (s ++ [q.char]) := by
  have hlast : splitArguments [' '] none (quoted q value) =
      [q.char :: (value ++ [q.char])] := by
    have hquoted := splitArguments_quoted q [' '] value []
    rw [List.append_nil] at hquoted
    rw [hquoted, splitArguments, if_neg (by simp), List.singleton_append, trimmed_space_quoted]
  rw [argumentsText, splitArguments_quoted, splitArguments_comma, splitArguments_quoted,
    splitArguments_comma, splitArguments_quoted, splitArguments_comma, hlast, List.nil_append,
    trimmed_quoted]
  simp only [List.singleton_append, trimmed_space_quoted]
  rfl

theorem cleanArgument_quoted : cleanArgument (q.char :: (s ++ [q.char])) = unescape s := by
  have hquoted : isQuoted (q.char :: (s ++ [q.char])) = true := by
    have hlast : (q.char :: (s ++ [q.char])).getLast? = some q.char := by
      rw [← List.cons_append, List.getLast?_concat]
    refine List.any_eq_true.mpr ⟨q.char, q.char_mem, ?_⟩
    rw [hlast]
    simp
  rw [cleanArgument, trimmed_quoted]
  simp [hquoted]

theorem parseArguments_argumentsText {V : Type} (toNumber jsonParse : List Char → Option V)
    (q : Quote) (key description value : List Char) :
    parseArguments toNumber jsonParse (argumentsText q key description value) =
      .ok ⟨unescape key, some (unescape description), "string".toList,
        some (.string (unescape value))⟩ := by
  have hclean : (splitArguments [] none (argumentsText q key description value)).map
      cleanArgument = [unescape key, unescape description, "string".toList, unescape value] := by
    rw [splitArguments_argumentsText]
    simp only [List.map_cons, List.map_nil, cleanArgument_quoted]
    have hstring : unescape "string".toList = "string".toList := by decide
    rw [hstring]
  rw [parseArguments, hclean]
  have htype : lowerCase "string".toList ∈ argumentTypes := by decide
  have hdefault : parseDefaultValue toNumber jsonParse (unescape value) "string".toList =
      .string (unescape value) := if_pos rfl
  refine (if_neg (not_not.mpr htype)).trans ?_
  rw [← hdefault]
  rfl

/-- The text has a backslash in front of a quote or of a backslash. -/
def HasEscape : Prop := ∃ c ∈ ['\'', '`', '"', '\\'], ['\\', c] <:+: s

variable {c : Char}

theorem pair_infix_cons {d : Char} {s : List Char} :
    ['\\', c] <:+: d :: s ↔ (d = '\\' ∧ ∃ t, s = c :: t) ∨ ['\\', c] <:+: s := by
  rw [List.infix_cons_iff, List.cons_prefix_cons]
  refine or_congr_left (and_congr eq_comm ⟨?_, ?_⟩)
  · rintro ⟨t, rfl⟩
    exact ⟨t, rfl⟩
  · rintro ⟨t, rfl⟩
    exact ⟨t, rfl⟩

theorem unescapeOne_eq_or_lt (c : Char) (s : List Char) :
    ¬ ['\\', c] <:+: s ∧ unescapeOne c s = s ∨
      ['\\', c] <:+: s ∧ (unescapeOne c s).length < s.length := by
  fun_induction unescapeOne c s with
  | case1 s ih =>
    refine .inr ⟨⟨[], s, rfl⟩, ?_⟩
    have hle : (unescapeOne c s).length ≤ s.length := by
      rcases ih with ⟨-, heq⟩ | ⟨-, hlt⟩
      · rw [heq]
      · exact hlt.le
    simp only [List.length_cons]
    omega
  | case2 d s hne ih =>
    have hiff : ['\\', c] <:+: '\\' :: d :: s ↔ ['\\', c] <:+: d :: s := by
      rw [pair_infix_cons]
      refine or_iff_right ?_
      rintro ⟨-, t, heq⟩
      exact hne (List.cons.inj heq).1
    rw [hiff]
    refine ih.imp (And.imp_right fun heq => by rw [heq]) (And.imp_right fun hlt => ?_)
    simp only [List.length_cons] at hlt ⊢
    omega
  | case3 d s h ih =>
    have hiff : ['\\', c] <:+: d :: s ↔ ['\\', c] <:+: s := by
      rw [pair_infix_cons]
      refine or_iff_right ?_
      rintro ⟨rfl, t, rfl⟩
      exact h c t rfl rfl
    rw [hiff]
    refine ih.imp (And.imp_right fun heq => by rw [heq]) (And.imp_right fun hlt => ?_)
    simp only [List.length_cons] at hlt ⊢
    omega
  | case4 => exact .inl ⟨by simp, rfl⟩

theorem length_unescapeOne_le (c : Char) (s : List Char) :
    (unescapeOne c s).length ≤ s.length := by
  rcases unescapeOne_eq_or_lt c s with ⟨-, heq⟩ | ⟨-, hlt⟩
  · rw [heq]
  · exact hlt.le

theorem unescapeOne_eq_self_iff {s : List Char} :
    unescapeOne c s = s ↔ ¬ ['\\', c] <:+: s := by
  rcases unescapeOne_eq_or_lt c s with ⟨hnot, heq⟩ | ⟨hin, hlt⟩
  · exact iff_of_true heq hnot
  · exact iff_of_false (fun heq => absurd (congrArg List.length heq) hlt.ne) (not_not.mpr hin)

/-- **The replacements leave a text alone** iff it has none of the pairs they look for. -/
theorem unescape_eq_self_iff {s : List Char} : unescape s = s ↔ ¬ HasEscape s := by
  have hpairs : ¬ HasEscape s ↔ unescapeOne '\'' s = s ∧ unescapeOne '`' s = s ∧
      unescapeOne '"' s = s ∧ unescapeOne '\\' s = s := by
    simp only [unescapeOne_eq_self_iff, HasEscape]
    simp
  rw [hpairs, unescape]
  constructor
  · intro h
    -- a replacement that shortens the text cannot be made up for
    have h1 := length_unescapeOne_le '\'' s
    have h2 := length_unescapeOne_le '`' (unescapeOne '\'' s)
    have h3 := length_unescapeOne_le '"' (unescapeOne '`' (unescapeOne '\'' s))
    have h4 := length_unescapeOne_le '\\' (unescapeOne '"' (unescapeOne '`' (unescapeOne '\'' s)))
    have hlen := congrArg List.length h
    have hsame : ∀ (c : Char) (t : List Char), (unescapeOne c t).length = t.length →
        unescapeOne c t = t := by
      intro c t ht
      rcases unescapeOne_eq_or_lt c t with ⟨-, heq⟩ | ⟨-, hlt⟩
      · exact heq
      · exact absurd ht hlt.ne
    have e1 := hsame '\'' s (by omega)
    rw [e1] at h2 h3 h4 h hlen
    have e2 := hsame '`' s (by omega)
    rw [e2] at h3 h4 h hlen
    have e3 := hsame '"' s (by omega)
    rw [e3] at h
    exact ⟨e1, e2, e3, h⟩
  · rintro ⟨e1, e2, e3, e4⟩
    rw [e1, e2, e3, e4]

/-- In how many places of the text a match of the pattern starts. -/
def callCount : List Char → ℕ
  | [] => 0
  | c :: s => (if (afterStart (c :: s)).isSome then 1 else 0) + callCount s

theorem toLower_eq_dollar_iff : c.toLower = '$' ↔ c = '$' := by
  constructor
  · intro h
    by_cases hup : 'A'.val ≤ c.val ∧ c.val ≤ 'Z'.val
    · -- a capital letter becomes a letter
      have hsum : c.toLower.val = c.val + ('a'.val - 'A'.val) := congrArg Char.val (dif_pos hup)
      have hval := congrArg UInt32.toNat (hsum.symm.trans (congrArg Char.val h))
      have hlow := UInt32.le_iff_toNat_le.mp hup.1
      have hhigh := UInt32.le_iff_toNat_le.mp hup.2
      simp only [UInt32.toNat_add] at hval
      simp at hval hlow hhigh
      omega
    · have hsame : c.toLower = c := dif_neg hup
      exact hsame.symm.trans h
  · rintro rfl
    rfl

theorem afterStart_of_ne (s : List Char) (h : c ≠ '$') : afterStart (c :: s) = none := by
  rw [afterStart, afterWord, if_neg fun hc => h (toLower_eq_dollar_iff.mp hc), Option.bind_none]

theorem callCount_cons_of_ne (s : List Char) (h : c ≠ '$') :
    callCount (c :: s) = callCount s := by
  rw [callCount, afterStart_of_ne s h]
  simp

/-- A character that no match goes through after its start. -/
structure Barrier (x : Char) : Prop where
  letter : x.toLower ∉ ['f', 'r', 'o', 'm', 'a', 'i']
  space : isTrimmed x = false
  parenthesis : x ≠ '('

variable {x : Char}

theorem afterWord_barrier {word : List Char} (hx : x.toLower ∉ word) (a b : List Char) :
    afterWord word (a ++ x :: b) = (afterWord word a).map (· ++ x :: b) := by
  induction word generalizing a with
  | nil => simp [afterWord]
  | cons w word ih =>
    rw [List.mem_cons, not_or] at hx
    rcases a with _ | ⟨c, a⟩
    · show (if x.toLower = w then _ else none) = none
      rw [if_neg hx.1]
    · rw [List.cons_append, afterWord, afterWord]
      split
      · exact ih hx.2 a
      · rfl

theorem afterParenthesis_barrier (hx : Barrier x) (a b : List Char) :
    (afterParenthesis (a ++ x :: b)).isSome = (afterParenthesis a).isSome := by
  have hdrop : (x :: b).dropWhile isTrimmed = x :: b :=
    List.dropWhile_cons_of_neg (by rw [hx.space]; exact Bool.false_ne_true)
  rw [afterParenthesis, afterParenthesis, List.dropWhile_append, hdrop]
  rcases ha : a.dropWhile isTrimmed with _ | ⟨c, a'⟩
  · simp only [List.isEmpty_nil, if_true]
    split
    · next heq => exact absurd (List.cons.inj heq).1 hx.parenthesis
    · rfl
  · simp only [List.isEmpty_cons, Bool.false_eq_true, if_false, List.cons_append]
    by_cases hc : c = '('
    · rw [hc]
      rfl
    · split
      · next heq => exact absurd (List.cons.inj heq).1 hc
      · split
        · next heq => exact absurd (List.cons.inj heq).1 hc
        · rfl

theorem afterStart_barrier (hx : Barrier x) (c : Char) (a b : List Char) :
    (afterStart (c :: a ++ x :: b)).isSome = (afterStart (c :: a)).isSome := by
  rw [afterStart, afterStart, List.cons_append, afterWord, afterWord]
  split
  · rw [afterWord_barrier hx.letter]
    rcases afterWord ['f', 'r', 'o', 'm', 'a', 'i'] a with _ | r
    · rfl
    · exact afterParenthesis_barrier hx r b
  · rfl

theorem callCount_barrier (hx : Barrier x) (a b : List Char) :
    callCount (a ++ x :: b) = callCount a + callCount (x :: b) := by
  induction a with
  | nil => rw [List.nil_append, callCount, Nat.zero_add]
  | cons c a ih =>
    rw [List.cons_append, callCount, ih, ← List.cons_append, afterStart_barrier hx]
    exact (Nat.add_assoc _ _ _).symm

theorem Quote.barrier : Barrier q.char := by
  cases q <;> exact ⟨by decide, by decide, by decide⟩

theorem barrier_backslash : Barrier '\\' := ⟨by decide, by decide, by decide⟩

theorem barrier_dollar : Barrier '$' := ⟨by decide, by decide, by decide⟩

theorem Quote.char_ne_dollar : q.char ≠ '$' := by
  cases q <;> decide

theorem escape_eq_or : escape q s = s ∨ ∃ a x b b', (x = q.char ∨ x = '\\') ∧ s = a ++ x :: b ∧
      escape q s = a ++ '\\' :: b' := by
  induction s with
  | nil => exact .inl rfl
  | cons c s ih =>
    rw [escape_cons]
    split
    · next hc => exact .inr ⟨[], c, s, c :: escape q s, hc, rfl, rfl⟩
    · rcases ih with heq | ⟨a, x, b, b', hx, hs, hescape⟩
      · exact .inl (congrArg (c :: ·) heq)
      · exact .inr ⟨c :: a, x, b, b', hx, congrArg (c :: ·) hs, congrArg (c :: ·) hescape⟩

theorem callCount_escape : callCount (escape q s) = callCount s := by
  induction s with
  | nil => rfl
  | cons c s ih =>
    rw [escape_cons]
    split
    · next hc =>
      have hne : c ≠ '$' := by
        rcases hc with rfl | rfl
        · exact q.char_ne_dollar
        · decide
      simp only [List.cons_append, List.nil_append]
      rw [callCount_cons_of_ne _ (by decide), callCount_cons_of_ne _ hne, ih,
        callCount_cons_of_ne _ hne]
    · rw [List.cons_append, List.nil_append, callCount, ih, callCount]
      -- the text up to the first escaped character decides
      have hstart : (afterStart (c :: escape q s)).isSome = (afterStart (c :: s)).isSome := by
        rcases escape_eq_or q s with heq | ⟨a, x, b, b', hx, hs, hescape⟩
        · rw [heq]
        · have hbarrier : Barrier x := by
            rcases hx with rfl | rfl
            · exact q.barrier
            · exact barrier_backslash
          rw [hescape, hs, ← List.cons_append, ← List.cons_append,
            afterStart_barrier barrier_backslash, afterStart_barrier hbarrier]
      rw [hstart]

theorem callCount_quoted (s rest : List Char) :
    callCount (quoted q s ++ rest) = callCount s + callCount rest := by
  rw [quoted, List.cons_append, callCount_cons_of_ne _ q.char_ne_dollar, List.append_assoc,
    List.singleton_append, callCount_barrier q.barrier, callCount_escape,
    callCount_cons_of_ne _ q.char_ne_dollar]

theorem callCount_comma (rest : List Char) : callCount (',' :: ' ' :: rest) = callCount rest := by
  rw [callCount_cons_of_ne _ (by decide), callCount_cons_of_ne _ (by decide)]

theorem callText_append : callText q key description value ++ rest =
      '$' :: (['f', 'r', 'o', 'm', 'A', 'I', '('] ++
        (argumentsText q key description value ++ ')' :: rest)) := by
  rw [callText, List.append_assoc, List.append_assoc, List.singleton_append, List.cons_append]

theorem afterStart_callText : afterStart (callText q key description value ++ rest) =
      some (argumentsText q key description value ++ ')' :: rest) := by
  have hword : afterWord ['$', 'f', 'r', 'o', 'm', 'a', 'i']
      (callText q key description value ++ rest) =
        some ('(' :: (argumentsText q key description value ++ ')' :: rest)) := by
    rw [callText_append]
    rfl
  have hquote : (argumentsText q key description value ++ ')' :: rest).dropWhile isTrimmed =
      argumentsText q key description value ++ ')' :: rest :=
    List.dropWhile_cons_of_neg (by rw [q.not_isTrimmed]; exact Bool.false_ne_true)
  rw [afterStart, hword, Option.bind_some, afterParenthesis,
    List.dropWhile_cons_of_neg (by decide)]
  simp only [hquote]

theorem callCount_callText : callCount (callText q key description value ++ rest) =
      1 + (callCount key + callCount description + callCount value + callCount rest) := by
  have hargs : callCount (argumentsText q key description value ++ ')' :: rest) =
      callCount key + callCount description + callCount value + callCount rest := by
    simp only [argumentsText, List.append_assoc, List.cons_append]
    rw [callCount_quoted, callCount_comma, callCount_quoted, callCount_comma, callCount_quoted,
      callCount_comma, callCount_quoted, callCount_cons_of_ne _ (by decide)]
    have hstring : callCount "string".toList = 0 := by decide
    rw [hstring]
    omega
  have hstart := afterStart_callText q key description value rest
  rw [callText_append] at hstart ⊢
  rw [callCount, hstart, Option.isSome_some, if_pos rfl]
  simp only [List.cons_append, List.nil_append]
  iterate 7 rw [callCount_cons_of_ne _ (by decide)]
  rw [hargs]

theorem exists_of_afterStart {s rest : List Char} (h : afterStart (c :: s) = some rest) :
    ∃ u, s = u ++ rest ∧ '$' ∉ u := by
  have hword : ∀ {word s r : List Char}, '$' ∉ word → afterWord word s = some r →
      ∃ u, s = u ++ r ∧ '$' ∉ u := by
    intro word
    induction word with
    | nil =>
      intro s r _ hr
      cases hr
      exact ⟨[], rfl, List.not_mem_nil⟩
    | cons w word ih =>
      intro s r hw hr
      rw [List.mem_cons, not_or] at hw
      rcases s with _ | ⟨d, s⟩
      · cases hr
      · rw [afterWord] at hr
        split at hr
        · next hd =>
          obtain ⟨u, rfl, hu⟩ := ih hw.2 hr
          refine ⟨d :: u, rfl, fun hmem => ?_⟩
          rcases List.mem_cons.mp hmem with rfl | hmem
          · exact hw.1 hd
          · exact hu hmem
        · cases hr
  have hspaces : ∀ s : List Char, ∃ u, s = u ++ s.dropWhile isTrimmed ∧ '$' ∉ u := by
    intro s
    refine ⟨s.takeWhile isTrimmed, (List.takeWhile_append_dropWhile).symm, fun hmem => ?_⟩
    exact absurd (List.mem_takeWhile_imp hmem) (by decide)
  rw [afterStart, afterWord] at h
  split at h
  · obtain ⟨r, hr, hrest⟩ := Option.bind_eq_some_iff.mp h
    obtain ⟨u, rfl, hu⟩ := hword (by decide) hr
    obtain ⟨v, hv, hv'⟩ := hspaces r
    rw [afterParenthesis] at hrest
    split at hrest
    · next t ht =>
      obtain ⟨w, hw, hw'⟩ := hspaces t
      refine ⟨u ++ (v ++ '(' :: w), ?_, ?_⟩
      · rw [← Option.some.inj hrest, List.append_assoc, List.append_assoc, List.cons_append, ← hw,
          ← ht, ← hv]
      · simp only [List.mem_append, List.mem_cons, not_or]
        exact ⟨hu, hv', by decide, hw'⟩
    · cases hrest
  · cases h

section

variable {V : Type} {toNumber jsonParse : List Char → Option V}

theorem extractFrom_drop (s : List Char) : ∀ skip,
    extractFrom toNumber jsonParse skip s = extractFrom toNumber jsonParse 0 (s.drop skip) := by
  induction s with
  | nil =>
    intro skip
    cases skip <;> rfl
  | cons c s ih =>
    intro skip
    rcases skip with _ | skip
    · rfl
    · exact ih skip

theorem extractFrom_cons_of_none {s : List Char} (h : afterStart (c :: s) = none) :
    extractFrom toNumber jsonParse 0 (c :: s) = extractFrom toNumber jsonParse 0 s := by
  rw [extractFrom]
  simp only [h]

theorem extractFrom_append_of_not_mem {u : List Char} (hu : '$' ∉ u) (s : List Char) :
    extractFrom toNumber jsonParse 0 (u ++ s) = extractFrom toNumber jsonParse 0 s := by
  induction u with
  | nil => rfl
  | cons c u ih =>
    rw [List.mem_cons, not_or] at hu
    rw [List.cons_append, extractFrom_cons_of_none (afterStart_of_ne _ (Ne.symm hu.1)), ih hu.2]

theorem extractFrom_cons_of_some {s rest : List Char}
    (h : afterStart (c :: s) = some rest) :
    extractFrom toNumber jsonParse 0 (c :: s) = do
      let parsedArgs ← parseCall toNumber jsonParse rest
      let args ← extractFrom toNumber jsonParse 0 s
      return parsedArgs :: args := by
  obtain ⟨u, rfl, hu⟩ := exists_of_afterStart h
  rw [extractFrom]
  simp only [h]
  rw [extractFrom_drop, extractFrom_append_of_not_mem hu]
  simp

/-- **There are as many results as matches**, if nothing is thrown. -/
theorem length_extractFrom {s : List Char} {args : List (FromAIArgument V)}
    (h : extractFrom toNumber jsonParse 0 s = .ok args) : args.length = callCount s := by
  induction s generalizing args with
  | nil =>
    cases h
    rfl
  | cons c s ih =>
    rcases hstart : afterStart (c :: s) with _ | rest
    · rw [extractFrom_cons_of_none hstart] at h
      rw [callCount, hstart, ih h]
      simp
    · rw [extractFrom_cons_of_some hstart] at h
      obtain ⟨parsedArgs, -, h⟩ := exists_of_bind_eq_ok h
      obtain ⟨rest', hrest, h⟩ := exists_of_bind_eq_ok h
      cases h
      rw [callCount, hstart, List.length_cons, ih hrest]
      simp [Nat.add_comm]

theorem extractFrom_of_callCount_eq_zero {s : List Char} (h : callCount s = 0) :
    extractFrom toNumber jsonParse 0 s = .ok [] := by
  induction s with
  | nil => rfl
  | cons c s ih =>
    rw [callCount] at h
    have hstart : afterStart (c :: s) = none := by
      rw [← Option.not_isSome_iff_eq_none]
      intro hsome
      rw [if_pos hsome] at h
      omega
    rw [extractFrom_cons_of_none hstart]
    exact ih (by omega)

theorem extractFrom_append_dollar {s : List Char} (h : callCount s = 0) (rest : List Char) :
    extractFrom toNumber jsonParse 0 (s ++ '$' :: rest) =
      extractFrom toNumber jsonParse 0 ('$' :: rest) := by
  induction s with
  | nil => rfl
  | cons c s ih =>
    rw [callCount] at h
    have hstart : afterStart (c :: s ++ '$' :: rest) = none := by
      rw [← Option.not_isSome_iff_eq_none, afterStart_barrier barrier_dollar]
      intro hsome
      rw [if_pos hsome] at h
      omega
    rw [List.cons_append] at hstart ⊢
    rw [extractFrom_cons_of_none hstart]
    exact ih (by omega)

end

/-- The one call that was written. -/
def written {V : Type} (key description value : List Char) : FromAIArgument V where
  key := key
  description := some description
  type := "string".toList
  defaultValue := some (.string value)

theorem extractFromAICalls_callText {V : Type} (toNumber jsonParse : List Char → Option V)
    (q : Quote) {before key description value after : List Char} (hbefore : callCount before = 0)
    (hafter : callCount (callText q key description value ++ after) = 1) :
    extractFromAICalls toNumber jsonParse
        (before ++ (callText q key description value ++ after)) =
      .ok [written (unescape key) (unescape description) (unescape value)] := by
  have hstart := afterStart_callText q key description value after
  have hrest : callCount (['f', 'r', 'o', 'm', 'A', 'I', '('] ++
      (argumentsText q key description value ++ ')' :: after)) = 0 := by
    rw [callText_append] at hstart hafter
    rw [callCount, hstart, Option.isSome_some, if_pos rfl] at hafter
    omega
  have hparse : parseCall toNumber jsonParse
      (argumentsText q key description value ++ ')' :: after) =
      .ok (written (unescape key) (unescape description) (unescape value)) := by
    rw [parseCall, scan_argumentsText]
    simp only [parseArguments_argumentsText]
    rfl
  rw [callText_append] at hstart ⊢
  rw [extractFromAICalls, extractFrom_append_dollar hbefore, extractFrom_cons_of_some hstart,
    hparse, extractFrom_of_callCount_eq_zero hrest]
  rfl

/-- **The calls that are read back as they were written**: no other match around or inside, and
no string with a pair that the replacements take for an escape. -/
theorem parsedBack_iff {V : Type} (toNumber jsonParse : List Char → Option V) (q : Quote)
    (before key description value after : List Char) :
    extractFromAICalls toNumber jsonParse
          (before ++ (callText q key description value ++ after)) =
        .ok [written key description value] ↔
      (∀ s ∈ [before, key, description, value, after], callCount s = 0) ∧
        ∀ s ∈ [key, description, value], ¬ HasEscape s := by
  have hcount : callCount (before ++ (callText q key description value ++ after)) =
      callCount before + callCount (callText q key description value ++ after) := by
    rw [callText_append, callCount_barrier barrier_dollar]
  have hwritten : (written (unescape key) (unescape description) (unescape value) :
        FromAIArgument V) = written key description value ↔
      ∀ s ∈ [key, description, value], ¬ HasEscape s := by
    simp only [written, FromAIArgument.mk.injEq, Option.some_inj, DefaultValue.string.injEq,
      true_and, unescape_eq_self_iff, List.forall_mem_cons]
    simp
  constructor
  · intro h
    -- one result, so one match: that of the call itself
    have hlen := length_extractFrom h
    rw [List.length_singleton, hcount, callCount_callText] at hlen
    have hzero : ∀ s ∈ [before, key, description, value, after], callCount s = 0 := by
      simp only [List.forall_mem_cons]
      refine ⟨?_, ?_, ?_, ?_, ?_, fun _ h => by cases h⟩ <;> omega
    refine ⟨hzero, hwritten.mp ?_⟩
    rw [extractFromAICalls_callText toNumber jsonParse q (hzero before (by simp))
      (by rw [callCount_callText]; omega)] at h
    exact (List.cons.inj (Except.ok.inj h)).1
  · rintro ⟨hzero, hescape⟩
    simp only [List.forall_mem_cons] at hzero
    obtain ⟨hbefore, hkey, hdescription, hvalue, hafter, -⟩ := hzero
    rw [extractFromAICalls_callText toNumber jsonParse q hbefore
      (by rw [callCount_callText, hkey, hdescription, hvalue, hafter]), hwritten.mpr hescape]

/-- A description with two backslashes, the start of a network path. -/
theorem not_parsedBack_networkPath :
    extractFromAICalls (V := ℕ) (fun _ => none) (fun _ => none)
        (callText .double ['k'] ['\\', '\\', 's'] []) ≠
      .ok [written ['k'] ['\\', '\\', 's'] []] := by
  decide +kernel

end N8n.FromAI
