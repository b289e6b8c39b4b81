/-
The check of format strings: `_check_format_string`.

Doubled braces are deleted; what stands between an opening brace and the next closing one is taken
for a field, and is searched for blocked names.

* **`checkFormatString_ne_nil_iff`** — some is found iff a blocked name is left between braces.
-/
import Mathlib.Data.List.TakeWhile
import N8n.PythonStrings

namespace N8n.Python

/-- The characters that `\\w` matches; those of ASCII are letters, digits and the underscore. -/
structure WordCharacters where
  isWord : CodePoint → Bool
  ascii : ∀ c : Char, c.toNat < 128 → isWord (chr c) = (c.isAlphanum || c == '_')

def asciiWords : WordCharacters where
  isWord c := (Char.ofNat c).isAlphanum || Char.ofNat c == '_'
  ascii c _ := by
    have hval : ((chr c : CodePoint) : ℕ) = c.toNat := rfl
    rw [hval, Char.ofNat_toNat]

def BLOCKED_NAMES : List PyString :=
  ["__loader__", "__builtins__", "__globals__", "__spec__", "__name__"].map str

def BLOCKED_ATTRIBUTES : List PyString :=
  [
    -- runtime attributes
    "__subclasses__", "__globals__", "__builtins__", "__traceback__", "tb_frame", "tb_next",
    "f_back", "f_globals", "f_locals", "f_code", "f_builtins", "__getattribute__", "__qualname__",
    "__module__", "gi_frame", "gi_code", "gi_yieldfrom", "cr_frame", "cr_code", "ag_frame",
    "ag_code", "obj", "__thisclass__", "__self_class__",
    -- introspection attributes
    "__base__", "__class__", "__bases__", "__code__", "__closure__", "__loader__", "__cached__",
    "__dict__", "__import__", "__mro__", "__init_subclass__", "__getattr__", "__setattr__",
    "__delattr__", "__self__", "__func__", "__wrapped__", "__annotations__", "__spec__"].map str

def Blocked (name : PyString) : Prop := name ∈ BLOCKED_ATTRIBUTES ∨ name ∈ BLOCKED_NAMES

instance : DecidablePred Blocked := fun name =>
  inferInstanceAs (Decidable (name ∈ BLOCKED_ATTRIBUTES ∨ name ∈ BLOCKED_NAMES))

/-- `FORMAT_FIELD_PATTERN.finditer(s)`, the groups; inside a field that was opened, what was read of
it is given. -/
def formatFields : Option PyString → PyString → List PyString
  | _, [] => []
  | none, c :: rest => if c = chr '{' then formatFields (some []) rest else formatFields none rest
  | some field, c :: rest =>
    if c = chr '}' then field :: formatFields none rest
    else formatFields (some (field ++ [c])) rest

variable (words : WordCharacters)

def attributeNames : PyString → List PyString
  | [] => []
  | c :: rest =>
    let name := rest.takeWhile words.isWord
    if c = chr '.' ∧ name ≠ [] then name :: attributeNames rest else attributeNames rest

def isQuote (c : CodePoint) : Bool := c = chr '\'' ∨ c = chr '"'

/-- `(['\"]?)(\w+)\1\]`, matched at the start: the second group. -/
def matchKey (s : PyString) : Option PyString :=
  let quote := s.takeWhile isQuote
  let rest := s.dropWhile isQuote
  let key := rest.takeWhile words.isWord
  if quote.length ≤ 1 ∧ key ≠ [] ∧ quote ++ [chr ']'] <+: rest.dropWhile words.isWord then some key
  else none

def subscriptKeys : PyString → List PyString
  | [] => []
  | c :: rest =>
    match if c = chr '[' then matchKey words rest else none with
    | some key => key :: subscriptKeys rest
    | none => subscriptKeys rest

def withoutEscapes (s : PyString) : PyString :=
  deleteDoubled (chr '}') (deleteDoubled (chr '{') s)

/-- `_check_format_string`: the names for which a violation is added. -/
def checkFormatString (s : PyString) : List PyString :=
  (formatFields none (withoutEscapes s)).flatMap fun field =>
    ((attributeNames words field) ++ (subscriptKeys words field)).filter fun name => Blocked name

section Fields

theorem of_mem_formatFields : ∀ {s : PyString} {open? : Option PyString} {field : PyString},
    field ∈ formatFields open? s →
    (∃ start rest after, open? = some start ∧ field = start ++ rest ∧
      s = rest ++ chr '}' :: after ∧ chr '}' ∉ rest) ∨
    ∃ before after, s = before ++ chr '{' :: (field ++ chr '}' :: after) ∧ chr '}' ∉ field := by
  intro s
  induction s with
  | nil =>
    intro open? field h
    cases open? with
    | none => exact absurd h List.not_mem_nil
    | some start => exact absurd h List.not_mem_nil
  | cons c s ih =>
    intro open? field h
    have hlater : ∀ {before after : PyString}, s = before ++ chr '{' :: (field ++ chr '}' :: after) →
        c :: s = (c :: before) ++ chr '{' :: (field ++ chr '}' :: after) := by
      intro before after heq
      rw [heq, List.cons_append]
    cases open? with
    | none =>
      rw [formatFields] at h
      split at h
      · next hc =>
        rcases ih h with ⟨start, rest, after, hstart, rfl, hs, hnot⟩ | ⟨before, after, hs, hnot⟩
        · cases hstart
          refine .inr ⟨[], after, ?_, hnot⟩
          rw [hc, hs]
          rfl
        · exact .inr ⟨c :: before, after, hlater hs, hnot⟩
      · rcases ih h with ⟨_, _, _, hnone, -⟩ | ⟨before, after, hs, hnot⟩
        · cases hnone
        · exact .inr ⟨c :: before, after, hlater hs, hnot⟩
    | some start =>
      rw [formatFields] at h
      split at h
      · next hc =>
        rcases List.mem_cons.mp h with rfl | h
        · refine .inl ⟨field, [], s, rfl, (List.append_nil _).symm, ?_, List.not_mem_nil⟩
          rw [hc]
          rfl
        · rcases ih h with ⟨_, _, _, hnone, -⟩ | ⟨before, after, hs, hnot⟩
          · cases hnone
          · exact .inr ⟨c :: before, after, hlater hs, hnot⟩
      · next hc =>
        rcases ih h with ⟨_, rest, after, hstart, rfl, hs, hnot⟩ | ⟨before, after, hs, hnot⟩
        · cases hstart
          refine .inl ⟨start, c :: rest, after, rfl, List.append_assoc .., ?_, ?_⟩
          · rw [hs]
            rfl
          · rw [List.mem_cons, not_or]
            exact ⟨fun heq => hc heq.symm, hnot⟩
        · exact .inr ⟨c :: before, after, hlater hs, hnot⟩

theorem formatFields_some (after : PyString) : ∀ {field start : PyString}, chr '}' ∉ field →
    formatFields (some start) (field ++ chr '}' :: after) =
      (start ++ field) :: formatFields none after := by
  intro field
  induction field with
  | nil =>
    intro start _
    rw [List.nil_append, formatFields, if_pos rfl, List.append_nil]
  | cons c field ih =>
    intro start hnot
    obtain ⟨hc, hfield⟩ := not_or.mp (List.mem_cons.not.mp hnot)
    rw [List.cons_append, formatFields, if_neg (fun heq => hc heq.symm), ih hfield,
      List.append_assoc]
    rfl

theorem formatFields_append (rest : PyString) : ∀ (s : PyString) (open? : Option PyString),
    ∃ fields open?', formatFields open? (s ++ rest) = fields ++ formatFields open?' rest := by
  intro s
  induction s with
  | nil => exact fun open? => ⟨[], open?, rfl⟩
  | cons c s ih =>
    intro open?
    cases open? with
    | none =>
      rw [List.cons_append, formatFields]
      split
      · exact ih (some [])
      · exact ih none
    | some start =>
      rw [List.cons_append, formatFields]
      split
      · obtain ⟨fields, open?', heq⟩ := ih none
        exact ⟨start :: fields, open?', by rw [heq]; rfl⟩
      · exact ih (some (start ++ [c]))

theorem exists_mem_formatFields (before : PyString) {field : PyString} (after : PyString)
    (hnot : chr '}' ∉ field) :
    ∃ start, start ++ field ∈
      formatFields none (before ++ chr '{' :: (field ++ chr '}' :: after)) := by
  obtain ⟨fields, open?, heq⟩ :=
    formatFields_append (chr '{' :: (field ++ chr '}' :: after)) before none
  rw [heq]
  cases open? with
  | none =>
    rw [formatFields, if_pos rfl, formatFields_some after hnot]
    exact ⟨[], List.mem_append_right _ List.mem_cons_self⟩
  | some start =>
    rw [formatFields, if_neg (by decide), formatFields_some after hnot]
    exact ⟨start ++ [chr '{'], List.mem_append_right _ List.mem_cons_self⟩

end Fields

section Names

variable {words : WordCharacters} {name : PyString}

theorem takeWhile_append_run {p : CodePoint → Bool} {run v : PyString}
    (hrun : ∀ c ∈ run, p c = true) (hv : ∀ c ∈ v.head?, p c = false) :
    (run ++ v).takeWhile p = run ∧ (run ++ v).dropWhile p = v := by
  rw [List.takeWhile_append_of_pos hrun, List.dropWhile_append_of_pos hrun]
  cases v with
  | nil => exact ⟨List.append_nil _, rfl⟩
  | cons c v =>
    have hc : ¬ p c = true := by rw [hv c rfl]; exact Bool.false_ne_true
    rw [List.takeWhile_cons_of_neg hc, List.dropWhile_cons_of_neg hc]
    exact ⟨List.append_nil _, rfl⟩

theorem head_dropWhile_isWord (s : PyString) :
    ∀ c ∈ (s.dropWhile words.isWord).head?, words.isWord c = false := by
  intro c hc
  have := List.head?_dropWhile_not words.isWord s
  rw [Option.mem_def.mp hc] at this
  exact this

variable {field : PyString}

theorem mem_attributeNames (hne : name ≠ []) (hname : ∀ c ∈ name, words.isWord c = true) : name ∈ attributeNames words field ↔
      ∃ u v, field = u ++ chr '.' :: (name ++ v) ∧ ∀ c ∈ v.head?, words.isWord c = false := by
  induction field with
  | nil =>
    refine iff_of_false List.not_mem_nil ?_
    rintro ⟨u, v, heq, -⟩
    exact absurd heq.symm (List.append_ne_nil_of_right_ne_nil _ (List.cons_ne_nil _ _))
  | cons c rest ih =>
    have hsplit : (∃ u v, c :: rest = u ++ chr '.' :: (name ++ v) ∧
        ∀ c ∈ v.head?, words.isWord c = false) ↔
        (c = chr '.' ∧ rest.takeWhile words.isWord = name) ∨
          ∃ u v, rest = u ++ chr '.' :: (name ++ v) ∧ ∀ c ∈ v.head?, words.isWord c = false := by
      constructor
      · rintro ⟨_ | ⟨d, u⟩, v, heq, hv⟩
        · cases heq
          exact .inl ⟨rfl, (takeWhile_append_run hname hv).1⟩
        · cases heq
          exact .inr ⟨u, v, rfl, hv⟩
      · rintro (⟨rfl, htake⟩ | ⟨u, v, rfl, hv⟩)
        · refine ⟨[], rest.dropWhile words.isWord, ?_, head_dropWhile_isWord rest⟩
          rw [← htake, List.takeWhile_append_dropWhile]
          rfl
        · exact ⟨c :: u, v, rfl, hv⟩
    rw [hsplit, ← ih, attributeNames]
    split
    · next hfound =>
      rw [List.mem_cons]
      exact or_congr ⟨fun heq => ⟨hfound.1, heq.symm⟩, fun heq => heq.2.symm⟩ Iff.rfl
    · next hnone =>
      refine (or_iff_right fun hfound => hnone ⟨hfound.1, ?_⟩).symm
      rw [hfound.2]
      exact hne

theorem isWord_quote {c : CodePoint} (h : isQuote c = true) : words.isWord c = false := by
  rcases of_decide_eq_true h with rfl | rfl
  · exact words.ascii '\'' (by decide)
  · exact words.ascii '"' (by decide)

/-- A quote, or none. -/
def IsQuoting (quote : PyString) : Prop := quote.length ≤ 1 ∧ ∀ c ∈ quote, isQuote c = true

theorem matchKey_eq_some_iff (hne : name ≠ []) (hname : ∀ c ∈ name, words.isWord c = true)
    {s : PyString} : matchKey words s = some name ↔
      ∃ quote v, IsQuoting quote ∧ s = quote ++ (name ++ (quote ++ chr ']' :: v)) := by
  constructor
  · intro h
    rw [matchKey] at h
    split at h
    · next hfound =>
      obtain ⟨hlen, -, v, hv⟩ := hfound
      obtain rfl := Option.some.inj h
      refine ⟨s.takeWhile isQuote, v, ⟨hlen, fun c hc => List.mem_takeWhile_imp hc⟩, ?_⟩
      rw [List.append_cons, hv, List.takeWhile_append_dropWhile, List.takeWhile_append_dropWhile]
    · cases h
  · rintro ⟨quote, v, ⟨hlen, hquote⟩, rfl⟩
    have hfirst : ∀ c ∈ (name ++ (quote ++ chr ']' :: v)).head?, isQuote c = false := by
      obtain ⟨first, rest, rfl⟩ := List.exists_cons_of_ne_nil hne
      rintro c ⟨⟩
      by_contra hc
      rw [Bool.not_eq_false] at hc
      exact absurd ((hname first List.mem_cons_self).symm.trans (isWord_quote hc))
        Bool.false_ne_true.symm
    have hlast : ∀ c ∈ (quote ++ chr ']' :: v).head?, words.isWord c = false := by
      cases quote with
      | nil =>
        rintro c ⟨⟩
        exact words.ascii ']' (by decide)
      | cons first rest =>
        rintro c ⟨⟩
        exact isWord_quote (hquote first List.mem_cons_self)
    obtain ⟨htake, hdrop⟩ := takeWhile_append_run hquote hfirst
    obtain ⟨hkey, hafter⟩ := takeWhile_append_run hname hlast
    rw [matchKey, htake, hdrop, hkey, hafter, if_pos]
    exact ⟨hlen, hne, v, by rw [List.append_assoc]; rfl⟩

theorem mem_subscriptKeys (hne : name ≠ []) (hname : ∀ c ∈ name, words.isWord c = true) : name ∈ subscriptKeys words field ↔
      ∃ u quote v, IsQuoting quote ∧
        field = u ++ chr '[' :: (quote ++ (name ++ (quote ++ chr ']' :: v))) := by
  induction field with
  | nil =>
    refine iff_of_false List.not_mem_nil ?_
    rintro ⟨u, quote, v, -, heq⟩
    exact absurd heq.symm (List.append_ne_nil_of_right_ne_nil _ (List.cons_ne_nil _ _))
  | cons c rest ih =>
    have hsplit : (∃ u quote v, IsQuoting quote ∧
        c :: rest = u ++ chr '[' :: (quote ++ (name ++ (quote ++ chr ']' :: v)))) ↔
        (c = chr '[' ∧ matchKey words rest = some name) ∨ ∃ u quote v, IsQuoting quote ∧
          rest = u ++ chr '[' :: (quote ++ (name ++ (quote ++ chr ']' :: v))) := by
      rw [matchKey_eq_some_iff hne hname]
      constructor
      · rintro ⟨_ | ⟨d, u⟩, quote, v, hquote, heq⟩
        · cases heq
          exact .inl ⟨rfl, quote, v, hquote, rfl⟩
        · cases heq
          exact .inr ⟨u, quote, v, hquote, rfl⟩
      · rintro (⟨rfl, quote, v, hquote, rfl⟩ | ⟨u, quote, v, hquote, rfl⟩)
        · exact ⟨[], quote, v, hquote, rfl⟩
        · exact ⟨c :: u, quote, v, hquote, rfl⟩
    rw [hsplit, ← ih, subscriptKeys]
    by_cases hc : c = chr '['
    · rw [if_pos hc]
      split
      · next key hkey => rw [hkey, List.mem_cons, Option.some.injEq, eq_comm, and_iff_right hc]
      · next hnone =>
        rw [hnone]
        exact (or_iff_right fun hsome => by cases hsome.2).symm
    · rw [if_neg hc]
      exact (or_iff_right fun hsome => hc hsome.1).symm

end Names

section Blocked

variable {words : WordCharacters} {name : PyString}

theorem isWord_str {s : String}
    (h : s.toList.all (fun c => c.toNat < 128 && (c.isAlphanum || c == '_')) = true) :
    ∀ c ∈ str s, words.isWord c = true := by
  intro c hc
  obtain ⟨d, hd, rfl⟩ := List.mem_map.mp hc
  obtain ⟨hascii, hword⟩ := Bool.and_eq_true_iff.mp (List.all_eq_true.mp h d hd)
  rw [words.ascii d (of_decide_eq_true hascii)]
  exact hword

variable (words) in
theorem Blocked.word (h : Blocked name) :
    name ≠ [] ∧ ∀ c ∈ name, words.isWord c = true := by
  have hstrings : ∀ strings : List String, (strings.all fun s => !s.toList.isEmpty &&
      s.toList.all fun c => c.toNat < 128 && (c.isAlphanum || c == '_')) = true →
      name ∈ strings.map str → name ≠ [] ∧ ∀ c ∈ name, words.isWord c = true := by
    intro strings hall hmem
    obtain ⟨s, hs, rfl⟩ := List.mem_map.mp hmem
    obtain ⟨hne, hword⟩ := Bool.and_eq_true_iff.mp (List.all_eq_true.mp hall s hs)
    refine ⟨fun hnil => ?_, isWord_str hword⟩
    rw [List.map_eq_nil_iff.mp hnil] at hne
    cases hne
  rcases h with h | h
  · exact hstrings _ (by decide) h
  · exact hstrings _ (by decide) h

/-- A text accesses a name, as `.name` or as `[name]`, also in quotes. -/
inductive Accesses (words : WordCharacters) (name : PyString) : PyString → Prop where
  | attr (u v : PyString) (hv : ∀ c ∈ v.head?, words.isWord c = false) :
      Accesses words name (u ++ chr '.' :: (name ++ v))
  | index (u quote v : PyString) (hquote : IsQuoting quote) :
      Accesses words name (u ++ chr '[' :: (quote ++ (name ++ (quote ++ chr ']' :: v))))

theorem Accesses.append {s : PyString} (h : Accesses words name s) (u : PyString) :
    Accesses words name (u ++ s) := by
  cases h with
  | attr u' v hv =>
    rw [← List.append_assoc]
    exact .attr _ v hv
  | index u' quote v hquote =>
    rw [← List.append_assoc]
    exact .index _ quote v hquote

theorem mem_names_iff (h : Blocked name) {field : PyString} :
    name ∈ attributeNames words field ++ subscriptKeys words field ↔
      Accesses words name field := by
  obtain ⟨hne, hname⟩ := h.word words
  rw [List.mem_append, mem_attributeNames hne hname, mem_subscriptKeys hne hname]
  constructor
  · rintro (⟨u, v, rfl, hv⟩ | ⟨u, quote, v, hquote, rfl⟩)
    · exact .attr u v hv
    · exact .index u quote v hquote
  · rintro (⟨u, v, hv⟩ | ⟨u, quote, v, hquote⟩)
    · exact .inl ⟨u, v, rfl, hv⟩
    · exact .inr ⟨u, quote, v, hquote, rfl⟩

/-- Without the doubled braces, a blocked name is accessed between an opening brace and the next
closing one. -/
def Exposed (words : WordCharacters) (s : PyString) : Prop :=
  ∃ before field after, withoutEscapes s = before ++ chr '{' :: (field ++ chr '}' :: after) ∧
    chr '}' ∉ field ∧ ∃ name, Blocked name ∧ Accesses words name field

/-- **A violation is found** iff a blocked name is accessed between braces. -/
theorem checkFormatString_ne_nil_iff {s : PyString} :
    checkFormatString words s ≠ [] ↔ Exposed words s := by
  rw [checkFormatString, ne_eq, List.flatMap_eq_nil_iff]
  constructor
  · intro h
    push Not at h
    obtain ⟨field, hfield, hsome⟩ := h
    obtain ⟨name, hname⟩ := List.exists_mem_of_ne_nil _ hsome
    obtain ⟨hmem, hblocked⟩ := List.mem_filter.mp hname
    have hblocked := of_decide_eq_true hblocked
    rcases of_mem_formatFields hfield with ⟨_, _, _, hnone, -⟩ | ⟨before, after, hs, hnot⟩
    · cases hnone
    · exact ⟨before, field, after, hs, hnot, name, hblocked, (mem_names_iff hblocked).mp hmem⟩
  · rintro ⟨before, field, after, hs, hnot, name, hblocked, haccess⟩ hnone
    obtain ⟨start, hmem⟩ := exists_mem_formatFields before after hnot
    rw [← hs] at hmem
    have hin := (mem_names_iff hblocked).mpr (haccess.append start)
    have hfilter : name ∈ (attributeNames words (start ++ field) ++
        subscriptKeys words (start ++ field)).filter fun name => Blocked name :=
      List.mem_filter.mpr ⟨hin, decide_eq_true hblocked⟩
    rw [hnone _ hmem] at hfilter
    exact absurd hfilter List.not_mem_nil

end Blocked

end N8n.Python
