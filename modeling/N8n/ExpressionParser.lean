/-
Splitting an expression into text and code, and joining it again: `splitExpression` and
`joinExpression`.

Code stands between brackets, `{` twice and `}` twice, which a backslash escapes.  The loop of
the splitter searches for the next bracket with a regular expression and keeps a buffer where
it meets escaped ones.  Strings are lists of characters here.

* `roundTrips_iff` — **when a text, and when a list of chunks, comes back**.
-/
import N8n.BracketParts

namespace N8n.ExpressionParser

open BracketParts

inductive ExpressionChunk where
  | text (text : List Char)
  | code (text : List Char) (hasClosingBrackets : Bool)
  deriving DecidableEq

inductive SearchingFor where
  | opening
  | closing
  deriving DecidableEq

namespace SearchingFor

def bracket : SearchingFor → Char
  | opening => '{'
  | closing => '}'

def next : SearchingFor → SearchingFor
  | opening => closing
  | closing => opening

end SearchingFor

open SearchingFor

def escapeCode (text : List Char) : List Char :=
  replaceFirst ['\\', '}', '}'] ['}', '}'] text

def escapeTmplExpression (part : List Char) : List Char :=
  replaceFirst ['}', '}'] ['\\', '}', '}'] part

/-- What `exec` finds for the pattern of a bracket with or without a backslash in front: what
stands before the match, whether there is a backslash, and what stands behind the match. -/
def exec (c : Char) : List Char → Option (List Char × Bool × List Char)
  | [] => none
  | x :: s =>
    if ['\\', c, c].isPrefixOf (x :: s) then some ([], true, s.drop 2)
    else if [c, c].isPrefixOf (x :: s) then some ([], false, s.drop 1)
    else (exec c s).map fun res => (x :: res.1, res.2)

theorem length_lt_of_exec {c : Char} {s : List Char} {res : List Char × Bool × List Char}
    (h : exec c s = some res) : res.2.2.length < s.length := by
  induction s generalizing res with
  | nil => cases h
  | cons x s ih =>
    rw [exec] at h
    split at h
    · cases h
      simp only [List.length_drop, List.length_cons]
      omega
    · split at h
      · cases h
        simp only [List.length_drop, List.length_cons]
        omega
      · rw [Option.map_eq_some_iff] at h
        obtain ⟨found, hfound, heq⟩ := h
        have hlt := ih hfound
        rw [← heq]
        exact Nat.lt_succ_of_lt hlt

/-- The chunk that the buffer becomes. -/
def chunk (searchingFor : SearchingFor) (buffer : List Char) (hasClosingBrackets : Bool) :
    ExpressionChunk :=
  match searchingFor with
  | opening => .text buffer
  | closing => .code (escapeCode buffer) hasClosingBrackets

def splitFrom (searchingFor : SearchingFor) (buffer expr : List Char) : List ExpressionChunk :=
  if expr = [] then []
  else match h : exec searchingFor.bracket expr with
    | none => [chunk searchingFor (buffer ++ expr) false]
    | some (before, true, rest) =>
      have := length_lt_of_exec h
      splitFrom searchingFor
        (buffer ++ (before ++ ['\\', searchingFor.bracket, searchingFor.bracket])) rest
    | some (before, false, rest) =>
      have := length_lt_of_exec h
      chunk searchingFor (buffer ++ before) true :: splitFrom searchingFor.next [] rest
termination_by expr.length

def splitExpression (expression : List Char) : List ExpressionChunk :=
  splitFrom opening [] expression

def render : ExpressionChunk → List Char
  | .text text => text
  | .code text hasClosingBrackets =>
    ['{', '{'] ++ escapeTmplExpression text ++ if hasClosingBrackets then ['}', '}'] else []

def joinExpression (parts : List ExpressionChunk) : List Char := parts.flatMap render

def partsOf (searchingFor : SearchingFor) (expr : List Char) : List (List Char) :=
  parts '\\' bracket next searchingFor expr

/-- A last part that the loop never makes a chunk of: it is empty, or it ends with an escaped
bracket. -/
def Lost (searchingFor : SearchingFor) (part : List Char) : Prop :=
  part = [] ∨ ['\\', searchingFor.bracket, searchingFor.bracket] <:+ part

instance (searchingFor : SearchingFor) (part : List Char) : Decidable (Lost searchingFor part) :=
  inferInstanceAs (Decidable (_ ∨ _))

def chunks : SearchingFor → List (List Char) → List ExpressionChunk
  | _, [] => []
  | searchingFor, [part] =>
    if Lost searchingFor part then [] else [chunk searchingFor part false]
  | searchingFor, part :: part' :: parts =>
    chunk searchingFor part true :: chunks searchingFor.next (part' :: parts)

theorem bracket_ne (searchingFor : SearchingFor) : searchingFor.bracket ≠ '\\' := by
  cases searchingFor <;> decide

section

variable {m : SearchingFor} {s t : List Char}

theorem exec_escape :
    exec m.bracket ('\\' :: m.bracket :: m.bracket :: t) = some ([], true, t) := by
  simp [exec]

theorem exec_bracket : exec m.bracket (m.bracket :: m.bracket :: t) = some ([], false, t) := by
  simp [exec, (bracket_ne m).symm]

theorem exec_plain {x : Char} (h : Plain '\\' bracket m x s) :
    exec m.bracket (x :: s) = (exec m.bracket s).map fun res => (x :: res.1, res.2) := by
  rw [exec, if_neg, if_neg]
  · rw [List.isPrefixOf_iff_prefix, List.cons_prefix_cons]
    rintro ⟨hx, t, rfl⟩
    exact h.bracket hx.symm t rfl
  · rw [List.isPrefixOf_iff_prefix, List.cons_prefix_cons]
    rintro ⟨hx, t, rfl⟩
    exact h.escape hx.symm t rfl

theorem parts_of_exec (m : SearchingFor) (s : List Char) :
    (exec m.bracket s = none → partsOf m s = [s] ∧ ¬ ['\\', m.bracket, m.bracket] <:+ s) ∧
    (∀ before rest, exec m.bracket s = some (before, true, rest) → partsOf m s =
      consHead (before ++ ['\\', m.bracket, m.bracket]) (partsOf m rest)) ∧
    ∀ before rest, exec m.bracket s = some (before, false, rest) →
      partsOf m s = before :: partsOf m.next rest := by
  induction m, s using parts_induction (e := '\\') (b := bracket) (n := next) with
  | nil m => simp [exec, partsOf, parts]
  | escape m t _ => simp [exec_escape, partsOf, parts_escape]
  | bracket m t _ => simp [exec_bracket, partsOf, parts_bracket (bracket_ne m)]
  | plain m x s hx ih =>
    obtain ⟨hnone, hescape, hbracket⟩ := ih
    have hparts : partsOf m (x :: s) = consHead [x] (partsOf m s) := parts_plain hx
    rw [exec_plain hx, hparts]
    refine ⟨fun h => ?_, fun before rest h => ?_, fun before rest h => ?_⟩
    · obtain ⟨hone, hsuffix⟩ := hnone (Option.map_eq_none_iff.mp h)
      refine ⟨by rw [hone]; rfl, ?_⟩
      rw [List.suffix_cons_iff, not_or]
      refine ⟨fun heq => ?_, hsuffix⟩
      obtain ⟨rfl, hs⟩ := List.cons.inj heq
      exact hx.escape rfl [] hs.symm
    · obtain ⟨⟨found, b, rest'⟩, hfound, heq⟩ := Option.map_eq_some_iff.mp h
      cases heq
      rw [hescape found rest hfound, consHead_consHead]
      rfl
    · obtain ⟨⟨found, b, rest'⟩, hfound, heq⟩ := Option.map_eq_some_iff.mp h
      cases heq
      rw [hbracket found rest hfound]
      rfl

theorem chunks_cons {part : List Char} {ps : List (List Char)} (hne : ps ≠ []) :
    chunks m (part :: ps) = chunk m part true :: chunks m.next ps := by
  cases ps with
  | nil => exact absurd rfl hne
  | cons p ps => rfl

theorem partsOf_ne_nil (m : SearchingFor) (s : List Char) : partsOf m s ≠ [] := parts_ne_nil m s

theorem not_lost_append {buffer : List Char} (hbuffer : Lost m buffer) (hne : s ≠ [])
    (hs : ¬ ['\\', m.bracket, m.bracket] <:+ s) : ¬ Lost m (buffer ++ s) := by
  rintro (hnil | hsuffix)
  · exact hne (List.append_eq_nil_iff.mp hnil).2
  · rcases hbuffer with rfl | ⟨w, rfl⟩
    · exact hs hsuffix
    · by_cases hlen : 3 ≤ s.length
      · exact hs (List.suffix_of_suffix_length_le hsuffix (List.suffix_append _ s) hlen)
      · -- a shorter rest would put the bracket in the place of the backslash
        obtain ⟨v, hv⟩ := hsuffix
        have hrev := congrArg List.reverse hv
        rcases s with _ | ⟨x, _ | ⟨y, _ | ⟨z, s⟩⟩⟩
        · exact hne rfl
        · simp [(bracket_ne m).symm] at hrev
        · simp [(bracket_ne m).symm] at hrev
        · simp only [List.length_cons] at hlen
          omega

theorem splitFrom_eq (m : SearchingFor) (buffer s : List Char) (hbuffer : Lost m buffer) :
    splitFrom m buffer s = chunks m (consHead buffer (partsOf m s)) := by
  induction hlen : s.length using Nat.strong_induction_on generalizing m buffer s with
  | _ n ih =>
    subst hlen
    obtain ⟨hnone, hescape, hbracket⟩ := parts_of_exec m s
    rw [splitFrom]
    split
    next hnil =>
      have hparts : partsOf m s = [[]] := by rw [hnil]; rfl
      rw [hparts, consHead, List.append_nil, chunks, if_pos hbuffer]
    next hne =>
      split
      next hexec =>
        obtain ⟨hparts, hsuffix⟩ := hnone hexec
        rw [hparts, consHead, chunks, if_neg (not_lost_append hbuffer hne hsuffix)]
      next before rest hexec =>
        rw [ih _ (length_lt_of_exec hexec) _ _ _ (.inr ⟨_, List.append_assoc _ _ _⟩) rfl,
          hescape before rest hexec, consHead_consHead]
      next before rest hexec =>
        rw [ih _ (length_lt_of_exec hexec) _ _ _ (.inl rfl) rfl, hbracket before rest hexec,
          consHead_nil (partsOf_ne_nil _ _), consHead, chunks_cons (partsOf_ne_nil _ _)]

/-- **What the loop computes.** -/
theorem splitExpression_eq (expression : List Char) :
    splitExpression expression = chunks opening (partsOf opening expression) := by
  rw [splitExpression, splitFrom_eq opening [] expression (.inl rfl),
    consHead_nil (partsOf_ne_nil _ _)]

end

/-- The bracket in front of a chunk of code. -/
def lead : SearchingFor → List Char
  | opening => []
  | closing => ['{', '{']

/-- Parts that joining their chunks puts together again: nothing was lost, and no code has the
letter of its bracket in front of its first escape. -/
def Restorable : SearchingFor → List (List Char) → Prop
  | _, [] => True
  | opening, [part] => part = [] ∨ ¬ Lost opening part
  | closing, [part] => ¬ Lost closing part ∧ Clear '\\' bracket closing part
  | opening, _ :: part :: parts => Restorable closing (part :: parts)
  | closing, part :: part' :: parts =>
    Clear '\\' bracket closing part ∧ Restorable opening (part' :: parts)

section

variable {m : SearchingFor} {s part : List Char} {ps : List (List Char)}
  {parts : List ExpressionChunk}

theorem joinExpression_cons (c : ExpressionChunk) (parts : List ExpressionChunk) :
    joinExpression (c :: parts) = render c ++ joinExpression parts := rfl

theorem render_code_true (text : List Char) :
    render (.code text true) = '{' :: '{' :: (escapeTmplExpression text ++ ['}', '}']) := rfl

theorem render_code_false (text : List Char) :
    render (.code text false) = '{' :: '{' :: escapeTmplExpression text := by
  rw [render, if_neg Bool.false_ne_true, List.append_nil]
  rfl

theorem escapeTmplExpression_escapeCode (h : Unsplit '\\' bracket next closing part) :
    (escapeTmplExpression (escapeCode part)).length = part.length ∧
      (escapeTmplExpression (escapeCode part) = part ↔ Clear '\\' bracket closing part) :=
  escape_unescape_iff (b := bracket) bracket_ne h

theorem escapeCode_escapeTmplExpression (text : List Char) :
    escapeCode (escapeTmplExpression text) = text :=
  unescape_escape bracket_ne closing text

theorem join_lost (h : Lost m part) : joinExpression (chunks m [part]) = [] := by
  rw [chunks, if_pos h]
  rfl

theorem join_opening_singleton :
    joinExpression (chunks opening [part]) = part ↔ part = [] ∨ ¬ Lost opening part := by
  by_cases hlost : Lost opening part
  · rw [join_lost hlost, or_iff_left (not_not.mpr hlost)]
    exact eq_comm
  · rw [chunks, if_neg hlost]
    exact iff_of_true (List.append_nil part) (.inr hlost)

theorem join_closing_singleton (h : Unsplit '\\' bracket next closing part) :
    joinExpression (chunks closing [part]) = '{' :: '{' :: part ↔
      ¬ Lost closing part ∧ Clear '\\' bracket closing part := by
  by_cases hlost : Lost closing part
  · rw [join_lost hlost]
    exact iff_of_false (List.cons_ne_nil _ _).symm fun hr => hr.1 hlost
  · rw [chunks, if_neg hlost, joinExpression_cons, chunk, render_code_false,
      and_iff_right hlost, ← (escapeTmplExpression_escapeCode h).2]
    simp [joinExpression]

theorem render_append_eq_iff {text t u : List Char}
    (hlen : (escapeTmplExpression text).length = part.length) :
    render (.code text true) ++ t = ['{', '{'] ++ (part ++ '}' :: '}' :: u) ↔
      escapeTmplExpression text = part ∧ t = u := by
  rw [render_code_true]
  simp only [List.cons_append, List.nil_append, List.append_assoc, List.cons.injEq, true_and]
  constructor
  · intro h
    obtain ⟨htext, htail⟩ := List.append_inj h hlen
    simp only [List.cons.injEq, true_and] at htail
    exact ⟨htext, htail⟩
  · rintro ⟨rfl, rfl⟩
    rfl

theorem join_chunks_iff (h : partsOf m s = ps) :
    joinExpression (chunks m ps) = lead m ++ s ↔ Restorable m ps := by
  induction ps generalizing m s with
  | nil => exact absurd h (partsOf_ne_nil m s)
  | cons part ps ih =>
    rcases ps with _ | ⟨part', ps⟩
    · obtain rfl := eq_of_parts_eq_singleton bracket_ne h
      cases m with
      | opening => exact join_opening_singleton
      | closing => exact join_closing_singleton h
    · obtain ⟨t, rfl, ht, hinner⟩ := exists_of_parts_eq_cons_cons bracket_ne h
      cases m with
      | opening =>
        have hrest : joinExpression (chunks closing (part' :: ps)) = '{' :: '{' :: t ↔
          Restorable closing (part' :: ps) := ih ht
        exact (List.append_right_inj part).trans hrest
      | closing =>
        have hrest : joinExpression (chunks opening (part' :: ps)) = t ↔
          Restorable opening (part' :: ps) := ih ht
        obtain ⟨hlen, hcode⟩ :=
          escapeTmplExpression_escapeCode (unsplit_of_inner bracket_ne hinner)
        rw [Restorable, ← hrest, ← hcode]
        exact render_append_eq_iff hlen

/-- **When joining undoes splitting.** -/
theorem join_split_iff (s : List Char) :
    joinExpression (splitExpression s) = s ↔ Restorable opening (partsOf opening s) := by
  rw [splitExpression_eq]
  exact join_chunks_iff rfl

end

/-- A last part that becomes a chunk. -/
def Final (searchingFor : SearchingFor) (part : List Char) : Prop :=
  Unsplit '\\' bracket next searchingFor part ∧ ¬ Lost searchingFor part

/-- A part in front of a bracket. -/
def Ends (searchingFor : SearchingFor) (part : List Char) : Prop :=
  Inner '\\' bracket next searchingFor part

/-- Chunks that are read again as they are written: text and code take turns, beginning with
text; each ends at the bracket behind it and not before, and the last one does not get lost. -/
def Readable : List ExpressionChunk → Prop
  | [] => True
  | [.text text] => Final opening text
  | [.text text, .code code false] =>
    Ends opening text ∧ Final closing (escapeTmplExpression code)
  | .text text :: .code code true :: parts =>
    Ends opening text ∧ Ends closing (escapeTmplExpression code) ∧ Readable parts
  | _ => False

section

variable {m : SearchingFor} {s t text code part : List Char} {parts : List ExpressionChunk}

theorem partsOf_append (h : Ends m part) (t : List Char) :
    partsOf m (part ++ m.bracket :: m.bracket :: t) = part :: partsOf m.next t :=
  parts_append_of_inner bracket_ne h t

theorem chunks_of_final (h : Final m part) :
    chunks m (partsOf m part) = [chunk m part false] := by
  have hparts : partsOf m part = [part] := h.1
  rw [hparts, chunks, if_neg h.2]

theorem chunks_append (h : Ends m part) (t : List Char) :
    chunks m (partsOf m (part ++ m.bracket :: m.bracket :: t)) =
      chunk m part true :: chunks m.next (partsOf m.next t) := by
  rw [partsOf_append h, chunks_cons (partsOf_ne_nil _ _)]

theorem chunks_cases (m : SearchingFor) (s : List Char) :
    (Lost m s ∧ chunks m (partsOf m s) = []) ∨
    (Final m s ∧ chunks m (partsOf m s) = [chunk m s false]) ∨
    ∃ part t, Ends m part ∧ s = part ++ m.bracket :: m.bracket :: t ∧
      chunks m (partsOf m s) = chunk m part true :: chunks m.next (partsOf m.next t) := by
  rcases hparts : partsOf m s with _ | ⟨part, _ | ⟨part', ps⟩⟩
  · exact absurd hparts (partsOf_ne_nil m s)
  · obtain rfl := eq_of_parts_eq_singleton bracket_ne hparts
    by_cases hlost : Lost m s
    · exact .inl ⟨hlost, if_pos hlost⟩
    · exact .inr (.inl ⟨⟨hparts, hlost⟩, if_neg hlost⟩)
  · obtain ⟨t, rfl, ht, hinner⟩ := exists_of_parts_eq_cons_cons bracket_ne hparts
    refine .inr (.inr ⟨part, t, hinner, rfl, ?_⟩)
    have hrest : partsOf m.next t = part' :: ps := ht
    rw [hrest]
    rfl

theorem join_text (text : List Char) : joinExpression [.text text] = text :=
  List.append_nil text

theorem join_unclosed (text code : List Char) :
    joinExpression [.text text, .code code false] =
      text ++ '{' :: '{' :: escapeTmplExpression code := by
  rw [joinExpression_cons, joinExpression_cons, render_code_false, joinExpression,
    List.flatMap_nil, List.append_nil]
  rfl

theorem join_closed (text code : List Char) (parts : List ExpressionChunk) :
    joinExpression (.text text :: .code code true :: parts) =
      text ++ '{' :: '{' :: (escapeTmplExpression code ++ '}' :: '}' :: joinExpression parts) := by
  rw [joinExpression_cons, joinExpression_cons, render_code_true]
  simp [render]

theorem split_join_of_readable (h : Readable parts) :
    splitExpression (joinExpression parts) = parts := by
  rw [splitExpression_eq]
  induction parts using Readable.induct with
  | case1 => rfl
  | case2 text =>
    rw [join_text]
    exact chunks_of_final h
  | case3 text code =>
    obtain ⟨htext, hcode⟩ := h
    have hlast := chunks_of_final hcode
    rw [chunk, escapeCode_escapeTmplExpression] at hlast
    rw [join_unclosed]
    exact (chunks_append htext _).trans (congrArg _ hlast)
  | case4 text code parts ih =>
    obtain ⟨htext, hcode, hparts⟩ := h
    have hclosing := chunks_append hcode (joinExpression parts)
    rw [chunk, escapeCode_escapeTmplExpression] at hclosing
    rw [join_closed]
    refine (chunks_append htext _).trans (congrArg _ (hclosing.trans (congrArg _ ?_)))
    exact ih hparts
  | case5 parts hnil htext hunclosed hclosed =>
    rw [Readable] at h
    · exact h.elim
    all_goals assumption

theorem readable_of_split_join
    (h : splitExpression (joinExpression parts) = parts) : Readable parts := by
  rw [splitExpression_eq] at h
  induction hlen : parts.length using Nat.strong_induction_on generalizing parts with
  | _ n ih =>
    subst hlen
    rcases chunks_cases opening (joinExpression parts) with
      ⟨-, hchunks⟩ | ⟨hfinal, hchunks⟩ | ⟨text, t, htext, hjoin, hchunks⟩
    · rw [← h, hchunks]
      trivial
    · rw [← h, hchunks]
      exact hfinal
    · rw [h] at hchunks
      rcases chunks_cases closing t with
        ⟨-, hlost⟩ | ⟨hfinal, hunclosed⟩ | ⟨code, u, hcode, rfl, hclosed⟩
      · -- the bracket at the end gets lost
        have hparts : parts = [.text text] := hchunks.trans (congrArg _ hlost)
        rw [hparts, join_text] at hjoin
        exact absurd hjoin (by simp)
      · have hparts : parts = [.text text, .code (escapeCode t) false] :=
          hchunks.trans (congrArg _ hunclosed)
        rw [hparts, join_unclosed] at hjoin
        have ht : escapeTmplExpression (escapeCode t) = t := by
          simpa [bracket] using hjoin
        rw [hparts]
        exact ⟨htext, ht.symm ▸ hfinal⟩
      · have hparts : parts = .text text :: .code (escapeCode code) true ::
            chunks opening (partsOf opening u) := hchunks.trans (congrArg _ hclosed)
        rw [hparts, join_closed] at hjoin
        have hlength :=
          (escapeTmplExpression_escapeCode (unsplit_of_inner bracket_ne hcode)).1
        have hbody := (List.cons.inj (List.cons.inj (List.append_cancel_left hjoin)).2).2
        obtain ⟨hescape, htail⟩ := List.append_inj hbody hlength
        have hrest : joinExpression (chunks opening (partsOf opening u)) = u :=
          (List.cons.inj (List.cons.inj htail).2).2
        have hlt : (chunks opening (partsOf opening u)).length < parts.length := by
          rw [hparts, List.length_cons, List.length_cons]
          omega
        have hread : chunks opening (partsOf opening (joinExpression
            (chunks opening (partsOf opening u)))) = chunks opening (partsOf opening u) := by
          rw [hrest]
        have hreadable := ih _ hlt hread rfl
        rw [hparts]
        exact ⟨htext, hescape.symm ▸ hcode, hreadable⟩

end

/-- **When splitting undoes joining.** -/
theorem split_join_iff (parts : List ExpressionChunk) :
    splitExpression (joinExpression parts) = parts ↔ Readable parts :=
  ⟨readable_of_split_join, split_join_of_readable⟩

/-- **Splitting and joining undo each other**, each under its condition. -/
theorem roundTrips_iff (s : List Char) (parts : List ExpressionChunk) :
    (joinExpression (splitExpression s) = s ↔ Restorable opening (partsOf opening s)) ∧
      (splitExpression (joinExpression parts) = parts ↔ Readable parts) :=
  ⟨join_split_iff s, split_join_iff parts⟩

/-- A bracket that opens at the end of a text gets lost. -/
theorem not_roundTrips_openAtEnd :
    joinExpression (splitExpression ['a', '{', '{']) ≠ ['a', '{', '{'] := by
  rw [splitExpression_eq]
  decide +kernel

end N8n.ExpressionParser
