/-
Patterns with wildcards, in two notations.

A pattern is a list of pieces, each of which stands for some text or for one character.  The
notation of `GLOB` has sets of characters in brackets; that of `LIKE` has an escape character,
before a character that stands for itself.  A notation reads a pattern as pieces, unless the pattern
is not well formed.

* **`matchesPieces_sequence`**, `matchesPieces_one` — how a text is split among the pieces.
-/
import Mathlib.Data.List.Infix

namespace N8n.Wildcards

/-- A piece of a pattern. -/
inductive Piece where
  /-- Any text. -/
  | sequence
  /-- One character that is accepted. -/
  | one (accepts : Char → Bool)

/-- One character that stands for itself. -/
def Piece.literal (c : Char) : Piece := .one fun d => d = c

/-- The text is a concatenation of texts that the pieces stand for. -/
def matchesPieces : List Piece → List Char → Bool
  | [], s => s.isEmpty
  | .sequence :: pieces, s => s.tails.any (matchesPieces pieces)
  | .one _ :: _, [] => false
  | .one accepts :: pieces, c :: s => accepts c && matchesPieces pieces s

variable {s : List Char}

theorem matchesPieces_nil : matchesPieces [] s = true ↔ s = [] :=
  List.isEmpty_iff

variable {pieces : List Piece}

/-- **A sequence takes any first part of the text.** -/
theorem matchesPieces_sequence :
    matchesPieces (.sequence :: pieces) s = true ↔
      ∃ w t, s = w ++ t ∧ matchesPieces pieces t = true := by
  rw [matchesPieces, List.any_eq_true]
  constructor
  · rintro ⟨t, ht, hmatches⟩
    obtain ⟨w, rfl⟩ := (List.mem_tails t s).mp ht
    exact ⟨w, t, rfl, hmatches⟩
  · rintro ⟨w, t, rfl, hmatches⟩
    exact ⟨t, (List.mem_tails t _).mpr (List.suffix_append w t), hmatches⟩

theorem matchesPieces_one {accepts : Char → Bool} :
    matchesPieces (.one accepts :: pieces) s = true ↔
      ∃ c t, s = c :: t ∧ accepts c = true ∧ matchesPieces pieces t = true := by
  cases s with
  | nil => exact iff_of_false Bool.false_ne_true fun ⟨_, _, h, _⟩ => by cases h
  | cons c s =>
    rw [matchesPieces, Bool.and_eq_true]
    constructor
    · exact fun h => ⟨c, s, rfl, h⟩
    · rintro ⟨d, t, heq, h⟩
      cases heq
      exact h

/-- What is between brackets: characters, and ranges of characters. -/
inductive SetItem where
  | single (c : Char)
  | range (first last : Char)

def SetItem.has (c : Char) : SetItem → Bool
  | single d => c = d
  | range first last => first ≤ c && c ≤ last

/-- Where a pattern is being read. -/
inductive GlobState where
  | text
  /-- Behind an opening bracket, and behind a caret if the set is inverted. -/
  | opened (invert : Bool)
  /-- In a set, behind a character with which a range may begin. -/
  | set (invert : Bool) (items : List SetItem) (prior : Option Char)
  /-- In a set, behind a hyphen. -/
  | hyphen (invert : Bool) (items : List SetItem) (first : Char)

/-- The piece that a set is. -/
def setPiece (invert : Bool) (items : List SetItem) : Piece :=
  .one fun c => (items.any fun item => item.has c) != invert

/-- The pieces from a place on; `none` if a set is not closed.  A closing bracket is in the set if
it comes first; a hyphen is if nothing comes before it or behind it. -/
def globFrom : GlobState → List Char → Option (List Piece)
  | .text, [] => some []
  | _, [] => none
  | .text, c :: cs =>
    if c = '*' then (globFrom .text cs).map (.sequence :: ·)
    else if c = '?' then (globFrom .text cs).map (.one (fun _ => true) :: ·)
    else if c = '[' then globFrom (.opened false) cs
    else (globFrom .text cs).map (.literal c :: ·)
  | .opened invert, c :: cs =>
    if c = '^' ∧ invert = false then globFrom (.opened true) cs
    else if c = ']' then globFrom (.set invert [.single ']'] none) cs
    else globFrom (.set invert [.single c] (some c)) cs
  | .set invert items prior, c :: cs =>
    if c = ']' then (globFrom .text cs).map (setPiece invert items :: ·)
    else match prior, c with
      | some first, '-' => globFrom (.hyphen invert items first) cs
      | _, c => globFrom (.set invert (.single c :: items) (some c)) cs
  | .hyphen invert items first, c :: cs =>
    if c = ']' then (globFrom .text cs).map (setPiece invert (.single '-' :: items) :: ·)
    else globFrom (.set invert (.range first c :: items) none) cs

def globPieces (pattern : List Char) : Option (List Piece) := globFrom .text pattern

/-- The pieces of a pattern; `none` if the escape character is at the end, or before a character
that need not be escaped. -/
def likePieces (escape : Char) : List Char → Option (List Piece)
  | [] => some []
  | c :: cs =>
    if c = escape then
      match cs with
      | [] => none
      | d :: ds =>
        if d = '%' ∨ d = '_' ∨ d = escape then (likePieces escape ds).map (.literal d :: ·)
        else none
    else if c = '%' then (likePieces escape cs).map (.sequence :: ·)
    else if c = '_' then (likePieces escape cs).map (.one (fun _ => true) :: ·)
    else (likePieces escape cs).map (.literal c :: ·)

theorem likePieces_of_ne {escape c : Char} (hc : c ≠ escape) (cs : List Char) :
    likePieces escape (c :: cs)
      = (likePieces escape cs).map
        ((if c = '%' then .sequence else if c = '_' then .one (fun _ => true) else .literal c)
          :: ·) := by
  cases cs <;> simp only [likePieces, if_neg hc] <;> split <;> (try split) <;> rfl

/-- The text matches a pattern that is read as pieces. -/
def Matches (pieces : Option (List Piece)) (s : List Char) : Prop :=
  ∃ ps, pieces = some ps ∧ matchesPieces ps s = true

theorem matches_some {ps : List Piece} :
    Matches (some ps) s ↔ matchesPieces ps s = true :=
  ⟨fun ⟨_, h, hs⟩ => Option.some.inj h ▸ hs, fun hs => ⟨ps, rfl, hs⟩⟩

end N8n.Wildcards
