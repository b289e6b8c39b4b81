/-
Filters of data tables that compare a column with a pattern.

In the pattern of a filter only the percent sign is a wildcard.  SQLite compares case-sensitively
with `GLOB`, Postgres with `LIKE`, so that each of them gets the pattern in its own notation, with
the other wildcards of the notation made literal.

* **`like_filter_means`** — both patterns are well formed, and match the texts that are the pattern
  with each percent sign replaced by some text.
-/
import N8n.DataTableRowBatches
import N8n.Wildcards

namespace N8n.LikeFilters

open DataTableRows Wildcards

/-- What is pushed for a character. -/
def globOf (ch : Char) : List Char :=
  if ch = '%' then ['*']
  else if ch = '[' then ['[', '[', ']']
  else if ch = ']' then ['[', ']', ']']
  else if ch = '*' then ['[', '*', ']']
  else if ch = '?' then ['[', '?', ']']
  else [ch]

def toSqliteGlobFromPercent (input : String) : String :=
  String.ofList (input.toList.flatMap globOf)

def replaceAll (c : Char) (replacement : List Char) (text : List Char) : List Char :=
  text.flatMap fun d => if d = c then replacement else [d]

def escapeLikeSpecials (input : String) : String :=
  String.ofList (replaceAll '_' ['\\', '_'] (replaceAll '\\' ['\\', '\\'] input.toList))

inductive FilterConditionType where
  | eq
  | neq
  | like
  | ilike
  | gt
  | gte
  | lt
  | lte
  deriving DecidableEq

structure FilterRecord where
  columnName : String
  condition : FilterConditionType
  value : DataTableColumnJsType
  deriving DecidableEq

def operator : FilterConditionType → Option String
  | .eq => some "="
  | .gt => some ">"
  | .gte => some ">="
  | .lt => some "<"
  | .lte => some "<="
  | _ => none

def quoteIdentifier (name : String) : String := "\"" ++ name ++ "\""

def isSqlite (dbType : DatabaseType) : Bool := dbType = .sqlite || dbType = .sqlitePooled

/-- The condition in SQL, and the value of its parameter; `none` if it throws.  The value of a
`like` filter is a string; escaping another one throws. -/
def getConditionAndParams (host : HostTexts) (filter : FilterRecord) (index : ℕ)
    (dbType : DatabaseType) (tableReference : Option String) :
    Option (String × List (String × DataTableColumnJsType)) :=
  let paramName := "filter_" ++ toString index
  let columnRef := match tableReference with
    | some table => quoteIdentifier table ++ "." ++ quoteIdentifier filter.columnName
    | none => quoteIdentifier filter.columnName
  let escaped : Option DataTableColumnJsType := match filter.value with
    | .string s => some (.string (escapeLikeSpecials s))
    | _ => none
  if filter.value = .null ∧ filter.condition = .eq then some (columnRef ++ " IS NULL", [])
  else if filter.value = .null ∧ filter.condition = .neq then
    some (columnRef ++ " IS NOT NULL", [])
  else match filter.condition with
    | .like =>
      if isSqlite dbType then
        let text := if filter.value = .null then "" else filter.value.text host
        some (columnRef ++ " GLOB :" ++ paramName,
          [(paramName, .string (toSqliteGlobFromPercent text))])
      else if dbType = .postgres then
        escaped.map fun v => (columnRef ++ " LIKE :" ++ paramName ++ " ESCAPE '\\'",
          [(paramName, v)])
      else some (columnRef ++ " LIKE :" ++ paramName, [(paramName, filter.value)])
    | .ilike =>
      if isSqlite dbType then
        escaped.map fun v => ("UPPER(" ++ columnRef ++ ") LIKE UPPER(:" ++ paramName ++
          ") ESCAPE '\\'", [(paramName, v)])
      else if dbType = .postgres then
        escaped.map fun v => (columnRef ++ " ILIKE :" ++ paramName ++ " ESCAPE '\\'",
          [(paramName, v)])
      else some ("UPPER(" ++ columnRef ++ ") LIKE UPPER(:" ++ paramName ++ ")",
        [(paramName, filter.value)])
    | .neq => some ("(" ++ columnRef ++ " != :" ++ paramName ++ " OR " ++ columnRef ++
        " IS NULL)", [(paramName, filter.value)])
    | condition =>
      (operator condition).map fun op => (columnRef ++ " " ++ op ++ " :" ++ paramName,
        [(paramName, filter.value)])

/-- The text is the pattern with each percent sign replaced by some text. -/
inductive Replaces : List Char → List Char → Prop where
  | nil : Replaces [] []
  | percent {pattern text : List Char} (w : List Char) (h : Replaces pattern text) :
      Replaces ('%' :: pattern) (w ++ text)
  | char {c : Char} {pattern text : List Char} (hc : c ≠ '%') (h : Replaces pattern text) :
      Replaces (c :: pattern) (c :: text)

def pieceOf (c : Char) : Piece := if c = '%' then .sequence else .literal c

theorem matchesPieces_iff {pattern text : List Char} :
    matchesPieces (pattern.map pieceOf) text = true ↔ Replaces pattern text := by
  induction pattern generalizing text with
  | nil =>
    rw [List.map_nil, matchesPieces_nil]
    constructor
    · rintro rfl
      exact .nil
    · intro h
      cases h
      rfl
  | cons c pattern ih =>
    rw [List.map_cons, pieceOf]
    by_cases hc : c = '%'
    · subst hc
      rw [if_pos rfl, matchesPieces_sequence]
      constructor
      · rintro ⟨w, t, rfl, h⟩
        exact .percent w (ih.mp h)
      · intro h
        cases h with
        | percent w h => exact ⟨w, _, rfl, ih.mpr h⟩
        | char hc _ => exact absurd rfl hc
    · rw [if_neg hc, Piece.literal, matchesPieces_one]
      constructor
      · rintro ⟨d, t, rfl, hd, h⟩
        obtain rfl := of_decide_eq_true hd
        exact .char hc (ih.mp h)
      · intro h
        cases h with
        | percent w h => exact absurd rfl hc
        | char _ h => exact ⟨c, _, rfl, decide_eq_true rfl, ih.mpr h⟩

theorem setPiece_single (c : Char) : setPiece false [.single c] = .literal c := by
  rw [setPiece, Piece.literal]
  refine congrArg Piece.one (funext fun d => ?_)
  simp [SetItem.has]

theorem globFrom_globOf (c : Char) (cs : List Char) :
    globFrom .text (globOf c ++ cs) = (globFrom .text cs).map (pieceOf c :: ·) := by
  rw [globOf, pieceOf]
  split
  · next hc => rfl
  split
  · next hc =>
    subst hc
    rw [← setPiece_single]
    rfl
  split
  · next hc =>
    subst hc
    rw [← setPiece_single]
    rfl
  split
  · next hc =>
    subst hc
    rw [← setPiece_single]
    rfl
  split
  · next hc =>
    subst hc
    rw [← setPiece_single]
    rfl
  · next hbracket _ hstar hquestion =>
    show globFrom .text (c :: cs) = _
    rw [globFrom, if_neg hstar, if_neg hquestion, if_neg hbracket]

theorem globPieces_glob (pattern : List Char) :
    globPieces (pattern.flatMap globOf) = some (pattern.map pieceOf) := by
  rw [globPieces]
  induction pattern with
  | nil => rfl
  | cons c pattern ih =>
    rw [List.flatMap_cons, globFrom_globOf, ih, List.map_cons, Option.map_some]

/-- What is put in the place of a character. -/
def likeOf (c : Char) : List Char :=
  if c = '\\' then ['\\', '\\'] else if c = '_' then ['\\', '_'] else [c]

theorem escapeLikeSpecials_eq (input : String) :
    escapeLikeSpecials input = String.ofList (input.toList.flatMap likeOf) := by
  rw [escapeLikeSpecials, replaceAll, replaceAll, List.flatMap_assoc]
  refine congrArg (fun f => String.ofList (input.toList.flatMap f)) (funext fun c => ?_)
  rw [likeOf]
  split
  · rfl
  · next hc => simp

theorem likePieces_likeOf (c : Char) (cs : List Char) :
    likePieces '\\' (likeOf c ++ cs) = (likePieces '\\' cs).map (pieceOf c :: ·) := by
  rw [likeOf]
  split
  · next hc =>
    subst hc
    rfl
  split
  · next hc =>
    subst hc
    rfl
  · next hescape hunderscore =>
    show likePieces '\\' (c :: cs) = _
    rw [likePieces_of_ne hescape, if_neg hunderscore, pieceOf]

theorem likePieces_like (pattern : List Char) :
    likePieces '\\' (pattern.flatMap likeOf) = some (pattern.map pieceOf) := by
  induction pattern with
  | nil => rfl
  | cons c pattern ih =>
    rw [List.flatMap_cons, likePieces_likeOf, ih, List.map_cons, Option.map_some]

theorem globPieces_toSqlite (input : String) :
    globPieces (toSqliteGlobFromPercent input).toList = some (input.toList.map pieceOf) := by
  rw [toSqliteGlobFromPercent, String.toList_ofList, globPieces_glob]

theorem likePieces_escape (input : String) :
    likePieces '\\' (escapeLikeSpecials input).toList = some (input.toList.map pieceOf) := by
  rw [escapeLikeSpecials_eq, String.toList_ofList, likePieces_like]

/-- **What a filter with a pattern means.**  Both patterns are well formed, and a text matches
either of them iff it is the pattern with each percent sign replaced by some text. -/
theorem like_filter_means (input text : String) :
    (globPieces (toSqliteGlobFromPercent input).toList).isSome ∧
      (likePieces '\\' (escapeLikeSpecials input).toList).isSome ∧
      (Matches (globPieces (toSqliteGlobFromPercent input).toList) text.toList ↔
        Matches (likePieces '\\' (escapeLikeSpecials input).toList) text.toList) ∧
      (Matches (globPieces (toSqliteGlobFromPercent input).toList) text.toList ↔
        Replaces input.toList text.toList) := by
  rw [globPieces_toSqlite, likePieces_escape]
  exact ⟨rfl, rfl, Iff.rfl, matches_some.trans matchesPieces_iff⟩

/-- The databases that are in use compare a column with the pattern of a `like` filter alike. -/
theorem like_filter_same (host : HostTexts) {filter : FilterRecord} {input : String}
    (hlike : filter.condition = .like) (hvalue : filter.value = .string input) (index : ℕ)
    {dbType : DatabaseType} (hdb : isSqlite dbType = true ∨ dbType = .postgres)
    (tableReference : Option String) :
    ∃ sql name pattern,
      getConditionAndParams host filter index dbType tableReference
        = some (sql, [(name, .string pattern)]) ∧
      ∀ text : String,
        Matches (if isSqlite dbType then globPieces pattern.toList
          else likePieces '\\' pattern.toList) text.toList ↔ Replaces input.toList text.toList := by
  obtain ⟨columnName, condition, value⟩ := filter
  cases hlike
  cases hvalue
  have hglob : ∀ text : String, Matches (globPieces (toSqliteGlobFromPercent input).toList)
      text.toList ↔ Replaces input.toList text.toList := by
    rw [globPieces_toSqlite]
    exact fun text => matches_some.trans matchesPieces_iff
  have hescaped : ∀ text : String, Matches (likePieces '\\' (escapeLikeSpecials input).toList)
      text.toList ↔ Replaces input.toList text.toList := by
    rw [likePieces_escape]
    exact fun text => matches_some.trans matchesPieces_iff
  cases dbType with
  | sqlite =>
    simp only [getConditionAndParams, isSqlite, reduceCtorEq, false_and, decide_true,
      Bool.true_or, if_true, if_false]
    exact ⟨_, _, toSqliteGlobFromPercent input, rfl, hglob⟩
  | sqlitePooled =>
    simp only [getConditionAndParams, isSqlite, reduceCtorEq, false_and, decide_true,
      Bool.or_true, if_true, if_false]
    exact ⟨_, _, toSqliteGlobFromPercent input, rfl, hglob⟩
  | postgres =>
    simp only [getConditionAndParams, isSqlite, reduceCtorEq, false_and, decide_false,
      Bool.or_false, Bool.false_eq_true, if_true, if_false]
    exact ⟨_, _, escapeLikeSpecials input, rfl, hescaped⟩
  | mysql => simp [isSqlite] at hdb
  | mariadb => simp [isSqlite] at hdb

end N8n.LikeFilters
