import QuerySuite.Token.Scan

/-!
# Query bodies

What is read off the body of a query. Its parameters are the names directly after a sigil `$`: the
text of a name holds no sigil, so that the search can go on right after the sigil without meeting a
name twice. Its fields are the items of the last RETURN clause, up to the clause that orders, cuts
or joins its rows: an item with an alias is known by it, a property by its last part, and any other
expression by its text.

The words of the query language are read in any case of letters, and only where they stand alone:
neither the character before nor the character after is part of a word.

Results:

* `QueryBody.intercalate_splitTop`: cutting a clause into items loses nothing.
* `QueryBody.splitTop_ne_nil`: there is always at least one item.
-/

namespace QuerySuite.QueryBody

/-! ## Parameters -/

/-- The name at the front of a text: as many characters as a name admits, if it can begin there. -/
def nameAt? : List Char → Option (List Char)
  | [] => none
  | c :: rest =>
    if Token.isNameStart c then some (c :: rest.takeWhile Token.isNameChar) else none

/-- The names that follow a sigil, in order. -/
def occurrences : List Char → List (List Char)
  | [] => []
  | c :: rest =>
    if c = '$' then
      match nameAt? rest with
      | some name => name :: occurrences rest
      | none => occurrences rest
    else occurrences rest

/-- The parameters of a query body: each name once, in the order of first occurrence. -/
def params (body : String) : List String :=
  ((occurrences body.toList).map String.ofList).eraseDups

/-! ## Words -/

/-- The character stands for the small letter `letter`, in either case. The long s and the Kelvin
sign count as the letters they fold to. -/
def isLetter (letter c : Char) : Bool :=
  c.toLower == letter || (letter == 's' && c == '\u017f') || (letter == 'k' && c == '\u212a')

/-- What follows the word at the front of a text, if the text begins with it. -/
def spell? : (word text : List Char) → Option (List Char)
  | [], text => some text
  | _ :: _, [] => none
  | letter :: word, c :: text => if isLetter letter c then spell? word text else none

/-- The text goes on with a character that is no part of a word, or ends. -/
def endsWord (text : List Char) : Bool := !text.head?.any Text.isWord

/-- What follows a word that stands alone at the front of a text, `before` being the character
before it. -/
def wordAt? (word : String) (before : Option Char) (text : List Char) : Option (List Char) :=
  if before.any Text.isWord then none else (spell? word.toList text).filter endsWord

/-- What follows two words with blanks between them. -/
def wordPairAt? (first second : String) (before : Option Char) (text : List Char) :
    Option (List Char) := do
  if before.any Text.isWord then none
  let rest ← spell? first.toList text
  if !rest.head?.any Text.isBlank then none
  let rest ← spell? second.toList (rest.dropWhile Text.isBlank)
  if endsWord rest then some rest else none

/-! ## The clause -/

/-- What follows the last word RETURN that stands alone, `before` being the character before the
text. -/
def afterReturn? (before : Option Char) : List Char → Option (List Char)
  | [] => none
  | c :: rest =>
    match afterReturn? (some c) rest with
    | some clause => some clause
    | none => wordAt? "return" before (c :: rest)

/-- A word stands here that ends a RETURN clause. -/
def endsClause (before : Option Char) (text : List Char) : Bool :=
  (wordPairAt? "order" "by" before text).isSome || (wordAt? "skip" before text).isSome ||
    (wordAt? "limit" before text).isSome || (wordAt? "union" before text).isSome

/-- The text up to the first word that ends a RETURN clause. -/
def cutClause (before : Option Char) : List Char → List Char
  | [] => []
  | c :: rest =>
    if endsClause before (c :: rest) then [] else c :: cutClause (some c) rest

/-- The clause without a leading word DISTINCT. -/
def dropDistinct (clause : List Char) : List Char :=
  (wordAt? "distinct" none (clause.dropWhile Text.isBlank)).getD clause

/-! ## Items -/

/-- How a character changes the depth of brackets. Every kind of bracket counts alike, and the depth
can fall below zero. -/
def depthChange (c : Char) : Int :=
  if c = '(' ∨ c = '[' ∨ c = '\x7b' then 1
  else if c = ')' ∨ c = ']' ∨ c = '\x7d' then -1
  else 0

/-- The text cut at the commas at depth zero. -/
def splitTop (depth : Int) : List Char → List (List Char)
  | [] => [[]]
  | c :: text =>
    if c = ',' ∧ depth = 0 then [] :: splitTop depth text
    else
      match splitTop (depth + depthChange c) text with
      | [] => [[c]]
      | item :: items => (c :: item) :: items

/-- The text without the semicolons at its end. -/
def dropSemicolons (text : List Char) : List Char := (text.reverse.dropWhile (· == ';')).reverse

/-- An item without what surrounds it: blanks, and semicolons before the blanks at its end. -/
def tidy (item : List Char) : List Char := Text.trim (dropSemicolons (Text.trim item))

/-! ## Fields -/

/-- First character of an alias: that of a name, or one that folds to a letter. -/
def isAliasStart (c : Char) : Bool := Token.isNameStart c || c == '\u017f' || c == '\u212a'

/-- Further character of an alias. -/
def isAliasChar (c : Char) : Bool := Token.isNameChar c || c == '\u017f' || c == '\u212a'

/-- The text is an alias. -/
def isAlias : List Char → Bool
  | [] => false
  | c :: rest => isAliasStart c && rest.all isAliasChar

/-- The text is a name. -/
def isName : List Char → Bool
  | [] => false
  | c :: rest => Token.isNameStart c && rest.all Token.isNameChar

/-- The alias of an item: its last chunk without blanks, when the chunk before it is the word AS and
something stands before that. -/
def alias? (item : List Char) : Option (List Char) :=
  let back := item.reverse
  let last := (back.takeWhile (!Text.isBlank ·)).reverse
  match (back.dropWhile (!Text.isBlank ·)).dropWhile Text.isBlank with
  | s :: a :: blank :: _ =>
    if isLetter 's' s && isLetter 'a' a && Text.isBlank blank && isAlias last then some last
    else none
  | _ => none

/-- The last part of a property: names with dots between them. -/
def property? (item : List Char) : Option (List Char) :=
  let parts := item.splitOn '.'
  if parts.all isName then parts.getLast? else none

/-- The name of the field that an item gives. -/
def fieldName (item : List Char) : List Char :=
  ((alias? item) <|> property? item).getD item

/-- The items of a clause that name a field: those that say something other than everything. -/
def items (clause : List Char) : List (List Char) :=
  ((splitTop 0 clause).map tidy).filter fun item => !item.isEmpty && item != ['*']

/-- The fields a query body returns: each name once, in the order of first occurrence. -/
def returns (body : String) : List String :=
  match afterReturn? none body.toList with
  | none => []
  | some clause =>
    ((items (dropDistinct (cutClause none clause))).map (String.ofList <| fieldName ·)).eraseDups

theorem splitTop_ne_nil (depth : Int) (text : List Char) : splitTop depth text ≠ [] := by
  cases text with
  | nil => simp [splitTop]
  | cons c text =>
    rw [splitTop]
    split
    · simp
    · split <;> simp

theorem intercalate_splitTop (depth : Int) (text : List Char) :
    [','].intercalate (splitTop depth text) = text := by
  induction text generalizing depth with
  | nil => rfl
  | cons c text ih =>
    rw [splitTop]
    split
    · next h =>
      rw [Text.intercalate_cons ',' [] (splitTop_ne_nil depth text), ih, h.1]
      rfl
    · have ih := ih (depth + depthChange c)
      cases hs : splitTop (depth + depthChange c) text with
      | nil => exact absurd hs (splitTop_ne_nil _ text)
      | cons item more =>
        rw [hs] at ih
        cases more with
        | nil => simpa using ih
        | cons => simpa [List.intercalate_cons_cons] using ih

end QuerySuite.QueryBody
