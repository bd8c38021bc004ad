import QuerySuite.Token.Scan
import QuerySuite.Suite.Basic

/-!
# What tokens stand for

The contents of a string, of a query body, and the expression token that a token stands for.

Results:

* `Token.unescape_escape`: the escapes of an expression's text are resolved again.
-/

namespace QuerySuite.Token

/-- Resolves escapes: a backslash before `n` or `t` is a newline or a tab, before any other
character it only lets that character stand, and at the end it stands for itself. -/
def unescape : List Char → List Char
  | [] => []
  | '\\' :: 'n' :: rest => '\n' :: unescape rest
  | '\\' :: 't' :: rest => '\t' :: unescape rest
  | '\\' :: c :: rest => c :: unescape rest
  | c :: rest => c :: unescape rest

/-- The text without one `c` at its front. -/
def dropFront (c : Char) : List Char → List Char
  | [] => []
  | d :: rest => if d = c then rest else d :: rest

/-- The text without one `c` at either end. -/
def strip (c : Char) (text : List Char) : List Char :=
  (dropFront c (dropFront c text).reverse).reverse

/-- The contents of a string. -/
def unquote (text : String) : String := String.ofList (unescape (strip '"' text.toList))

/-- The contents of a query body. -/
def rawBody (text : String) : String := String.ofList (strip backtick text.toList)

/-- The expression token that a token stands for, if expressions admit it. -/
def exprToken? (t : Token) : Option ExprToken :=
  match t.kind with
  | .string => some (.string (unquote t.text))
  | .number => some (.number t.text)
  | .ident => some (.ident t.text)
  | .keyword =>
    if t.text == "true" || t.text == "false" || t.text == "null" then some (.ident t.text) else none
  | .operator => some (.operator t.text)
  | .dot => some .dot
  | .colon => some .colon
  | .comma => some .comma
  | .lparen => some (.bracket '(')
  | .rparen => some (.bracket ')')
  | .lbracket => some (.bracket '[')
  | .rbracket => some (.bracket ']')
  | _ => none

/-- The escapes of an expression's text are resolved again. -/
theorem unescape_escape (text : List Char) :
    unescape (text.flatMap ExprToken.escape) = text := by
  induction text with
  | nil => rfl
  | cons c text ih =>
    rw [List.flatMap_cons]
    by_cases hq : c = '"'
    · subst hq; simp [ExprToken.escape, unescape, ih]
    · by_cases hb : c = '\\'
      · subst hb; simp [ExprToken.escape, unescape, ih]
      · simp [ExprToken.escape, hq, hb, unescape, ih]

end QuerySuite.Token
