import QuerySuite.Suite.Basic

/-!
# Completions

What is being typed at a cursor: which kind of name it is, the part of it that stands there already,
and where in the suite the cursor is. The tokens before and under a cursor are found by line and
column only, so that a cursor of an editor will do.
-/

namespace QuerySuite

/-! ## Tokens around a cursor -/

/-- The token can be under a cursor: it is no trivia, not the end, and has a text. -/
def Token.isVisible (t : Token) : Bool :=
  !t.isTrivia && t.kind != .eof && !t.text.toList.isEmpty

/-- The later of two tokens by place; of two at one place the second. -/
def Token.later (best : Option Token) (t : Token) : Option Token :=
  match best with
  | none => some t
  | some b => if b.start.isAfter t.start then some b else some t

namespace Suite

/-- The tokens that can be under a cursor. -/
def visibleTokens (s : Suite) : List Token := s.tokens.filter (·.isVisible)

/-- The nearest token that ends at or before the place `p`. -/
def previousToken (s : Suite) (p : Position) : Option Token :=
  (s.visibleTokens.filter (!·.stop.isAfter p)).foldl Token.later none

/-- The token that starts at or before the place `p` and ends after it. -/
def tokenAt (s : Suite) (p : Position) : Option Token :=
  s.visibleTokens.find? fun t => !t.start.isAfter p && t.stop.isAfter p

end Suite

/-! ## What is typed -/

/-- The kinds of names that can be offered. -/
inductive CompletionKind where
  /-- A name of an imported module. -/
  | moduleName
  /-- A query of a module. -/
  | function
  /-- An input parameter. -/
  | parameter
  /-- A field that the query of the scope returns. -/
  | returnField
  | keyword
  deriving DecidableEq

/-- The name of a kind. -/
def CompletionKind.name : CompletionKind → String
  | moduleName => "module_alias"
  | function => "function"
  | parameter => "parameter"
  | returnField => "return_field"
  | keyword => "keyword"

/-- Where in a suite something stands. -/
structure Surroundings where
  inSetup : Bool := false
  inTest : Bool := false
  inAssert : Bool := false
  /-- The query of the scope around it. -/
  scope : Option String := none
  deriving DecidableEq

namespace Surroundings

/-- Inside a setup. -/
def setup (w : Surroundings) : Surroundings := { w with inSetup := true }

/-- Inside a test. -/
def test (w : Surroundings) : Surroundings := { w with inTest := true }

/-- Inside an assertion. -/
def assertion (w : Surroundings) : Surroundings := { w with inAssert := true }

/-- Inside the scope of a query. -/
def within (w : Surroundings) (query : String) : Surroundings := { w with scope := some query }

end Surroundings

/-- What is being typed at a cursor. -/
structure Completion extends Surroundings where
  kind : CompletionKind
  /-- What stands there of the name already. -/
  typed : String := ""
  /-- The module whose queries are offered. -/
  moduleName : Option String := none
  /-- The place of the error this was told from. -/
  errorAt : Option Position := none
  /-- The token before the cursor. -/
  previous : Option Token := none
  deriving DecidableEq

namespace Completion

/-- A completion of a kind, with the part that is typed. -/
def of (kind : CompletionKind) (typed : String) (w : Surroundings) : Completion :=
  { toSurroundings := w, kind, typed }

/-- A query of the module `name`. -/
def functionOf (name typed : String) (w : Surroundings) : Completion :=
  { toSurroundings := w, kind := .function, typed, moduleName := some name }

end Completion

end QuerySuite
