import QuerySuite.Number
import QuerySuite.Path
import QuerySuite.Recovery

/-!
# Suites

The tree of a document: its imports, its named queries, the setup and teardown around its tests,
and for every query a scope with tests and groups of tests. Each node has a place in the document,
the comments attached to it, and a record of what was skipped while it was read.

A node that could not be read completely stays in the tree as a placeholder: the part that is
missing is empty or `none`, and its recovery record says what was skipped.

An expression of an assertion is kept as the run of tokens that was written. Its text is rebuilt
from them with one blank between two tokens, except where they belong together: after an opening
bracket, a dot or a negation, before a closing bracket, a comma, a colon or a dot, and between a
call or an index and what it applies to.

Results:

* `Expr.textFrom_cons`: the text of a run is the separator, the first token and the text after it.
-/

namespace QuerySuite

/-! ## What every node carries -/

/-- The comments attached to a node. -/
structure Comments where
  /-- Comments above the node, the oldest first. -/
  leading : List String := []
  /-- The comment after the node on its last line. -/
  trailing : Option String := none
  deriving DecidableEq

namespace Comments

/-- No comment is attached. -/
def isEmpty (c : Comments) : Bool := c.leading.isEmpty && c.trailing.isNone

/-- The comments of `c` and, after them, those of `other`; a trailing comment of `other` replaces
that of `c`. -/
def extend (c other : Comments) : Comments where
  leading := c.leading ++ other.leading
  trailing := other.trailing <|> c.trailing

end Comments

/-- Place, comments and recovery record of a node. -/
structure NodeInfo where
  span : Span := .zero
  comments : Comments := {}
  recovery : Recovery := .clean
  deriving DecidableEq

/-! ## Literals -/

/-- A plain value. -/
inductive Literal where
  | string (text : String)
  | number (value : Number)
  | bool (value : Bool)
  | null
  deriving DecidableEq

namespace Literal

/-- The text of a literal: strings in quotes, numbers in the fewest digits. -/
def display : Literal → String
  | string text => Text.quote text
  | number value => value.display
  | bool true => "true"
  | bool false => "false"
  | null => "null"

end Literal

/-! ## Expressions -/

/-- A token of an expression. -/
inductive ExprToken where
  /-- The contents of a string, without its quotes and escapes. -/
  | string (text : String)
  | number (text : String)
  | ident (text : String)
  | operator (text : String)
  | dot
  | colon
  | comma
  /-- One of the round and square brackets. -/
  | bracket (c : Char)
  deriving DecidableEq

namespace ExprToken

/-- How a character is written inside a string of an expression. -/
def escape (c : Char) : List Char := if c = '"' ∨ c = '\\' then ['\\', c] else [c]

/-- The text of a token. -/
def render : ExprToken → List Char
  | string text => '"' :: (text.toList.flatMap escape ++ ['"'])
  | number text => text.toList
  | ident text => text.toList
  | operator text => text.toList
  | dot => ['.']
  | colon => [':']
  | comma => [',']
  | bracket c => [c]

/-- Nothing is put between this token and the next. -/
def opens : ExprToken → Bool
  | dot => true
  | bracket c => c == '(' || c == '['
  | operator text => text == "!"
  | _ => false

/-- Nothing is put between the token before and this one. -/
def closes : ExprToken → Bool
  | dot => true
  | comma => true
  | colon => true
  | bracket c => c == ')' || c == ']'
  | _ => false

/-- The token ends something that can be called or indexed. -/
def isOperand : ExprToken → Bool
  | ident _ => true
  | string _ => true
  | number _ => true
  | bracket c => c == ')' || c == ']'
  | _ => false

/-- The bracket that calls or indexes what stands before it. -/
def applies : ExprToken → Bool
  | bracket c => c == '(' || c == '['
  | _ => false

/-- The blank between two tokens, or nothing. -/
def separator (before after : ExprToken) : List Char :=
  if before.opens || after.closes || (before.isOperand && after.applies) then [] else [' ']

end ExprToken

/-- An expression of an assertion: the tokens as they were written. -/
structure Expr extends NodeInfo where
  tokens : List ExprToken := []
  deriving DecidableEq

namespace Expr

/-- The text of a run of tokens after `before`. -/
def textFrom (before : ExprToken) : List ExprToken → List Char
  | [] => []
  | t :: rest => before.separator t ++ t.render ++ textFrom t rest

/-- The text of the expression. -/
def text (e : Expr) : String :=
  match e.tokens with
  | [] => ""
  | t :: rest => String.ofList (t.render ++ textFrom t rest)

@[simp]
theorem textFrom_cons (before t : ExprToken) (rest : List ExprToken) :
    textFrom before (t :: rest) = before.separator t ++ t.render ++ textFrom t rest := rfl

end Expr

/-! ## Calls and setups -/

/-- A value given to a parameter of a call. -/
inductive Argument where
  | literal (value : Literal)
  /-- A parameter of the test, without its sigil. -/
  | parameter (name : String)
  | list (values : List Argument)
  | map (entries : List (String × Argument))

/-- A parameter of a call by name. -/
structure Param where
  name : String
  value : Argument

/-- A call of a query, of this document or of an imported one. -/
structure Call extends NodeInfo where
  moduleName : Option String := none
  query : String := ""
  params : List Param := []

/-- The name of the query, after the name of its module if it has one. -/
def Call.qualifiedName (c : Call) : String :=
  match c.moduleName with
  | some name => name ++ "." ++ c.query
  | none => c.query

/-- What an item of a setup block runs. -/
inductive SetupTask where
  | inline (body : String)
  | call (call : Call)

/-- An item of a setup block. -/
structure SetupItem extends NodeInfo where
  /-- Missing only on a placeholder. -/
  task : Option SetupTask := none

/-- What a setup runs. -/
inductive SetupBody where
  /-- A query body in place. -/
  | inline (body : String)
  /-- The setup of an imported module. -/
  | moduleSetup (name : String)
  | call (call : Call)
  | block (items : List SetupItem)

/-- A setup of a suite, a scope, a group or a test. -/
structure Setup extends NodeInfo where
  /-- Missing only on a placeholder. -/
  body : Option SetupBody := none

/-- What is run when the tests of a body are done. -/
structure Teardown extends NodeInfo where
  /-- Missing only on a placeholder. -/
  body : Option String := none

/-! ## Statements and assertions -/

/-- An entry of a map, with its place. -/
structure Entry (α : Type) where
  key : String
  value : α
  span : Span

/-- A value in a statement. -/
inductive Value where
  | literal (info : NodeInfo) (value : Literal)
  | list (info : NodeInfo) (values : List Value)
  | map (info : NodeInfo) (entries : List (Entry Value))

/-- Place, comments and recovery record of a value. -/
def Value.info : Value → NodeInfo
  | literal info _ => info
  | list info _ => info
  | map info _ => info

/-- A statement of a test: an input when its key starts with the sigil `$`, else an expectation. -/
structure Statement extends NodeInfo where
  key : List String := []
  /-- Missing only on a placeholder. -/
  value : Option Value := none

namespace Statement

/-- The statement binds an input parameter. -/
def isInput (s : Statement) : Bool := s.key.head?.any (·.toList.head? == some '$')

/-- The key as written. -/
def keyPath (s : Statement) : String := ".".intercalate s.key

/-- The name of the input parameter, without its sigil. -/
def paramName (s : Statement) : Option String :=
  match s.key with
  | first :: _ =>
    match first.toList with
    | '$' :: name => some (String.ofList name)
    | _ => none
  | [] => none

end Statement

/-- The query an assertion runs before it looks at the result. -/
inductive AssertionQuery where
  | inline (body : String)
  | call (call : Call)

/-- Expressions that have to hold, of the test's own result or of another query's. -/
structure Assertion extends NodeInfo where
  query : Option AssertionQuery := none
  exprs : List Expr := []

/-! ## Tests, groups and scopes -/

/-- A test of a query. -/
structure Test extends NodeInfo where
  name : String := ""
  setup : Option Setup := none
  statements : List Statement := []
  asserts : List Assertion := []

/-- The statements that bind input parameters. -/
def Test.inputs (t : Test) : List Statement := t.statements.filter (·.isInput)

/-- The statements that expect an output. -/
def Test.expectations (t : Test) : List Statement := t.statements.filter (!·.isInput)

/-- What a group says of itself, beside the tests it holds. -/
structure Group extends NodeInfo where
  name : String := ""
  setup : Option Setup := none
  teardown : Option Teardown := none

/-- A member of a scope or a group: a test, or a group with its members. -/
inductive Item where
  | test (test : Test)
  | group (group : Group) (items : List Item)

/-- The place of a member. -/
def Item.span : Item → Span
  | test t => t.span
  | group g _ => g.span

/-- The tests of one query. -/
structure Scope extends NodeInfo where
  query : String := ""
  setup : Option Setup := none
  teardown : Option Teardown := none
  items : List Item := []

/-! ## Suites -/

/-- An import of another document. -/
structure Import extends NodeInfo where
  aliasName : Option String := none
  path : String := ""

/-- The name an import binds: its alias, or the stem of its path. A placeholder binds none. -/
def Import.name? (i : Import) : Option String :=
  (i.aliasName.filter (· != "")) <|> (Path.fileStem? i.path).filter (· != "")

/-- A named query. -/
structure Query extends NodeInfo where
  name : String := ""
  /-- The text between the backticks. -/
  body : String := ""

/-- A document. -/
structure Suite extends NodeInfo where
  imports : List Import := []
  queries : List Query := []
  setup : Option Setup := none
  teardown : Option Teardown := none
  scopes : List Scope := []
  /-- Every token of the document, trivia included. -/
  tokens : List Token := []

namespace Suite

/-- The first query of that name. -/
def query? (s : Suite) (name : String) : Option Query := s.queries.find? (·.name == name)

/-- The first import that binds that name. -/
def import? (s : Suite) (name : String) : Option Import :=
  s.imports.find? (·.name? == some name)

end Suite

end QuerySuite
