import Mathlib.Data.List.Forall2
import QuerySuite.Parse

/-!
# The productions of the grammar

Which lists of significant tokens spell which part of a suite. Each production is a relation between
the tokens and the value; it says nothing about how the tokens are read, and looks at no token that
is not its own. Tokens are joined by appending lists, so a production reads like a line of a
grammar.

A node reaches from the start of its first token to the end of its last one.

Results:

* `IsSuite`: the tokens of a document without its end token, and the suite they spell.
-/

namespace QuerySuite.Grammar

variable {α : Type}

/-- From the start of the first token to the end of the last one. -/
def extent : List Token → Span
  | [] => .zero
  | t :: ts => ⟨t.start, (ts.getLast?.getD t).stop⟩

/-! ## Runs of phrases -/

/-- Elements with commas between them. A comma may stand behind the last one. -/
inductive IsList (P : List Token → α → Prop) : List Token → List α → Prop where
  | nil : IsList P [] []
  | last {ts : List Token} {a : α} (h : P ts a) : IsList P ts [a]
  | cons {ts us : List Token} {comma : Token} {a : α} {as : List α} (h : P ts a)
      (hcomma : comma.kind = .comma) (hs : IsList P us as) : IsList P (ts ++ comma :: us) (a :: as)

/-- Members one after another, and between them tokens that separate. The token behind a member
stands apart from it. -/
inductive IsSeries (separates : Token → Prop) (apart : List Token → Token → Prop)
    (P : List Token → α → Prop) : List Token → List α → Prop where
  | nil : IsSeries separates apart P [] []
  | separator {t : Token} {ts : List Token} {as : List α} (ht : separates t)
      (hs : IsSeries separates apart P ts as) : IsSeries separates apart P (t :: ts) as
  | member {ts us : List Token} {a : α} {as : List α} (h : P ts a)
      (hapart : ∀ u ∈ us.head?, apart ts u) (hs : IsSeries separates apart P us as) :
      IsSeries separates apart P (ts ++ us) (a :: as)

/-! ## Literals and keys -/

/-- A string or a plain name, and what it says. -/
inductive IsLabel : Token → String → Prop where
  | string {t : Token} (h : t.kind = .string) : IsLabel t (Token.unquote t.text)
  | name {t : Token} (h : t.isName = true) : IsLabel t t.text

/-- A literal and its value. -/
inductive IsLiteral : Token → Literal → Prop where
  | string {t : Token} (h : t.kind = .string) : IsLiteral t (.string (Token.unquote t.text))
  | number {t : Token} {n : Number} (h : t.kind = .number) (hn : Number.read? t.text = some n) :
      IsLiteral t (.number n)
  | yes {t : Token} (h : t.isKeyword "true" = true) : IsLiteral t (.bool true)
  | no {t : Token} (h : t.isKeyword "false" = true) : IsLiteral t (.bool false)
  | null {t : Token} (h : t.isKeyword "null" = true) : IsLiteral t .null

/-- An entry of a map: a key, a colon and a value. -/
inductive IsEntry (P : List Token → α → Prop) : List Token → Entry α → Prop where
  | entry {k colon : Token} {ts : List Token} {key : String} {a : α} (hk : IsLabel k key)
      (hcolon : colon.kind = .colon) (h : P ts a) :
      IsEntry P (k :: colon :: ts) ⟨key, a, extent (k :: colon :: ts)⟩

/-! ## Calls -/

/-- A value given to a parameter of a call. A map of such values keeps no places. -/
inductive IsArgument : List Token → Argument → Prop where
  | literal {t : Token} {l : Literal} (h : IsLiteral t l) : IsArgument [t] (.literal l)
  | parameter {t : Token} {name : String} (hk : t.kind = .ident) (ht : t.text = "$" ++ name)
      (hname : name ≠ "") : IsArgument [t] (.parameter name)
  | list {o c : Token} {ts : List Token} {as : List Argument} (ho : o.kind = .lbracket)
      (h : IsList IsArgument ts as) (hc : c.kind = .rbracket) :
      IsArgument (o :: (ts ++ [c])) (.list as)
  | map {o c : Token} {ts : List Token} {es : List (Entry Argument)} (ho : o.kind = .lbrace)
      (h : IsList (IsEntry IsArgument) ts es) (hc : c.kind = .rbrace) :
      IsArgument (o :: (ts ++ [c])) (.map (es.map fun e => (e.key, e.value)))

/-- A parameter of a call: a name, a colon and a value. -/
inductive IsParam : List Token → Param → Prop where
  | param {n colon : Token} {ts : List Token} {a : Argument} (hn : n.isName = true)
      (hcolon : colon.kind = .colon) (h : IsArgument ts a) : IsParam (n :: colon :: ts) ⟨n.text, a⟩

/-- The parameters of a call in their brackets, if there are any. -/
inductive IsParams : List Token → List Param → Prop where
  | absent : IsParams [] []
  | list {o c : Token} {ts : List Token} {ps : List Param} (ho : o.kind = .lparen)
      (h : IsList IsParam ts ps) (hc : c.kind = .rparen) : IsParams (o :: (ts ++ [c])) ps

/-- A call of a query of this document, or of a module. -/
inductive IsCall : List Token → Call → Prop where
  | plain {n : Token} {ts : List Token} {params : List Param} (hn : n.isName = true)
      (h : IsParams ts params) :
      IsCall (n :: ts) { query := n.text, params, span := extent (n :: ts) }
  | qualified {m dot n : Token} {ts : List Token} {params : List Param} (hm : m.isName = true)
      (hdot : dot.kind = .dot) (hn : n.isName = true) (h : IsParams ts params) :
      IsCall (m :: dot :: n :: ts)
        { moduleName := some m.text, query := n.text, params,
          span := extent (m :: dot :: n :: ts) }

/-! ## Setups -/

/-- An item of a setup block: a query body or a call. -/
inductive IsSetupItem : List Token → SetupItem → Prop where
  | inline {t : Token} (h : t.kind = .rawString) :
      IsSetupItem [t] { task := some (.inline (Token.rawBody t.text)), span := extent [t] }
  | call {ts : List Token} {c : Call} (h : IsCall ts c) :
      IsSetupItem ts { task := some (.call c), span := extent ts }

/-- What a setup runs: a query body, a module, a call or a block. A name on its own is a module. -/
inductive IsSetupBody : List Token → SetupBody → Prop where
  | inline {t : Token} (h : t.kind = .rawString) :
      IsSetupBody [t] (.inline (Token.rawBody t.text))
  | moduleSetup {t : Token} (h : t.isName = true) : IsSetupBody [t] (.moduleSetup t.text)
  | call {ts : List Token} {c : Call} (h : IsCall ts c) (hlong : 1 < ts.length) :
      IsSetupBody ts (.call c)
  | block {o c : Token} {ts : List Token} {items : List SetupItem} (ho : o.kind = .lbrace)
      (h : IsSeries (·.kind = .semicolon) (fun _ _ => True) IsSetupItem ts items)
      (hc : c.kind = .rbrace) : IsSetupBody (o :: (ts ++ [c])) (.block items)

/-- A setup: its reserved word and what it runs. -/
inductive IsSetup : List Token → Setup → Prop where
  | setup {w : Token} {ts : List Token} {body : SetupBody} (hw : w.isKeyword "setup" = true)
      (h : IsSetupBody ts body) :
      IsSetup (w :: ts) { body := some body, span := extent (w :: ts) }

/-- A teardown: its reserved word and a query body. -/
inductive IsTeardown : List Token → Teardown → Prop where
  | teardown {w t : Token} (hw : w.isKeyword "teardown" = true) (h : t.kind = .rawString) :
      IsTeardown [w, t] { body := some (Token.rawBody t.text), span := extent [w, t] }

/-! ## Statements -/

/-- A value of a statement. -/
inductive IsDatum : List Token → Value → Prop where
  | literal {t : Token} {l : Literal} (h : IsLiteral t l) :
      IsDatum [t] (.literal { span := extent [t] } l)
  | list {o c : Token} {ts : List Token} {vs : List Value} (ho : o.kind = .lbracket)
      (h : IsList IsDatum ts vs) (hc : c.kind = .rbracket) :
      IsDatum (o :: (ts ++ [c])) (.list { span := extent (o :: (ts ++ [c])) } vs)
  | map {o c : Token} {ts : List Token} {es : List (Entry Value)} (ho : o.kind = .lbrace)
      (h : IsList (IsEntry IsDatum) ts es) (hc : c.kind = .rbrace) :
      IsDatum (o :: (ts ++ [c])) (.map { span := extent (o :: (ts ++ [c])) } es)

/-- What a key adds behind a dot: a name, or the parts of a number without a sign. -/
inductive IsSegment : Token → List String → Prop where
  | name {t : Token} (h : t.isName = true) : IsSegment t [t.text]
  | number {t : Token} (h : t.kind = .number) (hsign : t.text.toList.head? ≠ some '-') :
      IsSegment t ((t.text.toList.splitOn '.').map String.ofList)

/-- The parts of a key behind its first one, each behind a dot. -/
inductive IsSegments : List Token → List String → Prop where
  | nil : IsSegments [] []
  | cons {dot t : Token} {ts : List Token} {texts more : List String} (hdot : dot.kind = .dot)
      (ht : IsSegment t texts) (h : IsSegments ts more) :
      IsSegments (dot :: t :: ts) (texts ++ more)

/-- A statement: a key, a colon and a value. -/
inductive IsStatement : List Token → Statement → Prop where
  | statement {k colon : Token} {ts us : List Token} {more : List String} {v : Value}
      (hk : k.kind = .ident) (h : IsSegments ts more) (hcolon : colon.kind = .colon)
      (hv : IsDatum us v) :
      IsStatement (k :: (ts ++ colon :: us))
        { key := k.text :: more, value := some v, span := extent (k :: (ts ++ colon :: us)) }

/-! ## Assertions -/

/-- An expression: tokens of expressions on one line. -/
inductive IsExpr : List Token → Expr → Prop where
  | expr {t : Token} {ts : List Token} {x : ExprToken} {xs : List ExprToken}
      (ht : t.exprToken? = some x) (hts : List.Forall₂ (fun u y => u.exprToken? = some y) ts xs)
      (hline : ∀ u ∈ ts, u.start.line = t.start.line) :
      IsExpr (t :: ts) { tokens := x :: xs, span := extent (t :: ts) }

/-- The token does not go on the expression before it: an expression takes all that it can of its
line. -/
def EndsLine (ts : List Token) (u : Token) : Prop :=
  u.exprToken?.isSome = true → u.start.line ≠ (extent ts).start.line

/-- The query of an assertion, if it has one. -/
inductive IsAssertionQuery : List Token → Option AssertionQuery → Prop where
  | absent : IsAssertionQuery [] none
  | inline {t : Token} (h : t.kind = .rawString) :
      IsAssertionQuery [t] (some (.inline (Token.rawBody t.text)))
  | call {ts : List Token} {c : Call} (h : IsCall ts c) : IsAssertionQuery ts (some (.call c))

/-- An assertion: its reserved word, perhaps a query, and expressions in braces. -/
inductive IsAssertion : List Token → Assertion → Prop where
  | assertion {w o c : Token} {qs ts : List Token} {query : Option AssertionQuery}
      {exprs : List Expr} (hw : w.isKeyword "assert" = true) (hq : IsAssertionQuery qs query)
      (ho : o.kind = .lbrace) (h : IsSeries (·.kind = .semicolon) EndsLine IsExpr ts exprs)
      (hc : c.kind = .rbrace) :
      IsAssertion (w :: (qs ++ o :: (ts ++ [c])))
        { query, exprs, span := extent (w :: (qs ++ o :: (ts ++ [c]))) }

/-! ## Tests -/

namespace Clause

/-- The setup that a member of a test is. -/
def TestMember.setup? : TestMember → Option Setup
  | setup s => some s
  | _ => none

/-- The statement that a member of a test is. -/
def TestMember.statement? : TestMember → Option Statement
  | statement s => some s
  | _ => none

/-- The assertion that a member of a test is. -/
def TestMember.assertion? : TestMember → Option Assertion
  | assertion a => some a
  | _ => none

/-- The setup that a member of a scope or a group is. -/
def BodyMember.setup? : BodyMember → Option Setup
  | setup s => some s
  | _ => none

/-- The teardown that a member of a scope or a group is. -/
def BodyMember.teardown? : BodyMember → Option Teardown
  | teardown t => some t
  | _ => none

/-- The test or group that a member of a scope or a group is. -/
def BodyMember.item? : BodyMember → Option Item
  | item i => some i
  | _ => none

end Clause

open Clause (TestMember BodyMember)

/-- Among the members there is at most one of the kind that `which` picks. -/
def AtMostOne {β : Type} (which : α → Option β) (members : List α) : Prop :=
  (members.filterMap which).length ≤ 1

/-- A member of a test. -/
inductive IsTestMember : List Token → TestMember → Prop where
  | setup {ts : List Token} {s : Setup} (h : IsSetup ts s) : IsTestMember ts (.setup s)
  | statement {ts : List Token} {s : Statement} (h : IsStatement ts s) :
      IsTestMember ts (.statement s)
  | assertion {ts : List Token} {a : Assertion} (h : IsAssertion ts a) :
      IsTestMember ts (.assertion a)

/-- A test: its reserved word, its name and its members in braces. -/
inductive IsTest : List Token → Test → Prop where
  | test {w n o c : Token} {ts : List Token} {name : String} {ms : List TestMember}
      (hw : w.isKeyword "test" = true) (hn : IsLabel n name) (ho : o.kind = .lbrace)
      (h : IsSeries (fun _ => False) (fun _ _ => True) IsTestMember ts ms) (hc : c.kind = .rbrace)
      (hsetup : AtMostOne TestMember.setup? ms) :
      IsTest (w :: n :: o :: (ts ++ [c]))
        { name, setup := (ms.filterMap TestMember.setup?).head?,
          statements := ms.filterMap TestMember.statement?,
          asserts := ms.filterMap TestMember.assertion?,
          span := extent (w :: n :: o :: (ts ++ [c])) }

/-! ## Scopes and groups -/

/-- The body of a scope or a group: members in braces, with at most one setup and one teardown. -/
inductive IsBody (P : List Token → BodyMember → Prop) : List Token → Clause.Body → Prop where
  | body {o c : Token} {ts : List Token} {ms : List BodyMember} (ho : o.kind = .lbrace)
      (h : IsSeries (fun _ => False) (fun _ _ => True) P ts ms) (hc : c.kind = .rbrace)
      (hsetup : AtMostOne BodyMember.setup? ms) (hteardown : AtMostOne BodyMember.teardown? ms) :
      IsBody P (o :: (ts ++ [c]))
        { setup := (ms.filterMap BodyMember.setup?).head?,
          teardown := (ms.filterMap BodyMember.teardown?).head?,
          items := ms.filterMap BodyMember.item? }

/-- A member of a scope or a group. The members of a group are such members again. -/
inductive IsBodyMember : List Token → BodyMember → Prop where
  | setup {ts : List Token} {s : Setup} (h : IsSetup ts s) : IsBodyMember ts (.setup s)
  | teardown {ts : List Token} {t : Teardown} (h : IsTeardown ts t) : IsBodyMember ts (.teardown t)
  | test {ts : List Token} {t : Test} (h : IsTest ts t) : IsBodyMember ts (.item (.test t))
  | group {w n : Token} {ts : List Token} {name : String} {b : Clause.Body}
      (hw : w.isKeyword "group" = true) (hn : IsLabel n name) (h : IsBody IsBodyMember ts b) :
      IsBodyMember (w :: n :: ts)
        (.item (.group
          { name, setup := b.setup, teardown := b.teardown, span := extent (w :: n :: ts) }
          b.items))

/-- A scope: the name of its query and a body. -/
inductive IsScope : List Token → Scope → Prop where
  | scope {n : Token} {ts : List Token} {b : Clause.Body} (hn : n.isName = true)
      (h : IsBody IsBodyMember ts b) :
      IsScope (n :: ts)
        { query := n.text, setup := b.setup, teardown := b.teardown, items := b.items,
          span := extent (n :: ts) }

/-! ## Documents -/

/-- An import: its reserved word, perhaps a name, and a path. -/
inductive IsImport : List Token → Import → Prop where
  | plain {w path : Token} (hw : w.isKeyword "import" = true) (hpath : path.kind = .string) :
      IsImport [w, path] { path := Token.unquote path.text, span := extent [w, path] }
  | named {w n path : Token} (hw : w.isKeyword "import" = true) (hn : n.isName = true)
      (hpath : path.kind = .string) :
      IsImport [w, n, path]
        { aliasName := some n.text, path := Token.unquote path.text, span := extent [w, n, path] }

/-- A query: its reserved word, its name and its body. -/
inductive IsQuery : List Token → Query → Prop where
  | query {w n body : Token} (hw : w.isKeyword "query" = true) (hn : n.isName = true)
      (hbody : body.kind = .rawString) :
      IsQuery [w, n, body]
        { name := n.text, body := Token.rawBody body.text, span := extent [w, n, body] }

namespace TopMember

/-- The import that a member of a document is. -/
def import? : TopMember → Option Import
  | importClause i => some i
  | _ => none

/-- The query that a member of a document is. -/
def query? : TopMember → Option Query
  | query q => some q
  | _ => none

/-- The setup that a member of a document is. -/
def setup? : TopMember → Option Setup
  | setup s => some s
  | _ => none

/-- The teardown that a member of a document is. -/
def teardown? : TopMember → Option Teardown
  | teardown t => some t
  | _ => none

/-- The scope that a member of a document is. -/
def scope? : TopMember → Option Scope
  | scope s => some s
  | _ => none

end TopMember

/-- A member of a document. -/
inductive IsTopMember : List Token → TopMember → Prop where
  | importClause {ts : List Token} {i : Import} (h : IsImport ts i) :
      IsTopMember ts (.importClause i)
  | query {ts : List Token} {q : Query} (h : IsQuery ts q) : IsTopMember ts (.query q)
  | setup {ts : List Token} {s : Setup} (h : IsSetup ts s) : IsTopMember ts (.setup s)
  | teardown {ts : List Token} {t : Teardown} (h : IsTeardown ts t) : IsTopMember ts (.teardown t)
  | scope {ts : List Token} {s : Scope} (h : IsScope ts s) : IsTopMember ts (.scope s)

/-- A suite: its members, with at most one setup and one teardown. -/
inductive IsSuite : List Token → Suite → Prop where
  | suite {ts : List Token} {ms : List TopMember}
      (h : IsSeries (fun _ => False) (fun _ _ => True) IsTopMember ts ms)
      (hsetup : AtMostOne TopMember.setup? ms) (hteardown : AtMostOne TopMember.teardown? ms) :
      IsSuite ts
        { imports := ms.filterMap TopMember.import?, queries := ms.filterMap TopMember.query?,
          setup := (ms.filterMap TopMember.setup?).head?,
          teardown := (ms.filterMap TopMember.teardown?).head?,
          scopes := ms.filterMap TopMember.scope? }

end QuerySuite.Grammar
