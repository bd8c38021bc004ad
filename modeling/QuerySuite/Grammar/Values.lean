import QuerySuite.Grammar.Phrase
import QuerySuite.Token.Contents

/-!
# Phrases for values, calls and statements

The phrases that read the inside of a clause. None of them depends on whether errors are recovered
from: a fault in one of them is a fault of the clause around it.

Results:

* `Phrase.argument_nil`, `Phrase.datum_nil`: a value cannot stand after the end of the document.
-/

namespace QuerySuite.Grammar.Phrase

variable {eof : Token} {α : Type}

/-! ## Literals and keys -/

/-- The literal that a token stands for. A number that cannot be read is an error of its own. -/
def literalOf (t : Token) : Except ParseError Literal :=
  match t.kind with
  | .string => .ok (.string (Token.unquote t.text))
  | .number =>
    match Number.read? t.text with
    | some n => .ok (.number n)
    | none => .error (.unexpected "number" t)
  | .keyword =>
    if t.text == "true" then .ok (.bool true)
    else if t.text == "false" then .ok (.bool false)
    else if t.text == "null" then .ok .null
    else .error (.unexpected "value" t)
  | _ => .error (.unexpected "value" t)

/-- Reads a literal. -/
def literal : Phrase eof Literal := fun c =>
  match c with
  | ⟨[], _⟩ => .fail (.unexpected "value" eof)
  | ⟨p :: rest, stop⟩ =>
    match literalOf p.token with
    | .ok l => .ok l (.after p rest) (Cursor.after_le p rest stop)
    | .error e => .fail e

/-- The text of a string or of a plain name. -/
def labelOf? (t : Token) : Option String :=
  if t.kind == .string then some (Token.unquote t.text)
  else if t.isName then some t.text
  else none

/-- Reads a string or a plain name, and gives what it says. -/
def label (expected : String) : Phrase eof String := do
  let t ← expect (fun t => (labelOf? t).isSome) expected
  pure ((labelOf? t).getD "")

/-- Reads the key of a map, the colon after it, and the value it stands for. -/
def entry (c : Cursor eof) (element : (d : Cursor eof) → d.size ≤ c.size → Reply eof α d.size) :
    Reply eof (Entry α) c.size :=
  (label "map key" c).andThen fun key d hd =>
    (ofKind .colon "':'" d).andThen fun _ e he =>
      (element e (Cursor.le_trans he hd)).andThen fun v f _ =>
        .ok ⟨key, v, ⟨c.token.start, f.stop⟩⟩ f f.le_refl

/-! ## Arguments and calls -/

/-- The name of the parameter a token stands for, without its sigil. -/
def parameterOf? (t : Token) : Option String :=
  match t.text.toList with
  | '$' :: c :: name => some (String.ofList (c :: name))
  | _ => none

/-- Reads an argument of a call: a literal, a parameter, a list or a map. -/
def argument (c : Cursor eof) : Reply eof Argument c.size :=
  match c with
  | ⟨[], _⟩ => .fail (.unexpected "value" eof)
  | ⟨p :: rest, stop⟩ =>
    if p.token.kind == .ident && p.token.isParameter then
      match parameterOf? p.token with
      | some name => .ok (.parameter name) (.after p rest) (Cursor.after_le p rest stop)
      | none => .fail (.unexpected "parameter value" p.token)
    else if p.token.kind == .lbracket then
      ((elements .rbracket "',' or ']'" (.after p rest) fun d _ => argument d).map
        Argument.list).widen (Cursor.after_le p rest stop)
    else if p.token.kind == .lbrace then
      ((elements .rbrace "',' or '\x7d'" (.after p rest) fun d _ =>
          entry d fun e _ => argument e).map
        fun es => Argument.map (es.map fun e => (e.key, e.value))).widen
          (Cursor.after_le p rest stop)
    else
      (literal ⟨p :: rest, stop⟩).map Argument.literal
termination_by c.size
decreasing_by
  · rename_i hd
    exact Nat.lt_succ_of_le hd
  · rename_i hd he
    exact Nat.lt_succ_of_le (Nat.le_trans he hd)

theorem argument_nil (stop : Position) :
    argument (⟨[], stop⟩ : Cursor eof) = .fail (.unexpected "value" eof) := by
  rw [argument]

/-- Reads a parameter of a call: its name, a colon and its value. -/
def param : Phrase eof Param := do
  let name ← name "parameter name"
  let _ ← ofKind .colon "':'"
  let value ← argument
  pure ⟨name, value⟩

/-- Reads the parameters of a call after their opening bracket. -/
def paramList : Phrase eof (List Param) :=
  fun c => elements .rparen "',' or ')'" c fun d _ => param d

/-- Reads the query of a call whose first name is `first`: that name, or the one after a dot, in
which case the first names a module. -/
def callTarget (first : Token) : Phrase eof (Option String × String) := do
  match ← next? (·.kind == .dot) with
  | none => pure (none, first.text)
  | some _ => do
    let query ← name "query name"
    pure (some first.text, query)

/-- Reads the parameters of a call, if it has any. -/
def callParams : Phrase eof (List Param) := do
  match ← next? (·.kind == .lparen) with
  | none => pure []
  | some _ => paramList

/-- Reads a call after its first name. -/
def call (first : Token) : Phrase eof Call := do
  let (moduleName, query) ← callTarget first
  let params ← callParams
  let stop ← lastStop
  pure { moduleName, query, params, span := ⟨first.start, stop⟩ }

/-! ## Statements -/

/-- Reads a value of a statement: a literal, a list or a map. -/
def datum (c : Cursor eof) : Reply eof Value c.size :=
  match c with
  | ⟨[], _⟩ => .fail (.unexpected "value" eof)
  | ⟨p :: rest, stop⟩ =>
    if p.token.kind == .lbracket then
      ((elements .rbracket "',' or ']'" (.after p rest) fun d _ => datum d).andThen
        fun vs d _ => .ok (Value.list { span := ⟨p.token.start, d.stop⟩ } vs) d
          d.le_refl).widen (Cursor.after_le p rest stop)
    else if p.token.kind == .lbrace then
      ((elements .rbrace "',' or '\x7d'" (.after p rest) fun d _ =>
          entry d fun e _ => datum e).andThen
        fun es d _ => .ok (Value.map { span := ⟨p.token.start, d.stop⟩ } es) d
          d.le_refl).widen (Cursor.after_le p rest stop)
    else
      (literal ⟨p :: rest, stop⟩).andThen
        fun l d _ => .ok (Value.literal { span := ⟨p.token.start, d.stop⟩ } l) d d.le_refl
termination_by c.size
decreasing_by
  · rename_i hd
    exact Nat.lt_succ_of_le hd
  · rename_i hd he
    exact Nat.lt_succ_of_le (Nat.le_trans he hd)

theorem datum_nil (stop : Position) :
    datum (⟨[], stop⟩ : Cursor eof) = .fail (.unexpected "value" eof) := by
  rw [datum]

/-- What a token adds to the key of a statement after a dot: a plain name, or the parts of a number
without a sign, since two indices in a row look like one number. -/
def segmentOf? (t : Token) : Option (List String) :=
  if t.isName then some [t.text]
  else if t.kind == .number && t.text.toList.head? != some '-' then
    some ((t.text.toList.splitOn '.').map String.ofList)
  else none

/-- Reads the parts of a key after its first one, each after a dot. -/
def segments (stop : Position) : (rest : List Piece) → Reply eof (List String) rest.length
  | [] => .ok [] ⟨[], stop⟩ (Nat.le_refl _)
  | [p] =>
    if p.token.kind == .dot then .fail (.unexpected "key segment" eof)
    else .ok [] ⟨[p], stop⟩ (Nat.le_refl _)
  | p :: q :: rest =>
    if p.token.kind == .dot then
      match segmentOf? q.token with
      | none => .fail (.unexpected "key segment" q.token)
      | some texts =>
        ((segments q.token.stop rest).map (texts ++ ·)).widen
          (Nat.le_trans (Nat.le_succ _) (Nat.le_succ _))
    else .ok [] ⟨p :: q :: rest, stop⟩ (Nat.le_refl _)

/-- Reads a statement after the first part of its key. -/
def statement (first : Token) : Phrase eof Statement := do
  let more ← (fun c => segments c.stop c.rest : Phrase eof (List String))
  let _ ← ofKind .colon "':'"
  let value ← datum
  let stop ← lastStop
  pure { key := first.text :: more, value := some value, span := ⟨first.start, stop⟩ }

/-! ## Expressions -/

/-- A token at which an expression that began on `line` ends without being part of it. -/
def endsExpr (line : Nat) (t : Token) : Bool :=
  t.start.line != line || t.kind == .rbrace || t.kind == .semicolon

/-- Reads the further tokens of an expression that began on `line`. -/
def exprRest (line : Nat) (stop : Position) :
    (rest : List Piece) → Reply eof (List ExprToken) rest.length
  | [] => .ok [] ⟨[], stop⟩ (Nat.le_refl _)
  | p :: rest =>
    if endsExpr line p.token then .ok [] ⟨p :: rest, stop⟩ (Nat.le_refl _)
    else
      match p.token.exprToken? with
      | none => .fail (.unexpected "expression" p.token)
      | some t =>
        ((exprRest line p.token.stop rest).map (t :: ·)).widen (@Cursor.after_le eof p rest stop)

/-- Reads an expression after its first token: what stands on the same line, up to a semicolon or a
closing brace. -/
def expr (first : Token) : Phrase eof Expr := do
  match first.exprToken? with
  | none => failure (.unexpected "expression" first)
  | some t => do
    let more ← (fun c => exprRest first.start.line c.stop c.rest : Phrase eof (List ExprToken))
    let stop ← lastStop
    pure { tokens := t :: more, span := ⟨first.start, stop⟩ }

/-! ## Declarations -/

/-- Reads an import after its reserved word: an optional name, and the path. -/
def importClause (lead : Token) : Phrase eof Import := do
  let aliasName ← next? (·.isName)
  let path ← ofKind .string "import path"
  let stop ← lastStop
  pure
    { aliasName := aliasName.map (·.text), path := Token.unquote path.text,
      span := ⟨lead.start, stop⟩ }

/-- Reads a query after its reserved word: its name and its body. -/
def queryClause (lead : Token) : Phrase eof Query := do
  let name ← name "query name"
  let body ← ofKind .rawString "query body"
  let stop ← lastStop
  pure { name, body := Token.rawBody body.text, span := ⟨lead.start, stop⟩ }

/-- Reads a teardown after its reserved word: its body. -/
def teardownClause (lead : Token) : Phrase eof Teardown := do
  let body ← ofKind .rawString "teardown body"
  let stop ← lastStop
  pure { body := some (Token.rawBody body.text), span := ⟨lead.start, stop⟩ }

end QuerySuite.Grammar.Phrase
