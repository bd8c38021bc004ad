import QuerySuite.Grammar.Member
import QuerySuite.Grammar.Values

/-!
# Clauses of a document

The clauses that hold bodies: setups with a block, assertions, tests, and the bodies of scopes and
groups, which nest. Each is read after its first token, which its body hands over.

Results:

* `Clause.body_eq`: the body of a scope or group, unfolded once.
-/

namespace QuerySuite.Grammar

variable {eof : Token} {α : Type}

/-- The error for a clause that stands again. -/
def duplicate (what : String) (t : Token) : ParseError := .duplicate what t.span

namespace Clause

/-- The token that opens a body. -/
def openBody : Clause eof Token := ofPhrase (.ofKind .lbrace "'\x7b'")

/-- The end of the last token read. -/
def lastStop : Clause eof Position := ofPhrase .lastStop

/-! ## Setups -/

/-- Reads an item of a setup block after its first token. -/
def setupItem (lead : Token) : Clause eof SetupItem :=
  if lead.kind == .rawString then
    pure { task := some (.inline (Token.rawBody lead.text)), span := lead.span }
  else if lead.isName then do
    let call ← ofPhrase (.call lead)
    let stop ← lastStop
    pure { task := some (.call call), span := ⟨lead.start, stop⟩ }
  else failure (.unexpected "setup item" lead)

/-- Adds what came of an item to a setup block. -/
def placeSetupItem (items : List SetupItem) : Member SetupItem → List SetupItem
  | .parsed item => items ++ [item]
  | .skipped region => items ++ [{ region.placeholder with }]

/-- Reads a setup block after its opening brace. -/
def setupBlock (mode : Mode) : Clause eof (SetupBody × Recovery) := do
  let items ← (fun s => members mode .setupBlock placeSetupItem s.size
    (fun _ lead t _ => setupItem lead t) [] s s.le_refl : Clause eof (List SetupItem))
  let recovery ← closeBody mode .clean
  pure (.block items, recovery)

/-- Reads what a setup says after the name `first`: a call if a dot or a bracket follows, else that
name is a module. -/
def setupName (first : Token) : Clause eof SetupBody := fun s =>
  if s.token.kind == .dot || s.token.kind == .lparen then
    (ofPhrase (.call first) s).andThen fun call t _ => .ok (.call call) t t.le_refl
  else .ok (.moduleSetup first.text) s s.le_refl

/-- Reads what a setup runs: a query body, a block, a module or a call. -/
def setupBody (mode : Mode) : Clause eof (SetupBody × Recovery) := fun s =>
  match s with
  | ⟨⟨[], _⟩, met⟩ => .fail (.unexpected "setup body" eof) met
  | ⟨⟨p :: rest, stop⟩, met⟩ =>
    if p.token.kind == .rawString then
      .ok (.inline (Token.rawBody p.token.text), .clean) ⟨.after p rest, met⟩
        (State.after_le p rest stop met)
    else if p.token.kind == .lbrace then
      (setupBlock mode ⟨.after p rest, met⟩).widen (State.after_le p rest stop met)
    else if p.token.isName then
      ((setupName p.token ⟨.after p rest, met⟩).andThen fun body t _ =>
        .ok (body, .clean) t t.le_refl).widen (State.after_le p rest stop met)
    else .fail (.unexpected "setup body" p.token) met

/-- Reads a setup after its reserved word. -/
def setup (mode : Mode) (lead : Token) : Clause eof Setup := do
  let (body, recovery) ← setupBody mode
  let stop ← lastStop
  pure { body := some body, span := ⟨lead.start, stop⟩, recovery }

/-! ## Assertions -/

/-- Reads the query of an assertion, if it has one. -/
def assertionQuery : Phrase eof (Option AssertionQuery) := do
  match ← Phrase.next? (fun t => t.kind == .rawString || t.isName) with
  | none => pure none
  | some t =>
    if t.kind == .rawString then pure (some (.inline (Token.rawBody t.text)))
    else do
      let call ← Phrase.call t
      pure (some (.call call))

/-- Adds what came of an expression to an assertion. -/
def placeExpr (a : Assertion) : Member Expr → Assertion
  | .parsed e => { a with exprs := a.exprs ++ [e] }
  | .skipped region => { a with recovery := a.recovery.absorb (.ofRegion region) }

/-- Reads an assertion after its reserved word. -/
def assertion (mode : Mode) (lead : Token) : Clause eof Assertion := do
  let query ← ofPhrase assertionQuery
  let _ ← openBody
  let a ← (fun s => members mode .assertBody placeExpr s.size
    (fun _ lead t _ => ofPhrase (.expr lead) t) { query } s s.le_refl : Clause eof Assertion)
  let recovery ← closeBody mode a.recovery
  let stop ← lastStop
  pure { a with recovery, span := ⟨lead.start, stop⟩ }

/-! ## Tests -/

/-- A member of a test. -/
inductive TestMember where
  | setup (setup : Setup)
  | statement (statement : Statement)
  | assertion (assertion : Assertion)

/-- Reads a member of a test after its first token. -/
def testMember (mode : Mode) (test : Test) (lead : Token) : Clause eof TestMember :=
  if lead.isKeyword "setup" then
    if test.setup.isSome then failure (duplicate "test setup" lead)
    else do
      let s ← setup mode lead
      pure (.setup s)
  else if lead.isKeyword "assert" then do
    let a ← assertion mode lead
    pure (.assertion a)
  else if lead.kind == .ident then do
    let s ← ofPhrase (.statement lead)
    pure (.statement s)
  else failure (.unexpected "a statement, 'setup' or 'assert'" lead)

/-- Adds a skipped member to a test: a placeholder where its first token tells what it was, else a
region of the test itself. -/
def skipInTest (t : Test) (r : Region) : Test :=
  match r.lead with
  | .setup =>
    if t.setup.isNone then { t with setup := some { r.placeholder with } }
    else { t with recovery := t.recovery.absorb (.ofRegion r) }
  | .assertion => { t with asserts := t.asserts ++ [{ r.placeholder with }] }
  | .ident => { t with statements := t.statements ++ [{ r.placeholder with }] }
  | _ => { t with recovery := t.recovery.absorb (.ofRegion r) }

/-- Adds what came of a member to a test. -/
def placeTestMember (t : Test) : Member TestMember → Test
  | .parsed (.setup s) => { t with setup := some s }
  | .parsed (.statement s) => { t with statements := t.statements ++ [s] }
  | .parsed (.assertion a) => { t with asserts := t.asserts ++ [a] }
  | .skipped region => skipInTest t region

/-- Reads a test after its reserved word. -/
def test (mode : Mode) (lead : Token) : Clause eof Test := do
  let name ← ofPhrase (.label "test name")
  let _ ← openBody
  let t ← (fun s => members mode .testBody placeTestMember s.size
    (fun t lead u _ => testMember mode t lead u) { name } s s.le_refl : Clause eof Test)
  let recovery ← closeBody mode t.recovery
  let stop ← lastStop
  pure { t with recovery, span := ⟨lead.start, stop⟩ }

/-! ## Scopes and groups -/

/-- The body of a scope or a group. -/
structure Body where
  setup : Option Setup := none
  teardown : Option Teardown := none
  items : List Item := []
  recovery : Recovery := .clean

/-- A member of a scope or a group. -/
inductive BodyMember where
  | setup (setup : Setup)
  | teardown (teardown : Teardown)
  | item (item : Item)

/-- Adds a skipped member to a body: a placeholder where its first token tells what it was, else a
region of the body itself. -/
def skipInBody (b : Body) (r : Region) : Body :=
  match r.lead with
  | .setup =>
    if b.setup.isNone then { b with setup := some { r.placeholder with } }
    else { b with recovery := b.recovery.absorb (.ofRegion r) }
  | .teardown =>
    if b.teardown.isNone then { b with teardown := some { r.placeholder with } }
    else { b with recovery := b.recovery.absorb (.ofRegion r) }
  | .test => { b with items := b.items ++ [.test { r.placeholder with }] }
  | .group => { b with items := b.items ++ [.group { r.placeholder with } []] }
  | _ => { b with recovery := b.recovery.absorb (.ofRegion r) }

/-- Adds what came of a member to a body. -/
def placeBodyMember (b : Body) : Member BodyMember → Body
  | .parsed (.setup s) => { b with setup := some s }
  | .parsed (.teardown t) => { b with teardown := some t }
  | .parsed (.item i) => { b with items := b.items ++ [i] }
  | .skipped region => skipInBody b region

/-- Reads a group after its reserved word, its body by `nested`. -/
def group (lead : Token) (s : State eof)
    (nested : (t : State eof) → t.size ≤ s.size → Outcome eof Body t.size) :
    Outcome eof Item s.size :=
  (ofPhrase (.label "group name") s).andThen fun name t ht =>
    (nested t ht).andThen fun b u _ =>
      .ok (.group { name, setup := b.setup, teardown := b.teardown,
                    span := ⟨lead.start, u.stop⟩, recovery := b.recovery } b.items) u u.le_refl

/-- Reads a member of a body after its first token, the body of a group by `nested`. -/
def bodyMember (mode : Mode) (b : Body) (lead : Token) (s : State eof)
    (nested : (t : State eof) → t.size ≤ s.size → Outcome eof Body t.size) :
    Outcome eof BodyMember s.size :=
  if lead.isKeyword "setup" then
    if b.setup.isSome then .fail (duplicate "setup" lead) s.met
    else (setup mode lead s).andThen fun c t _ => .ok (.setup c) t t.le_refl
  else if lead.isKeyword "teardown" then
    if b.teardown.isSome then .fail (duplicate "teardown" lead) s.met
    else
      (ofPhrase (.teardownClause lead) s).andThen fun c t _ => .ok (.teardown c) t t.le_refl
  else if lead.isKeyword "test" then
    (test mode lead s).andThen fun c t _ => .ok (.item (.test c)) t t.le_refl
  else if lead.isKeyword "group" then
    (group lead s nested).andThen fun i t _ => .ok (.item i) t t.le_refl
  else .fail (.unexpected "'test', 'group', 'setup' or 'teardown'" lead) s.met

/-- Reads the body of a scope or a group. -/
def body (mode : Mode) (s : State eof) : Outcome eof Body s.size :=
  (openBody s).andThen fun _ t _ =>
    (members mode .scopeBody placeBodyMember t.size
      (fun b lead u _ => bodyMember mode b lead u fun v _ => body mode v) {}
      t t.le_refl).andThen fun b u _ =>
        (closeBody mode b.recovery u).andThen fun recovery v _ =>
          .ok { b with recovery } v v.le_refl
termination_by s.size
decreasing_by
  rename_i ht hu hv
  exact Nat.lt_of_lt_of_le (Nat.lt_of_le_of_lt hv hu) ht

/-- The body of a scope or group, unfolded once. -/
theorem body_eq (mode : Mode) (s : State eof) :
    body mode s =
      (openBody s).andThen fun _ t _ =>
        (members mode .scopeBody placeBodyMember t.size
          (fun b lead u _ => bodyMember mode b lead u fun v _ => body mode v) {}
          t t.le_refl).andThen fun b u _ =>
            (closeBody mode b.recovery u).andThen fun recovery v _ =>
              .ok { b with recovery } v v.le_refl := by
  rw [body]

/-- Reads a scope after the name of its query. -/
def scope (mode : Mode) (lead : Token) : Clause eof Scope := do
  let b ← body mode
  let stop ← lastStop
  pure { query := lead.text, setup := b.setup, teardown := b.teardown, items := b.items,
         span := ⟨lead.start, stop⟩, recovery := b.recovery }

end Clause

end QuerySuite.Grammar
