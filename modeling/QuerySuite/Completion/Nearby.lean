import QuerySuite.Completion.Recovered

/-!
# Completions beside errors and in clean text

Outside of recovered nodes it is the tokens around the cursor that tell what is being typed: beside
the first error by the token before the cursor alone, and inside a scope by the two or three tokens
before it.
-/

namespace QuerySuite

/-! ## What surrounds a cursor -/

/-- The setup, if there is one, holds the place. -/
def Setup.holds? (s : Option Setup) (p : Position) : Bool := s.any (·.span.contains p)

/-- Inside a setup if `inside` holds. -/
def Surroundings.setupIf (w : Surroundings) (inside : Bool) : Surroundings :=
  if inside then w.setup else w

/-- What surrounds a place inside a test. -/
def Test.surroundings (t : Test) (p : Position) (w : Surroundings) : Surroundings :=
  let w := w.test.setupIf (Setup.holds? t.setup p)
  if t.asserts.any (·.span.contains p) then w.assertion else w

mutual

/-- What surrounds a place inside a member, which holds it. -/
def Item.surroundings (p : Position) (w : Surroundings) : Item → Surroundings
  | test t => t.surroundings p w
  | group g items => surroundingsOfList p (w.setupIf (Setup.holds? g.setup p)) items

/-- What surrounds a place among members: the first one that holds it tells. -/
def Item.surroundingsOfList (p : Position) (w : Surroundings) : List Item → Surroundings
  | [] => w
  | i :: items =>
    if i.span.contains p then i.surroundings p w else surroundingsOfList p w items

end

/-- What surrounds a place of a suite: the first scope that holds it tells. -/
def Suite.surroundings (s : Suite) (p : Position) : Surroundings :=
  let w := ({} : Surroundings).setupIf (Setup.holds? s.setup p)
  match s.scopes.find? (·.span.contains p) with
  | none => w
  | some c =>
    Item.surroundingsOfList p ((w.within c.query).setupIf (Setup.holds? c.setup p)) c.items

/-! ## Beside an error -/

/-- How far two numbers are apart. -/
def distance (a b : Nat) : Nat := (a - b) + (b - a)

/-- The place is near an error: at most ten columns from it, or on a line next to it. -/
def isNear (p error : Position) : Bool :=
  if p.line = error.line then decide (distance p.column error.column ≤ 10)
  else decide (distance p.line error.line = 1)

/-- What is being typed after `previous`, beside an error. A lone dot does not tell which module it
follows. -/
def completionAfter (symbols : SymbolTable) (w : Surroundings) (previous : Token) :
    Option Completion :=
  if previous.isKeyword "setup" then some (.of .moduleName "" w)
  else if previous.kind == .dot then some (.of .function "" w)
  else if previous.kind == .ident then
    if symbols.isImport previous.text then some (.functionOf previous.text "" w)
    else some (.of .moduleName previous.text w)
  else none

/-- What is being typed beside the first error of a document. -/
def Document.completionNearError (d : Document) (p : Position) : Option Completion := do
  let error ← d.recoveryError <|> d.parseError
  let errorAt := error.position
  if isNear p errorAt then
    let suite ← d.recoveredSuite
    let previous ← suite.previousToken p
    let c ← completionAfter d.symbols (suite.surroundings p) previous
    some { c with errorAt := some errorAt, previous := some previous }
  else none

/-! ## Inside a scope -/

/-- The token is the name of an import. -/
def SymbolTable.isImportToken (t : SymbolTable) (token : Token) : Bool :=
  token.kind == .ident && t.isImport token.text

/-- What is being typed while the cursor touches the name `previous`: the name of a module after
`setup`, or a query of a module after a dot. -/
def completionOfName (suite : Suite) (symbols : SymbolTable) (w : Surroundings)
    (previous : Token) : Option Completion := do
  let before ← suite.previousToken previous.start
  if before.isKeyword "setup" then some (.of .moduleName previous.text w)
  else if before.kind == .dot then
    let name ← (suite.previousToken before.start).filter symbols.isImportToken
    some (.functionOf name.text previous.text w)
  else none

/-- What is being typed at `p` after `previous`, inside a scope. -/
def completionInScope (suite : Suite) (symbols : SymbolTable) (w : Surroundings) (p : Position)
    (previous : Token) : Option Completion :=
  let owner := (suite.previousToken previous.start).filter symbols.isImportToken
  if previous.isKeyword "setup" then some (.of .moduleName "" w)
  else if previous.kind == .dot && owner.isSome then
    owner.map fun t => .functionOf t.text "" w
  else if symbols.isImportToken previous && (suite.tokenAt p).any (·.kind == .dot) then
    some (.functionOf previous.text "" w)
  else if previous.stop.compare p == .eq && previous.isName then
    completionOfName suite symbols w previous
  else none

/-- What is being typed inside a scope. -/
def Document.completionAmbient (d : Document) (p : Position) : Option Completion := do
  let suite ← d.bestSuite
  let w := suite.surroundings p
  if w.scope.isSome then
    let previous ← suite.previousToken p
    let c ← completionInScope suite d.symbols w p previous
    some { c with previous := some previous }
  else none

/-- What is being typed at a place of a document: what a recovered node tells, else what an error
beside it tells, else what the tokens of its scope tell. -/
def Document.completion (d : Document) (p : Position) : Option Completion :=
  d.completionRecovered p <|> d.completionNearError p <|> d.completionAmbient p

end QuerySuite
