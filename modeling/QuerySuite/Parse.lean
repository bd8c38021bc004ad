import QuerySuite.Grammar.Clauses

/-!
# Parsing documents

A document is a run of imports, queries and scopes, with at most one setup and one teardown of its
own. It is scanned and read, strictly or with recovery. Reading it strictly ends at the first fault,
so that there is either a suite or that fault; reading it with recovery always gives a suite and
tells every fault met.
-/

/-! ## Members of a document -/

namespace QuerySuite.Grammar

variable {eof : Token}

/-- A member of a document. -/
inductive TopMember where
  | importClause (clause : Import)
  | query (query : Query)
  | setup (setup : Setup)
  | teardown (teardown : Teardown)
  | scope (scope : Scope)

/-- Reads a member of a document after its first token. -/
def topMember (mode : Mode) (suite : Suite) (lead : Token) : Clause eof TopMember :=
  if lead.isKeyword "import" then do
    let i ← Clause.ofPhrase (.importClause lead)
    pure (.importClause i)
  else if lead.isKeyword "query" then do
    let q ← Clause.ofPhrase (.queryClause lead)
    pure (.query q)
  else if lead.isKeyword "setup" then
    if suite.setup.isSome then Clause.failure (duplicate "suite setup" lead)
    else do
      let s ← Clause.setup mode lead
      pure (.setup s)
  else if lead.isKeyword "teardown" then
    if suite.teardown.isSome then Clause.failure (duplicate "suite teardown" lead)
    else do
      let t ← Clause.ofPhrase (.teardownClause lead)
      pure (.teardown t)
  else if lead.isName then do
    let s ← Clause.scope mode lead
    pure (.scope s)
  else
    Clause.failure
      (.unexpected "'import', 'query', 'setup', 'teardown' or a query scope" lead)

/-- Adds a skipped member to a suite: a placeholder where its first token tells what it was, else a
region of the suite itself. -/
def skipInSuite (s : Suite) (r : Region) : Suite :=
  match r.lead with
  | .importClause => { s with imports := s.imports ++ [{ r.placeholder with }] }
  | .queryClause => { s with queries := s.queries ++ [{ r.placeholder with }] }
  | .setup =>
    if s.setup.isNone then { s with setup := some { r.placeholder with } }
    else { s with recovery := s.recovery.absorb (.ofRegion r) }
  | .teardown =>
    if s.teardown.isNone then { s with teardown := some { r.placeholder with } }
    else { s with recovery := s.recovery.absorb (.ofRegion r) }
  | _ => { s with recovery := s.recovery.absorb (.ofRegion r) }

/-- Adds what came of a member to a suite. -/
def placeTopMember (s : Suite) : Member TopMember → Suite
  | .parsed (.importClause i) => { s with imports := s.imports ++ [i] }
  | .parsed (.query q) => { s with queries := s.queries ++ [q] }
  | .parsed (.setup c) => { s with setup := some c }
  | .parsed (.teardown t) => { s with teardown := some t }
  | .parsed (.scope c) => { s with scopes := s.scopes ++ [c] }
  | .skipped region => skipInSuite s region

/-- Reads a document from its pieces. -/
def document (mode : Mode) (s : State eof) : Outcome eof Suite s.size :=
  members mode .topLevel placeTopMember s.size (fun suite lead t _ => topMember mode suite lead t)
    {} s s.le_refl

/-- What reading a list of tokens gave: a suite and the errors met, or the error that ended the
reading and the errors met before it. -/
inductive Result where
  | suite (suite : Suite) (met : List ParseError)
  | failed (error : ParseError) (met : List ParseError)

/-- Reads a suite from a list of tokens. -/
def parse (mode : Mode) (tokens : List Token) : Result :=
  let tokens := withEnd tokens
  let stream := Stream.ofTokens tokens
  match document mode (⟨⟨stream.pieces, .start⟩, []⟩ : State stream.eof) with
  | .ok suite s _ => .suite { suite with span := ⟨.start, stream.eof.start⟩, tokens } s.met
  | .fail e met => .failed e met

end QuerySuite.Grammar

namespace QuerySuite

/-! ## Parsing -/

/-- What parsing a document gives. -/
structure Parsed where
  suite : Option Suite
  error : Option ParseError
  /-- The comments and white space of the document, in source order. -/
  trivia : List Trivia

namespace Parsed

/-- There is a suite and no fault. -/
def isClean (p : Parsed) : Bool := p.suite.isSome && p.error.isNone

end Parsed

/-- Parses a document. -/
def parse (mode : Grammar.Mode) (source : String) : Parsed :=
  let tokens := Token.scan source
  match Grammar.parse mode tokens with
  | .suite suite met => ⟨some suite, ParseError.ofList met, Trivia.collect tokens⟩
  | .failed error _ => ⟨none, some error, Trivia.collect tokens⟩

end QuerySuite
