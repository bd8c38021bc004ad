import QuerySuite.Grammar.Phrase
import QuerySuite.Token.Contents

/-!
# Going on after a failed member

A member that cannot be read is skipped: from its first token up to the closing brace of the body
around it, or to the first token of a line at which a member of that body can begin, whichever comes
first outside of any braces opened on the way. At least one token is skipped, so that reading goes
forward. What was skipped is a region of the document. It leaves a placeholder where its first token
says what it was meant to be, and is otherwise absorbed by the body it stood in.

Results:

* `skip_append`: the skipped pieces and the rest are the pieces that were there.
* `size_resume_le`: nothing is left that was not left before.
-/

namespace QuerySuite

/-! ## Placeholders -/

/-- What the first token of a skipped member announces. -/
inductive Lead where
  | importClause
  | queryClause
  | setup
  | teardown
  | test
  | group
  | assertion
  | ident
  | other
  deriving DecidableEq

/-- What a token announces. -/
def Lead.ofToken (t : Token) : Lead :=
  if t.isKeyword "import" then importClause
  else if t.isKeyword "query" then queryClause
  else if t.isKeyword "setup" then setup
  else if t.isKeyword "teardown" then teardown
  else if t.isKeyword "test" then test
  else if t.isKeyword "group" then group
  else if t.isKeyword "assert" then assertion
  else if t.kind == .ident then ident
  else other

namespace Region

/-- What the first skipped token announces. -/
def lead (r : Region) : Lead :=
  match r.significant.head? with
  | some t => .ofToken t
  | none => .other

/-- The extent of the skipped tokens, or the start of the region when there are none. -/
def extent (r : Region) : Span := (Recovery.ofRegion r).coveredSpan.getD (.point r.start)

/-- What a placeholder for the region carries. -/
def placeholder (r : Region) : NodeInfo := { span := r.extent, recovery := .ofRegion r }

end Region

end QuerySuite

/-! ## Skipping -/

namespace QuerySuite.Grammar

/-- The bodies in which members are read. -/
inductive Context where
  | topLevel
  | scopeBody
  | testBody
  | assertBody
  | setupBlock
  deriving DecidableEq

namespace Context

/-- A member of the body can begin with the token. -/
def canStart (ctx : Context) (t : Token) : Bool :=
  match ctx with
  | topLevel => ["import", "query", "setup", "teardown"].any t.isKeyword || t.isName
  | scopeBody => ["setup", "teardown", "test", "group"].any t.isKeyword
  | testBody => ["setup", "assert"].any t.isKeyword || t.kind == .ident
  | assertBody => t.exprToken?.isSome
  | setupBlock => t.isName || t.kind == .rawString

/-- The token closes the body. The document itself is closed by nothing but its end. -/
def closes (ctx : Context) (t : Token) : Bool := ctx != topLevel && t.kind == .rbrace

/-- The token stands between members and says nothing. -/
def separates (ctx : Context) (t : Token) : Bool :=
  (ctx == assertBody || ctx == setupBlock) && t.kind == .semicolon

/-- Reading can go on at the piece. -/
def resumesAt (ctx : Context) (p : Piece) : Bool :=
  ctx.closes p.token || (p.opensLine && ctx.canStart p.token)

end Context

/-- The depth of braces after a token; a closing brace at depth zero changes nothing. -/
def depthAfter (depth : Nat) (t : Token) : Nat :=
  match t.kind with
  | .lbrace => depth + 1
  | .rbrace => depth - 1
  | _ => depth

/-- Splits off the pieces before the first one, outside of braces, at which reading can go on. -/
def skip (ctx : Context) (depth : Nat) : List Piece → List Piece × List Piece
  | [] => ([], [])
  | p :: rest =>
    if depth = 0 ∧ ctx.resumesAt p then ([], p :: rest)
    else
      let (skipped, left) := skip ctx (depthAfter depth p.token) rest
      (p :: skipped, left)

/-- The skipped pieces as a region, `left` being what follows them. -/
def regionOf (p : Piece) (skipped left : List Piece) : Region where
  start := p.token.start
  resumed := left.head?.map (·.token.start)
  skipped := (p :: skipped).flatMap Piece.tokens

/-- Skips the member that begins with the piece `p`, and that piece in any case. Gives the region of
what was skipped, and where reading goes on: in front of the token that closes the body, of one that
opens a line and can begin a member, or at the end. -/
def resume (eof : Token) (ctx : Context) (p : Piece) (rest : List Piece) : Region × Cursor eof :=
  let (skipped, left) := skip ctx (depthAfter 0 p.token) rest
  (regionOf p skipped left, ⟨left, (skipped.getLast?.getD p).token.stop⟩)

theorem skip_append (ctx : Context) (depth : Nat) (pieces : List Piece) :
    (skip ctx depth pieces).1 ++ (skip ctx depth pieces).2 = pieces := by
  induction pieces generalizing depth with
  | nil => rfl
  | cons p rest ih =>
    rw [skip]
    split
    · rfl
    · simp [ih]

theorem size_resume_le (eof : Token) (ctx : Context) (p : Piece) (rest : List Piece) :
    (resume eof ctx p rest).2.size ≤ rest.length := by
  have h := congrArg List.length (skip_append ctx (depthAfter 0 p.token) rest)
  simp only [List.length_append] at h
  simp only [resume, Cursor.size_mk]
  omega

end QuerySuite.Grammar
