import QuerySuite.Parse
import QuerySuite.Suite.Attach
import QuerySuite.Symbol.BareText
import QuerySuite.Validation

/-!
# Analysed documents

A document with all that is known of it: its tree, the errors of reading it, its symbols and its
diagnostics. When it cannot be read strictly, a tree is recovered if that is wanted.

Results:

* `Document.bestSuite_eq_suite`: a strict tree is preferred to a recovered one.
-/

namespace QuerySuite

/-- How documents are analysed. -/
structure Config where
  /-- Recover a tree of a document that cannot be read strictly. -/
  recovery : Bool := true
  /-- Validate documents that can be read strictly. -/
  validate : Bool := true
  /-- The name of the tool in diagnostics. -/
  sourceName : String := "rehearse"
  deriving DecidableEq

/-- All that is known of a document. -/
structure Document where
  path : Option String := none
  /-- The tree, if the document could be read strictly. -/
  suite : Option Suite := none
  /-- The error that ended the strict reading. -/
  parseError : Option ParseError := none
  /-- The recovered tree, if there is no strict one and recovery is wanted. -/
  recoverySuite : Option Suite := none
  /-- The errors met while recovering. -/
  recoveryError : Option ParseError := none
  symbols : SymbolTable := {}
  diagnostics : List Diagnostic := []

namespace Document

/-- The document has an error. -/
def hasErrors (d : Document) : Bool := d.parseError.isSome || d.diagnostics.any (·.isError)

/-- The most complete tree there is. -/
def bestSuite (d : Document) : Option Suite := d.suite <|> d.recoverySuite

/-- The recovered tree, or the strict one. -/
def recoveredSuite (d : Document) : Option Suite := d.recoverySuite <|> d.suite

theorem bestSuite_eq_suite {d : Document} {s : Suite} (h : d.suite = some s) :
    d.bestSuite = some s := by
  simp [bestSuite, h]

end Document

/-- The tree of what was parsed, with its comments. -/
def Parsed.attached (p : Parsed) : Option Suite := p.suite.map (·.attachComments p.trivia)

/-- How documents are analysed, and by what means. -/
structure Analyzer (σ : Type) where
  config : Config := {}
  scanner : BodyScanner := .textual
  resolver : Option (Resolver σ) := none

namespace Analyzer

variable {σ : Type}

/-- What recovering a document gives, if it has to be recovered. -/
def recover (a : Analyzer σ) (strict : Option Suite) (source : String) :
    Option Suite × Option ParseError :=
  if strict.isNone && a.config.recovery then
    let p := parse .recovery source
    (p.attached, p.error)
  else (none, none)

/-- Analyses the document at `path`. This never fails: what is wrong is told by the result. -/
def analyze (a : Analyzer σ) (path : Option String) (source : String) : StateM σ Document := do
  let strict := parse .strict source
  let suite := strict.attached
  let (recoverySuite, recoveryError) := a.recover suite source
  let x : Extractor σ := { scanner := a.scanner, resolver := a.resolver, base := path }
  let symbols ← x.bestEffort suite recoverySuite source
  let name := a.config.sourceName
  let read := ((recoveryError <|> strict.error).map (Diagnostic.ofParseError name)).getD []
  let found :=
    match suite with
    | some suite =>
      if a.config.validate then
        ({ suite, symbols, checkImports := a.resolver.isSome } : Validator).diagnostics name
      else []
    | none => []
  pure { path, suite, parseError := strict.error, recoverySuite, recoveryError, symbols,
         diagnostics := read ++ found }

end Analyzer

end QuerySuite
