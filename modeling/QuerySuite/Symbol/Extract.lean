import QuerySuite.Symbol.Table
import QuerySuite.QueryBody

/-!
# Symbols of a suite

The symbols of a suite are those of its nodes that have a name, so that a placeholder adds nothing.
Query bodies are read by a scanner that can be replaced, and imports are loaded by a resolver, if
there is one. A resolver may remember what it did: it hands on a state.
-/

namespace QuerySuite

/-- Reads the parameters and the returned fields of a query body. -/
structure BodyScanner where
  params : String → List String
  returns : String → List String

/-- Reads bodies by their text. -/
def BodyScanner.textual : BodyScanner := ⟨QueryBody.params, QueryBody.returns⟩

/-- What an imported module makes available. -/
structure ModuleExports where
  queries : List String
  deriving DecidableEq

/-- Finds and loads the modules that a document imports. -/
structure Resolver (σ : Type) where
  /-- Where a module is, from the path of the document and the path that its import names. -/
  locate : Option String → String → StateM σ String := fun base path =>
    pure (Path.resolve base path)
  /-- Loads the module at a path; `none` when it cannot be loaded. -/
  load : String → StateM σ (Option ModuleExports)

/-- How symbols are taken from a document. -/
structure Extractor (σ : Type) where
  scanner : BodyScanner := .textual
  resolver : Option (Resolver σ) := none
  /-- The path of the document, which its imports are seen from. -/
  base : Option String := none

namespace Extractor

variable {σ : Type}

/-- Loads the module of an import, if there is a resolver and it can be loaded. -/
def loadImport (x : Extractor σ) (s : ImportSymbol) : StateM σ ImportSymbol :=
  match x.resolver with
  | none => pure s
  | some resolver => do
    let path ← resolver.locate x.base s.path
    match ← resolver.load path with
    | some exports => pure { s with resolved := some path, queries := exports.queries }
    | none => pure s

/-- The symbol of an import; none if it has no path or binds no name. -/
def importSymbol? (x : Extractor σ) (i : Import) : StateM σ (Option ImportSymbol) :=
  if i.path == "" then pure none
  else
    match i.name? with
    | none => pure none
    | some name => do
      let s ← x.loadImport { name, path := i.path, span := some i.span }
      pure (some s)

/-- The symbol of a query. -/
def querySymbol (x : Extractor σ) (name body : String) (span : Option Span) : QuerySymbol where
  name := name
  params := x.scanner.params body
  returns := x.scanner.returns body
  body := body
  span := span

/-- The symbols of the imports that have one. -/
def importSymbols (x : Extractor σ) (imports : List Import) : StateM σ (List ImportSymbol) := do
  let symbols ← imports.mapM x.importSymbol?
  pure (symbols.filterMap id)

/-- The symbols of the queries that have a name. -/
def querySymbols (x : Extractor σ) (queries : List Query) : List QuerySymbol :=
  (queries.filter (·.name != "")).map fun q => x.querySymbol q.name q.body (some q.span)

end Extractor

mutual

/-- The symbols of the tests of a member, in the order in which they stand. What has no name is
passed over, with all that it holds. -/
def Item.testSymbols (scope : String) (groups : List String) : Item → List TestSymbol
  | test t => if t.name == "" then [] else [⟨scope, groups, t.name, t.span⟩]
  | group g items =>
    if g.name == "" then [] else testSymbolsOfList scope (groups ++ [g.name]) items

/-- The symbols of the tests of a list of members. -/
def Item.testSymbolsOfList (scope : String) (groups : List String) : List Item → List TestSymbol
  | [] => []
  | i :: items => i.testSymbols scope groups ++ testSymbolsOfList scope groups items

end

/-- The symbols of the tests of a suite, in the order in which they stand. -/
def Suite.testSymbols (s : Suite) : List TestSymbol :=
  (s.scopes.filter (·.query != "")).flatMap fun c => Item.testSymbolsOfList c.query [] c.items

namespace Extractor

variable {σ : Type}

/-- The symbols of a suite. -/
def ofSuite (x : Extractor σ) (s : Suite) : StateM σ SymbolTable := do
  let imports ← x.importSymbols s.imports
  pure
    { imports := Symbol.keepFirst (·.name) imports
      queries := Symbol.keepFirst (·.name) (x.querySymbols s.queries)
      tests := Symbol.keepFirst (·.path) s.testSymbols }

end Extractor

end QuerySuite
