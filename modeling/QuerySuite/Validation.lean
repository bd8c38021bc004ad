import QuerySuite.Diagnostic
import QuerySuite.Symbol.Extract

/-!
# Validation

Problems of a suite that was read without any fault: names defined twice, names that nothing
defines, tests that test nothing, and imports that cannot be loaded.
-/

namespace QuerySuite

/-- A problem of a suite that could be read. -/
inductive Problem where
  | duplicateQuery (name : String)
  | duplicateImport (name : String)
  /-- The module of an import cannot be loaded. -/
  | unresolvedImport (path name : String)
  | unknownQuery (name : String)
  | unknownModule (name : String)
  /-- A module is known and does not define the query. -/
  | notExported (moduleName query : String)
  | duplicateTest (path : String)
  /-- A test has neither statements nor assertions. -/
  | emptyTest (name : String)
  deriving DecidableEq

namespace Problem

/-- The kind of the problem, for tools. -/
def code : Problem → String
  | duplicateQuery _ => "duplicate-query"
  | duplicateImport _ => "duplicate-import"
  | unresolvedImport _ _ => "unresolved-import"
  | unknownQuery _ => "unknown-query"
  | unknownModule _ => "unknown-module"
  | notExported _ _ => "unknown-query"
  | duplicateTest _ => "duplicate-test"
  | emptyTest _ => "empty-test"

/-- How severe the problem is. -/
def severity : Problem → Severity
  | unresolvedImport _ _ => .warning
  | duplicateTest _ => .warning
  | emptyTest _ => .warning
  | _ => .error

/-- The message for people. -/
def message : Problem → String
  | duplicateQuery name => s!"query '{name}' is defined more than once"
  | duplicateImport name => s!"import alias '{name}' is bound more than once"
  | unresolvedImport path name => s!"cannot load module '{path}' imported as '{name}'"
  | unknownQuery name => s!"unknown query '{name}'"
  | unknownModule name => s!"unknown module '{name}'"
  | notExported moduleName query => s!"module '{moduleName}' has no query '{query}'"
  | duplicateTest path => s!"duplicate test '{path}'"
  | emptyTest name => s!"test '{name}' has no statements or assertions"

end Problem

/-- A problem and its place. -/
structure Finding where
  problem : Problem
  span : Span
  deriving DecidableEq

/-- The diagnostic of a finding. -/
def Finding.diagnostic (source : String) (f : Finding) : Diagnostic where
  span := f.span
  severity := f.problem.severity
  message := f.problem.message
  code := f.problem.code
  source := source

/-- What validation looks names up in. -/
structure Validator where
  suite : Suite
  symbols : SymbolTable
  /-- Tell of imports that could not be loaded. -/
  checkImports : Bool := false

namespace Validator

/-- The members of a list whose key has stood before, with the key. -/
def repeated {α : Type} (key : α → String) (seen : List String) : List α → List (String × α)
  | [] => []
  | a :: rest =>
    let k := key a
    if seen.contains k then (k, a) :: repeated key seen rest else repeated key (k :: seen) rest

/-- Queries defined more than once. -/
def queryFindings (v : Validator) : List Finding :=
  (repeated (·.name) [] v.suite.queries).map fun (name, q) => ⟨.duplicateQuery name, q.span⟩

/-- What is wrong with an import that binds `name`, given the names bound before it. -/
def importFinding? (v : Validator) (bound : List String) (name : String) (i : Import) :
    Option Finding :=
  if bound.contains name then some ⟨.duplicateImport name, i.span⟩
  else if v.checkImports && (v.symbols.import? name).any (·.resolved.isNone) then
    some ⟨.unresolvedImport i.path name, i.span⟩
  else none

/-- What is wrong with the imports, given the names bound before them. -/
def importFindings (v : Validator) (bound : List String) : List Import → List Finding
  | [] => []
  | i :: imports =>
    match i.name? with
    | none => v.importFindings bound imports
    | some name =>
      (v.importFinding? bound name i).toList ++ v.importFindings (name :: bound) imports

/-- What is wrong with a call: its module or its query is not known. -/
def callProblem? (v : Validator) (c : Call) : Option Problem :=
  match c.moduleName with
  | some name =>
    match v.symbols.import? name with
    | none => some (.unknownModule name)
    | some s =>
      if s.resolved.isSome && !s.exports c.query then some (.notExported name c.query) else none
  | none => if (v.suite.query? c.query).isNone then some (.unknownQuery c.query) else none

/-- What is wrong with a call, at its place. -/
def callFindings (v : Validator) (c : Call) : List Finding :=
  (v.callProblem? c).toList.map (⟨·, c.span⟩)

/-- What is wrong with a setup. -/
def setupFindings (v : Validator) (s : Setup) : List Finding :=
  match s.body with
  | some (.moduleSetup name) =>
    if v.symbols.isImport name then [] else [⟨.unknownModule name, s.span⟩]
  | some (.call c) => v.callFindings c
  | some (.block items) =>
    items.flatMap fun i =>
      match i.task with
      | some (.call c) => v.callFindings c
      | _ => []
  | _ => []

/-- What is wrong with a setup that may be missing. -/
def setupFindings? (v : Validator) (s : Option Setup) : List Finding :=
  (s.map v.setupFindings).getD []

/-- What is wrong with an assertion. -/
def assertionFindings (v : Validator) (a : Assertion) : List Finding :=
  match a.query with
  | some (.call c) => v.callFindings c
  | _ => []

/-- What is wrong with a test, apart from its path being taken. -/
def testFindings (v : Validator) (t : Test) : List Finding :=
  (if t.statements.isEmpty && t.asserts.isEmpty then [⟨.emptyTest t.name, t.span⟩] else []) ++
    v.setupFindings? t.setup ++ t.asserts.flatMap v.assertionFindings

mutual

/-- What is wrong with a member of a scope or a group. A test at a path that is taken is told of,
and then checked like any other. The paths of the tests met so far are handed on. -/
def itemFindings (v : Validator) (scope : String) (groups : List String) :
    Item → StateM (List String) (List Finding)
  | .test t => fun seen =>
    let path := TestSymbol.path ⟨scope, groups, t.name, t.span⟩
    if seen.contains path then (⟨.duplicateTest path, t.span⟩ :: v.testFindings t, seen)
    else (v.testFindings t, path :: seen)
  | .group g items => do
    let inner ← v.itemListFindings scope (groups ++ [g.name]) items
    pure (v.setupFindings? g.setup ++ inner)

/-- What is wrong with a list of members. -/
def itemListFindings (v : Validator) (scope : String) (groups : List String) :
    List Item → StateM (List String) (List Finding)
  | [] => pure []
  | i :: items => do
    let first ← v.itemFindings scope groups i
    let more ← v.itemListFindings scope groups items
    pure (first ++ more)

end

/-- What is wrong with a scope. -/
def scopeFindings (v : Validator) (s : Scope) : StateM (List String) (List Finding) := do
  let inner ← v.itemListFindings s.query [] s.items
  pure ((if (v.suite.query? s.query).isNone then [⟨.unknownQuery s.query, s.span⟩] else []) ++
    v.setupFindings? s.setup ++ inner)

/-- All that is wrong with the suite: first with its queries, then with its imports, its setup and
its scopes. -/
def findings (v : Validator) : List Finding :=
  v.queryFindings ++ v.importFindings [] v.suite.imports ++ v.setupFindings? v.suite.setup ++
    ((v.suite.scopes.mapM v.scopeFindings).run []).1.flatten

/-- The diagnostics of a suite. -/
def diagnostics (v : Validator) (source : String) : List Diagnostic :=
  v.findings.map (·.diagnostic source)

end Validator

end QuerySuite
