import QuerySuite.Completion.Basic
import QuerySuite.Document

/-!
# Completions inside a recovered node

Of the nodes whose recovery record holds the cursor the last in the order of the walk is taken,
which is the deepest. What was skipped there tells what is being typed, the most telling shape
first.

Results:

* `siteAt_mem`: the node that is taken is one of the suite.
-/

namespace QuerySuite

/-- A node that can hold a cursor: its kind, its recovery record and where it stands. -/
structure Site where
  kind : NodeKind
  recovery : Recovery
  surroundings : Surroundings
  deriving DecidableEq

/-! ## Sites of a suite -/

/-- The site of a call. -/
def Call.site (w : Surroundings) (c : Call) : Site := ⟨.call, c.recovery, w⟩

/-- The sites of an item of a setup block. -/
def SetupItem.sites (w : Surroundings) (i : SetupItem) : List Site :=
  ⟨.setupItem, i.recovery, w⟩ ::
    match i.task with
    | some (.call c) => [c.site w]
    | _ => []

/-- The sites of a setup, which is inside itself. -/
def Setup.sites (w : Surroundings) (s : Setup) : List Site :=
  let w := w.setup
  ⟨.setup, s.recovery, w⟩ ::
    match s.body with
    | some (.call c) => [c.site w]
    | some (.block items) => items.flatMap (·.sites w)
    | _ => []

/-- The sites of a setup that may be missing. -/
def Setup.sites? (w : Surroundings) (s : Option Setup) : List Site := (s.map (·.sites w)).getD []

/-- The sites of a teardown that may be missing. -/
def Teardown.sites? (w : Surroundings) (t : Option Teardown) : List Site :=
  (t.map fun t => [⟨.teardown, t.recovery, w⟩]).getD []

/-- The sites of an assertion, which is inside itself. Its expressions are none. -/
def Assertion.sites (w : Surroundings) (a : Assertion) : List Site :=
  let w := w.assertion
  ⟨.assertion, a.recovery, w⟩ ::
    match a.query with
    | some (.call c) => [c.site w]
    | _ => []

/-- The sites of a test, which is inside itself. The values of its statements are none. -/
def Test.sites (w : Surroundings) (t : Test) : List Site :=
  let w := w.test
  ⟨.test, t.recovery, w⟩ ::
    (Setup.sites? w t.setup ++ t.statements.map (fun s => ⟨.statement, s.recovery, w⟩) ++
      t.asserts.flatMap (·.sites w))

mutual

/-- The sites of a member of a scope or a group. -/
def Item.sites (w : Surroundings) : Item → List Site
  | test t => t.sites w
  | group g items =>
    ⟨.group, g.recovery, w⟩ ::
      (Setup.sites? w g.setup ++ Teardown.sites? w g.teardown ++ sitesOfList w items)

/-- The sites of a list of members. -/
def Item.sitesOfList (w : Surroundings) : List Item → List Site
  | [] => []
  | i :: items => i.sites w ++ sitesOfList w items

end

/-- The sites of a scope, which is inside itself. -/
def Scope.sites (w : Surroundings) (s : Scope) : List Site :=
  let w := w.within s.query
  ⟨.scope, s.recovery, w⟩ ::
    (Setup.sites? w s.setup ++ Teardown.sites? w s.teardown ++ Item.sitesOfList w s.items)

/-- The sites of a suite, in the order of the walk. -/
def Suite.sites (s : Suite) : List Site :=
  ⟨.suite, s.recovery, {}⟩ ::
    (s.imports.map (fun i => ⟨.importClause, i.recovery, {}⟩) ++
      s.queries.map (fun q => ⟨.query, q.recovery, {}⟩) ++
      Setup.sites? {} s.setup ++ Teardown.sites? {} s.teardown ++ s.scopes.flatMap (·.sites {}))

/-- The last site whose record holds `p`, with the part of the record that does. -/
def siteAt (p : Position) (sites : List Site) : Option (Site × Region × Recovery) :=
  sites.reverse.findSome? fun s => (s.recovery.partAt p).map (s, ·)

/-! ## What was skipped -/

/-- The name of an import at the front of `tokens` with a dot after it, and the name after that, as
far as it is typed. -/
def qualified? (symbols : SymbolTable) : List Token → Option (String × String)
  | [] => none
  | t :: rest =>
    match rest with
    | dot :: after =>
      if dot.kind == .dot && t.kind == .ident && symbols.isImport t.text then
        some (t.text, ((after.head?.filter (·.kind == .ident)).map (·.text)).getD "")
      else qualified? symbols rest
    | [] => none

/-- The name after the first reserved word `setup`, as far as it is typed. -/
def afterSetup? (tokens : List Token) : Option String :=
  match tokens.dropWhile (!·.isKeyword "setup") with
  | [] => none
  | _ :: after => some (((after.head?.filter (·.isName)).map (·.text)).getD "")

/-- What is being typed when nothing was skipped. -/
def completionOfNothing (kind : NodeKind) (w : Surroundings) : Option Completion :=
  if kind = .setup ∨ kind = .call ∨ kind = .setupItem then some (.of .moduleName "" w)
  else if w.inTest then
    some (.of (if kind = .statement then .returnField else .keyword) "" w)
  else none

/-- What is being typed, told from the tokens skipped in a node of a kind. -/
def completionOfSkipped (symbols : SymbolTable) (kind : NodeKind) (w : Surroundings)
    (tokens : List Token) : Option Completion :=
  match tokens with
  | [] => completionOfNothing kind w
  | first :: _ =>
    match qualified? symbols tokens with
    | some (name, typed) => some (.functionOf name typed w)
    | none =>
      match afterSetup? tokens with
      | some typed => some (.of .moduleName typed w)
      | none =>
        match tokens.find? (·.isParameter) with
        | some t => some (.of .parameter t.text w)
        | none =>
          if w.inTest && first.kind == .ident then some (.of .returnField first.text w)
          else
            let last := tokens.reverse.find? (·.isIdentLike)
            some (.of .keyword ((last.map (·.text)).getD "") w)

/-- What is being typed inside a recovered node. -/
def Document.completionRecovered (d : Document) (p : Position) : Option Completion := do
  let suite ← d.recoveredSuite
  let (site, region, part) ← siteAt p suite.sites
  let c ← completionOfSkipped d.symbols site.kind site.surroundings part.significant
  some { c with errorAt := some region.start, previous := suite.previousToken p }

theorem siteAt_mem {p : Position} {sites : List Site} {s : Site} {part : Region × Recovery}
    (h : siteAt p sites = some (s, part)) : s ∈ sites := by
  obtain ⟨t, mem, found⟩ := List.exists_of_findSome?_eq_some h
  obtain ⟨part', _, eq⟩ := Option.map_eq_some_iff.1 found
  cases eq
  exact List.mem_reverse.1 mem

end QuerySuite
