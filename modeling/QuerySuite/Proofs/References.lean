import Mathlib.Tactic.SplitIfs
import QuerySuite.Proofs.Elements
import QuerySuite.Validation

/-!
# Every reference is checked once

A suite refers to modules and to queries by their names: scopes and calls name queries, calls and
setups name modules. Validation goes through the suite in its own way and hands on the paths of the
tests that it met. What it finds at references, and at tests that test nothing, is what can be said
of each element on its own, in the order of the walk: nothing is passed over and nothing is told
twice, however deep the element stands.

Results:

* `Validator.filter_isLocal_findings`: what is found at single elements.
* `Validator.diagnostics_of_references`: the diagnostics of names that nothing defines and of tests
  that test nothing.
-/

namespace QuerySuite

/-! ## What an element refers to -/

namespace Element

/-- The module that the element names. -/
def moduleName? : Element → Option String
  | call c => c.moduleName
  | setup s =>
    match s.body with
    | some (.moduleSetup name) => some name
    | _ => none
  | _ => none

/-- The query of the document itself that the element names. -/
def queryName? : Element → Option String
  | scope s => some s.query
  | call c => if c.moduleName.isNone then some c.query else none
  | _ => none

/-- The query of a module that the element names, behind the name of the module. -/
def exportName? : Element → Option (String × String)
  | call c => c.moduleName.map (·, c.query)
  | _ => none

/-- The name of a test that has neither statements nor assertions. -/
def emptyTest? : Element → Option String
  | test t => if t.statements.isEmpty && t.asserts.isEmpty then some t.name else none
  | _ => none

end Element

/-! ## What is to be told of an element -/

namespace Validator

variable (v : Validator)

/-- The module was loaded and does not define the query. -/
def withholds (moduleName query : String) : Bool :=
  (v.symbols.import? moduleName).any fun s => s.resolved.isSome && !s.exports query

/-- The element names a module that is not imported. -/
def unknownModule? (e : Element) : Option Problem :=
  (e.moduleName?.filter fun name => !v.symbols.importNames.contains name).map .unknownModule

/-- The element names a query that the document does not define, or one that its module does not
define. -/
def unknownQuery? (e : Element) : Option Problem :=
  (e.queryName?.filter fun name => !(v.suite.queries.map (·.name)).contains name).map
      .unknownQuery <|>
    (e.exportName?.filter fun name => v.withholds name.1 name.2).map fun name =>
      .notExported name.1 name.2

/-- What is to be told of each element of the suite, in the order of the walk. -/
def told (problem? : Element → Option Problem) : List Finding :=
  v.suite.elements.filterMap fun e => (problem? e).map (⟨·, e.span⟩)

/-- All names that the element refers to are defined. -/
structure Resolves (e : Element) : Prop where
  moduleName : ∀ name, e.moduleName? = some name → name ∈ v.symbols.importNames
  queryName : ∀ name, e.queryName? = some name → ∃ q ∈ v.suite.queries, q.name = name
  exportName : ∀ moduleName query, e.exportName? = some (moduleName, query) →
    ∀ s, v.symbols.import? moduleName = some s → s.resolved.isSome = true → query ∈ s.queries

end Validator

/-! ## Looking names up -/

theorem SymbolTable.isSome_import? (t : SymbolTable) (name : String) :
    (t.import? name).isSome = t.importNames.contains name := by
  rw [Bool.eq_iff_iff]
  simp [import?, importNames]

theorem Suite.isSome_query? (s : Suite) (name : String) :
    (s.query? name).isSome = (s.queries.map (·.name)).contains name := by
  rw [Bool.eq_iff_iff]
  simp [query?]

/-! ## One element on its own -/

/-- The problem shows at one element; whether other elements have the same name does not matter. -/
def Problem.isLocal : Problem → Bool
  | unknownQuery _ | unknownModule _ | notExported _ _ | emptyTest _ => true
  | _ => false

namespace Validator

variable (v : Validator)

/-- The problem that validation sees at an element. -/
def problemAt? : Element → Option Problem
  | .scope s => if (v.suite.query? s.query).isNone then some (.unknownQuery s.query) else none
  | .call c => v.callProblem? c
  | .setup s =>
    match s.body with
    | some (.moduleSetup name) =>
      if v.symbols.isImport name then none else some (.unknownModule name)
    | _ => none
  | .test t =>
    if t.statements.isEmpty && t.asserts.isEmpty then some (.emptyTest t.name) else none
  | _ => none

theorem isLocal_of_problemAt? {e : Element} {p : Problem} (h : v.problemAt? e = some p) :
    p.isLocal = true := by
  unfold problemAt? callProblem? at h
  grind [Problem.isLocal]

theorem filter_unknownModule (e : Element) :
    (v.problemAt? e).filter (·.code == "unknown-module") = v.unknownModule? e := by
  cases e with
  | call c =>
    simp only [problemAt?, callProblem?, unknownModule?, Element.moduleName?,
      ← SymbolTable.isSome_import?]
    cases c.moduleName with
    | none => dsimp only; split_ifs <;> rfl
    | some name =>
      dsimp only
      rw [Option.filter_some]
      cases v.symbols.import? name with
      | none => rfl
      | some s =>
        dsimp only
        cases s.resolved.isSome && !s.exports c.query <;> rfl
  | setup s =>
    simp only [problemAt?, unknownModule?, Element.moduleName?, SymbolTable.isImport,
      SymbolTable.isSome_import?]
    split
    · next name _ =>
      rw [Option.filter_some]
      cases v.symbols.importNames.contains name <;> rfl
    · rfl
  | scope s => dsimp only [problemAt?]; split_ifs <;> rfl
  | test t => dsimp only [problemAt?]; split_ifs <;> rfl
  | _ => rfl

theorem filter_unknownQuery (e : Element) :
    (v.problemAt? e).filter (·.code == "unknown-query") = v.unknownQuery? e := by
  cases e with
  | call c =>
    simp only [problemAt?, callProblem?, unknownQuery?, Element.queryName?, Element.exportName?,
      withholds, ← Suite.isSome_query?]
    cases c.moduleName with
    | none =>
      dsimp only
      rw [Option.isNone_none, if_pos rfl, Option.filter_some]
      cases v.suite.query? c.query <;> rfl
    | some name =>
      dsimp only
      rw [Option.map_some, Option.filter_some]
      cases v.symbols.import? name with
      | none => rfl
      | some s =>
        dsimp only
        rw [Option.any_some]
        cases s.resolved.isSome && !s.exports c.query <;> rfl
  | setup s => dsimp only [problemAt?]; split <;> (try split_ifs) <;> rfl
  | scope s =>
    simp only [problemAt?, unknownQuery?, Element.queryName?, Element.exportName?,
      ← Suite.isSome_query?, Option.filter_some]
    cases v.suite.query? s.query <;> rfl
  | test t => dsimp only [problemAt?]; split_ifs <;> rfl
  | _ => rfl

theorem filter_emptyTest (e : Element) :
    (v.problemAt? e).filter (·.code == "empty-test") = e.emptyTest?.map .emptyTest := by
  cases e with
  | call c =>
    dsimp only [problemAt?, callProblem?, Element.emptyTest?]
    split
    · split
      · rfl
      · split_ifs <;> rfl
    · split_ifs <;> rfl
  | setup s => dsimp only [problemAt?]; split <;> (try split_ifs) <;> rfl
  | scope s => dsimp only [problemAt?]; split_ifs <;> rfl
  | test t =>
    dsimp only [problemAt?, Element.emptyTest?]
    split_ifs <;> rfl
  | _ => rfl

/-- What validation sees at an element, at its place. -/
def findingAt? (e : Element) : Option Finding := (v.problemAt? e).map (⟨·, e.span⟩)

/-- What validation sees at the elements of a tree. -/
def seen (t : ElementTree) : List Finding := t.elements.filterMap v.findingAt?

theorem seen_node (e : Element) (branches : List ElementTree) :
    v.seen (.node e branches) = (v.findingAt? e).toList ++ branches.flatMap v.seen := by
  rw [seen, ElementTree.elements_node, List.filterMap_cons, List.filterMap_flatMap]
  cases v.findingAt? e <;> rfl

/-- Nothing is seen at an element and its parts if nothing is seen at the parts. -/
theorem seen_node_of_none {e : Element} (h : v.problemAt? e = none)
    (branches : List ElementTree) : v.seen (.node e branches) = branches.flatMap v.seen := by
  rw [seen_node, findingAt?, h]
  rfl

theorem seen_call (c : Call) : v.seen c.tree = v.callFindings c := by
  rw [Call.tree, seen_node, callFindings, findingAt?, problemAt?, List.flatMap_nil, List.append_nil,
    Option.toList_map]
  rfl

theorem seen_setup (s : Setup) : v.seen s.tree = v.setupFindings s := by
  rw [Setup.tree, seen_node, findingAt?, problemAt?, setupFindings]
  cases s.body with
  | none => rfl
  | some body =>
    cases body with
    | inline body => rfl
    | moduleSetup name =>
      dsimp only
      cases v.symbols.isImport name <;> rfl
    | call c => simp [SetupBody.branches, v.seen_call]
    | block items =>
      simp only [Option.map_none, Option.toList_none, List.nil_append, Option.map_some,
        Option.getD_some, SetupBody.branches, List.flatMap_map]
      refine congrArg (List.flatMap · items) (funext fun i => ?_)
      rw [SetupItem.tree, v.seen_node_of_none rfl]
      cases i.task with
      | none => rfl
      | some task =>
        cases task with
        | inline body => rfl
        | call c => simp [SetupTask.branches, v.seen_call]

theorem seen_value (d : Value) : v.seen d.tree = [] := by
  rw [seen, List.filterMap_eq_nil_iff]
  intro e he
  obtain ⟨w, rfl⟩ := d.forall_mem_elements e he
  rfl

theorem seen_statement (s : Statement) : v.seen s.tree = [] := by
  rw [Statement.tree, v.seen_node_of_none rfl]
  cases s.value <;> simp [v.seen_value]

theorem seen_assertion (a : Assertion) : v.seen a.tree = v.assertionFindings a := by
  have hexprs : (a.exprs.map Expr.tree).flatMap v.seen = [] := by
    simp [List.flatMap_map, Expr.tree, v.seen_node_of_none (e := .expr _) rfl]
  rw [Assertion.tree, v.seen_node_of_none rfl, Assertion.branches, List.flatMap_append, hexprs,
    List.append_nil, assertionFindings]
  cases a.query with
  | none => rfl
  | some q =>
    cases q with
    | inline body => rfl
    | call c => simp [AssertionQuery.branches, v.seen_call]

theorem seen_setup? (s : Option Setup) :
    (s.map Setup.tree).toList.flatMap v.seen = v.setupFindings? s := by
  cases s <;> simp [setupFindings?, v.seen_setup]

theorem seen_teardown? (t : Option Teardown) :
    (t.map Teardown.tree).toList.flatMap v.seen = [] := by
  cases t <;> simp [Teardown.tree, v.seen_node_of_none (e := .teardown _) rfl]

theorem seen_test (t : Test) : v.seen t.tree = v.testFindings t := by
  have hstatements : (t.statements.map Statement.tree).flatMap v.seen = [] := by
    simp [List.flatMap_map, v.seen_statement]
  have hasserts : (t.asserts.map Assertion.tree).flatMap v.seen =
      t.asserts.flatMap v.assertionFindings := by
    simp [List.flatMap_map, v.seen_assertion]
  rw [Test.tree, seen_node, Test.branches, List.flatMap_append, List.flatMap_append, hstatements,
    hasserts, seen_setup?, List.append_nil, testFindings, findingAt?, problemAt?, List.append_assoc]
  cases t.statements.isEmpty && t.asserts.isEmpty <;> rfl

/-- What is seen at elements shows at one element. -/
theorem filter_isLocal_seen (t : ElementTree) :
    (v.seen t).filter (·.problem.isLocal) = v.seen t := by
  rw [List.filter_eq_self]
  intro f hf
  obtain ⟨e, -, he⟩ := List.mem_filterMap.1 hf
  obtain ⟨p, hp, rfl⟩ := Option.map_eq_some_iff.1 he
  exact v.isLocal_of_problemAt? hp

theorem filter_isLocal_setup? (s : Option Setup) :
    (v.setupFindings? s).filter (·.problem.isLocal) = v.setupFindings? s := by
  cases s with
  | none => rfl
  | some s =>
    have hsetup : v.setupFindings? (some s) = v.seen s.tree := (v.seen_setup s).symm
    rw [hsetup, filter_isLocal_seen]

theorem filter_isLocal_findingAt? (e : Element) :
    (v.findingAt? e).toList.filter (·.problem.isLocal) = (v.findingAt? e).toList := by
  have h := v.filter_isLocal_seen (.node e [])
  rwa [seen_node, List.flatMap_nil, List.append_nil] at h

/-! ## Members, scopes and the whole suite -/

theorem itemFindings_group (scope : String) (groups : List String) (g : Group)
    (items : List Item) (met : List String) :
    (v.itemFindings scope groups (.group g items)).run met =
      (v.setupFindings? g.setup ++
          ((v.itemListFindings scope (groups ++ [g.name]) items).run met).1,
        ((v.itemListFindings scope (groups ++ [g.name]) items).run met).2) := by
  rw [itemFindings]
  rfl

theorem itemListFindings_cons (scope : String) (groups : List String) (i : Item)
    (items : List Item) (met : List String) :
    (v.itemListFindings scope groups (i :: items)).run met =
      (((v.itemFindings scope groups i).run met).1 ++
          ((v.itemListFindings scope groups items).run
            ((v.itemFindings scope groups i).run met).2).1,
        ((v.itemListFindings scope groups items).run
          ((v.itemFindings scope groups i).run met).2).2) := by
  rw [itemListFindings]
  rfl

theorem scopeFindings_run (s : Scope) (met : List String) :
    (v.scopeFindings s).run met =
      ((v.findingAt? (.scope s)).toList ++ v.setupFindings? s.setup ++
          ((v.itemListFindings s.query [] s.items).run met).1,
        ((v.itemListFindings s.query [] s.items).run met).2) := by
  rw [findingAt?, problemAt?]
  show (ite _ _ _ ++ _ ++ _, _) = _
  split_ifs <;> rfl

theorem mapM_scopeFindings_cons (s : Scope) (scopes : List Scope) (met : List String) :
    ((s :: scopes).mapM v.scopeFindings).run met =
      (((v.scopeFindings s).run met).1 ::
          ((scopes.mapM v.scopeFindings).run ((v.scopeFindings s).run met).2).1,
        ((scopes.mapM v.scopeFindings).run ((v.scopeFindings s).run met).2).2) := by
  rw [List.mapM_cons]
  rfl

theorem seen_bodyBranches (setup : Option Setup) (teardown : Option Teardown) (items : List Item) :
    (bodyBranches setup teardown items).flatMap v.seen =
      v.setupFindings? setup ++ (items.map Item.tree).flatMap v.seen := by
  rw [bodyBranches, List.flatMap_append, List.flatMap_append, seen_setup?, seen_teardown?,
    List.append_nil]

mutual

/-- What is found in a member at single elements is what is seen there, whatever tests were met
before. -/
theorem filter_isLocal_itemFindings (scope : String) (groups : List String) (i : Item)
    (met : List String) :
    ((v.itemFindings scope groups i).run met).1.filter (·.problem.isLocal) = v.seen i.tree := by
  cases i with
  | test t =>
    have htest : (v.testFindings t).filter (·.problem.isLocal) = v.seen t.tree := by
      rw [← v.seen_test, filter_isLocal_seen]
    rw [itemFindings, Item.tree]
    show List.filter _ (ite _ _ _ : List Finding × List String).1 = _
    split_ifs
    · exact htest
    · exact htest
  | group g items =>
    rw [itemFindings_group, List.filter_append, filter_isLocal_itemListFindings,
      filter_isLocal_setup?, Item.tree_group, v.seen_node_of_none rfl, seen_bodyBranches]

theorem filter_isLocal_itemListFindings (scope : String) (groups : List String)
    (items : List Item) (met : List String) :
    ((v.itemListFindings scope groups items).run met).1.filter (·.problem.isLocal) =
      (items.map Item.tree).flatMap v.seen := by
  cases items with
  | nil => rw [itemListFindings]; rfl
  | cons i items =>
    rw [itemListFindings_cons, List.filter_append, filter_isLocal_itemFindings,
      filter_isLocal_itemListFindings, List.map_cons, List.flatMap_cons]

end

theorem filter_isLocal_scopeFindings (s : Scope) (met : List String) :
    ((v.scopeFindings s).run met).1.filter (·.problem.isLocal) = v.seen s.tree := by
  rw [scopeFindings_run, List.filter_append, List.filter_append, filter_isLocal_findingAt?,
    filter_isLocal_setup?, filter_isLocal_itemListFindings, Scope.tree, seen_node,
    seen_bodyBranches, List.append_assoc]

theorem filter_isLocal_scopes (scopes : List Scope) (met : List String) :
    ((scopes.mapM v.scopeFindings).run met).1.flatten.filter (·.problem.isLocal) =
      (scopes.map Scope.tree).flatMap v.seen := by
  induction scopes generalizing met with
  | nil => rfl
  | cons s scopes ih =>
    rw [mapM_scopeFindings_cons, List.flatten_cons, List.filter_append,
      filter_isLocal_scopeFindings, ih, List.map_cons, List.flatMap_cons]

/-- Names that are defined twice do not show at one element. -/
theorem filter_isLocal_queryFindings : v.queryFindings.filter (·.problem.isLocal) = [] := by
  rw [List.filter_eq_nil_iff]
  intro f hf
  obtain ⟨x, -, rfl⟩ := List.mem_map.1 hf
  exact Bool.false_ne_true

theorem filter_isLocal_importFindings (bound : List String) (imports : List Import) :
    (v.importFindings bound imports).filter (·.problem.isLocal) = [] := by
  induction imports generalizing bound with
  | nil => rfl
  | cons i imports ih =>
    rw [importFindings]
    cases i.name? with
    | none => exact ih bound
    | some name =>
      have hfirst : (v.importFinding? bound name i).toList.filter (·.problem.isLocal) = [] := by
        unfold importFinding?
        split_ifs <;> rfl
      dsimp only
      rw [List.filter_append, hfirst, ih]
      rfl

/-- What is found at single elements is what is seen at each element of the suite, in document
order. -/
theorem filter_isLocal_findings :
    v.findings.filter (·.problem.isLocal) = v.suite.elements.filterMap v.findingAt? := by
  have hleaf (e : Element) (h : v.problemAt? e = none) : v.seen (.node e []) = [] :=
    v.seen_node_of_none h []
  have himports : (v.suite.imports.map Import.tree).flatMap v.seen = [] := by
    rw [List.flatMap_map, List.flatMap_eq_nil_iff]
    exact fun i _ => hleaf (.importClause i) rfl
  have hqueries : (v.suite.queries.map Query.tree).flatMap v.seen = [] := by
    rw [List.flatMap_map, List.flatMap_eq_nil_iff]
    exact fun q _ => hleaf (.query q) rfl
  show _ = v.seen v.suite.tree
  rw [findings, Suite.tree, v.seen_node_of_none rfl, Suite.branches]
  simp only [List.filter_append, List.flatMap_append, filter_isLocal_queryFindings,
    filter_isLocal_importFindings, filter_isLocal_setup?, filter_isLocal_scopes, himports, hqueries,
    seen_setup?, seen_teardown?, List.nil_append, List.append_nil]

/-! ## The diagnostics of a suite -/

/-- The findings of one kind of problem that shows at one element are what is to be told of each
element. -/
theorem filter_code_findings {code : String} {problem? : Element → Option Problem}
    (hlocal : ∀ p : Problem, p.code = code → p.isLocal = true)
    (h : ∀ e, (v.problemAt? e).filter (·.code == code) = problem? e) :
    v.findings.filter (·.problem.code == code) = v.told problem? := by
  have hfilter : v.findings.filter (·.problem.code == code) =
      (v.findings.filter (·.problem.isLocal)).filter (·.problem.code == code) := by
    rw [List.filter_filter]
    refine List.filter_congr fun f _ => ?_
    by_cases hf : f.problem.code = code
    · simp [hf, hlocal f.problem hf]
    · simp [hf]
  have hpoint : (fun e => (v.findingAt? e).filter (·.problem.code == code)) =
      fun e => (problem? e).map (⟨·, e.span⟩) := by
    funext e
    rw [findingAt?, ← h e]
    cases v.problemAt? e with
    | none => rfl
    | some p =>
      rw [Option.map_some, Option.filter_some, Option.filter_some]
      cases p.code == code <;> rfl
  rw [hfilter, filter_isLocal_findings, List.filter_filterMap, hpoint, told]

/-- The diagnostics with a code are those of the findings with that code. -/
theorem filter_code_diagnostics (source code : String) :
    (v.diagnostics source).filter (·.code == code) =
      (v.findings.filter (·.problem.code == code)).map (·.diagnostic source) :=
  List.filter_map

theorem resolves_iff (e : Element) :
    v.Resolves e ↔ v.unknownModule? e = none ∧ v.unknownQuery? e = none := by
  have hmodule : v.unknownModule? e = none ↔
      ∀ name, e.moduleName? = some name → name ∈ v.symbols.importNames := by
    simp [unknownModule?, Option.filter_eq_none_iff]
  have hquery : v.unknownQuery? e = none ↔
      (∀ name, e.queryName? = some name → ∃ q ∈ v.suite.queries, q.name = name) ∧
        ∀ name, e.exportName? = some name → v.withholds name.1 name.2 = false := by
    simp [unknownQuery?, Option.filter_eq_none_iff]
  have hexport (moduleName query : String) : v.withholds moduleName query = false ↔
      ∀ s, v.symbols.import? moduleName = some s → s.resolved.isSome = true →
        query ∈ s.queries := by
    cases h : v.symbols.import? moduleName <;> simp [withholds, h, ImportSymbol.exports]
  rw [hmodule, hquery]
  constructor
  · intro h
    exact ⟨h.moduleName, h.queryName, fun name hname =>
      (hexport name.1 name.2).2 (h.exportName name.1 name.2 hname)⟩
  · rintro ⟨hm, hq, hx⟩
    exact ⟨hm, hq, fun moduleName query hname => (hexport moduleName query).1 (hx _ hname)⟩

theorem told_eq_nil_iff {problem? : Element → Option Problem} :
    v.told problem? = [] ↔ ∀ e ∈ v.suite.elements, problem? e = none := by
  simp [told]

/-- Validation checks every reference of a suite once. What it tells of modules and queries that
nothing defines, and of tests that test nothing, is told of single elements, at their places and in
the order of the walk; and it tells of no unknown module and of no unknown query exactly if the
names that each element refers to are defined, at any depth. -/
theorem diagnostics_of_references (source : String) :
    v.suite.elements.map Element.node = v.suite.nodes ∧
    (v.diagnostics source).filter (·.code == "unknown-module") =
      (v.told v.unknownModule?).map (·.diagnostic source) ∧
    (v.diagnostics source).filter (·.code == "unknown-query") =
      (v.told v.unknownQuery?).map (·.diagnostic source) ∧
    (v.diagnostics source).filter (·.code == "empty-test") =
      (v.told fun e => e.emptyTest?.map .emptyTest).map (·.diagnostic source) ∧
    ((∀ d ∈ v.diagnostics source, d.code ≠ "unknown-module" ∧ d.code ≠ "unknown-query") ↔
      ∀ e ∈ v.suite.elements, v.Resolves e) := by
  have hmodule : v.findings.filter (·.problem.code == "unknown-module") =
      v.told v.unknownModule? :=
    v.filter_code_findings (by rintro (_ | _) <;> simp [Problem.code, Problem.isLocal])
      v.filter_unknownModule
  have hquery : v.findings.filter (·.problem.code == "unknown-query") = v.told v.unknownQuery? :=
    v.filter_code_findings (by rintro (_ | _) <;> simp [Problem.code, Problem.isLocal])
      v.filter_unknownQuery
  have hempty : v.findings.filter (·.problem.code == "empty-test") =
      v.told fun e => e.emptyTest?.map .emptyTest :=
    v.filter_code_findings (by rintro (_ | _) <;> simp [Problem.code, Problem.isLocal])
      v.filter_emptyTest
  refine ⟨v.suite.map_node_elements, ?_, ?_, ?_, ?_⟩
  · rw [filter_code_diagnostics, hmodule]
  · rw [filter_code_diagnostics, hquery]
  · rw [filter_code_diagnostics, hempty]
  · have hnone (code : String) : (∀ d ∈ v.diagnostics source, d.code ≠ code) ↔
        v.findings.filter (·.problem.code == code) = [] := by
      rw [← List.map_eq_nil_iff (f := (·.diagnostic source)), ← filter_code_diagnostics]
      simp
    simp only [resolves_iff, forall_and, hnone, hmodule, hquery, told_eq_nil_iff]

end Validator

end QuerySuite
