import Mathlib.Tactic.SplitIfs
import QuerySuite.Proofs.DeepestSite
import QuerySuite.Proofs.EnclosedTests
import QuerySuite.Proofs.FirstDefinitions

/-!
# What a symbol table lists

The table of a suite lists the definitions of the suite that have a name, in the order of the
document and of several with one name the first. Loading the modules of imports adds to their
symbols and changes nothing else, and whatever a resolver remembers has no influence on the rest of
the table.

Results:

* `Extractor.map_unloaded_importSymbols`: the symbols of imports, as they are written.
* `Extractor.symbols_listed`: what the table of a suite lists.
-/

namespace QuerySuite

/-! ## Imports -/

/-- The symbol as it is before the module is loaded. -/
def ImportSymbol.unloaded (s : ImportSymbol) : ImportSymbol :=
  { s with resolved := none, queries := [] }

/-- The symbol of an import that has a path and binds a name, as it is written. -/
def Import.symbol? (i : Import) : Option ImportSymbol :=
  if i.path = "" then none
  else i.name?.map fun name => { name, path := i.path, span := some i.span }

namespace Extractor

variable {σ : Type} (x : Extractor σ)

theorem unloaded_loadImport (s : ImportSymbol) (st : σ) :
    ((x.loadImport s).run st).1.unloaded = s.unloaded := by
  unfold loadImport
  cases x.resolver with
  | none => rfl
  | some resolver =>
    simp only [StateT.run_bind]
    dsimp only [bind]
    split <;> rfl

theorem map_unloaded_importSymbol? (i : Import) (st : σ) :
    ((x.importSymbol? i).run st).1.map ImportSymbol.unloaded = i.symbol? := by
  unfold importSymbol? Import.symbol?
  by_cases hpath : i.path = ""
  · rw [if_pos (beq_iff_eq.2 hpath), if_pos hpath]
    rfl
  · rw [if_neg (mt beq_iff_eq.1 hpath), if_neg hpath]
    cases i.name? with
    | none => rfl
    | some name => exact congrArg some (x.unloaded_loadImport _ st)

/-- The imports are loaded one after another. -/
theorem run_importSymbols_cons (i : Import) (imports : List Import) (st : σ) :
    (x.importSymbols (i :: imports)).run st =
      (((x.importSymbol? i).run st).1.toList ++
          ((x.importSymbols imports).run ((x.importSymbol? i).run st).2).1,
        ((x.importSymbols imports).run ((x.importSymbol? i).run st).2).2) := by
  refine Prod.ext ?_ ?_
  · rw [importSymbols, List.mapM_cons]
    show (((x.importSymbol? i).run st).1 :: _).filterMap id = _
    rw [List.filterMap_cons]
    cases ((x.importSymbol? i).run st).1 <;> rfl
  · rw [importSymbols, List.mapM_cons]
    rfl

/-- Whatever is loaded on the way, the symbols of imports are those that are written. -/
theorem map_unloaded_importSymbols (imports : List Import) (st : σ) :
    ((x.importSymbols imports).run st).1.map ImportSymbol.unloaded =
      imports.filterMap Import.symbol? := by
  induction imports generalizing st with
  | nil => rfl
  | cons i imports ih =>
    rw [x.run_importSymbols_cons, List.map_append, ih, ← Option.toList_map,
      map_unloaded_importSymbol?, List.filterMap_cons]
    cases i.symbol? <;> rfl

end Extractor

/-! ## The table of a suite -/

/-- The table lists what the suite defines. -/
structure SymbolTable.Lists {σ : Type} (x : Extractor σ) (suite : Suite) (t : SymbolTable) :
    Prop where
  /-- The imports that have a path and bind a name, of those with one name the first. -/
  imports : t.imports.map ImportSymbol.unloaded =
    Symbol.firsts (·.name) (suite.imports.filterMap Import.symbol?)
  /-- The queries that have a name, of those with one name the first. -/
  queries : t.queries = Symbol.firsts (·.name) ((suite.queries.filter (·.name ≠ "")).map fun q =>
    { name := q.name, params := x.scanner.params q.body, returns := x.scanner.returns q.body,
      body := q.body, span := some q.span })
  /-- The tests that are named throughout, of those with one path the first. -/
  tests : t.tests = Symbol.firsts (·.path) (suite.tests.filter fun s => s.IsNamed)
  /-- Symbols are found by their names, and no name stands twice. -/
  findImport : (t.imports.map (·.name)).Nodup ∧
    ∀ name s, t.import? name = some s ↔ s ∈ t.imports ∧ s.name = name
  findQuery : (t.queries.map (·.name)).Nodup ∧
    ∀ name s, t.query? name = some s ↔ s ∈ t.queries ∧ s.name = name
  findTest : (t.tests.map (·.path)).Nodup ∧
    ∀ path s, t.test? path = some s ↔ s ∈ t.tests ∧ s.path = path

/-- The table of a suite lists its imports, queries and tests, each kind in the order of the
document. A test is known by the names of the scope and the groups that are on the way to it in the
tree of the suite. -/
theorem Extractor.symbols_listed {σ : Type} (x : Extractor σ) (suite : Suite) (st : σ) :
    suite.tree.places.map (fun y => y.2.node) = suite.nodes ∧
      (∀ s : TestSymbol, s.path = "/".intercalate (s.scope :: s.groups ++ [s.name])) ∧
      ((x.ofSuite suite).run st).1.Lists x suite := by
  refine ⟨suite.map_node_places, fun _ => rfl, ?_⟩
  have himports : ((x.ofSuite suite).run st).1.imports =
      Symbol.keepFirst (·.name) ((x.importSymbols suite.imports).run st).1 := rfl
  have hqueries : ((x.ofSuite suite).run st).1.queries =
      Symbol.keepFirst (·.name) (x.querySymbols suite.queries) := rfl
  have htests : ((x.ofSuite suite).run st).1.tests =
      Symbol.keepFirst (·.path) suite.testSymbols := rfl
  constructor
  case imports =>
    rw [himports, Symbol.keepFirst_eq_firsts, ← x.map_unloaded_importSymbols suite.imports st]
    exact Symbol.map_firsts (·.name) ImportSymbol.unloaded _
  case queries =>
    have hnamed : suite.queries.filter (·.name != "") = suite.queries.filter (·.name ≠ "") :=
      List.filter_congr fun q _ => Bool.eq_iff_iff.2 (by simp)
    rw [hqueries, Symbol.keepFirst_eq_firsts, querySymbols, hnamed]
    rfl
  case tests => rw [htests, Symbol.keepFirst_eq_firsts, suite.testSymbols_eq_filter]
  case findImport =>
    have hnodup := himports ▸ Symbol.map_key_keepFirst_nodup _ _
    exact ⟨hnodup, fun name s => Symbol.find?_eq_some_iff hnodup⟩
  case findQuery =>
    have hnodup := hqueries ▸ Symbol.map_key_keepFirst_nodup _ _
    exact ⟨hnodup, fun name s => Symbol.find?_eq_some_iff hnodup⟩
  case findTest =>
    have hnodup := htests ▸ Symbol.map_key_keepFirst_nodup _ _
    exact ⟨hnodup, fun path s => Symbol.find?_eq_some_iff hnodup⟩

end QuerySuite
