import Mathlib
import QuerySuite.Proofs.Placeholders
import QuerySuite.Proofs.References
import QuerySuite.Proofs.Separation
import QuerySuite.Proofs.SymbolTables

/-!
# Repeated definitions

Validation tells of a definition whose name was defined before, and the table of symbols keeps the
first definition of a name. The two go through the suite apart from each other, each with its own
account of the names that it met. On a suite that was read strictly they agree: a definition is told
of exactly if the table has another one in its place, and lookups in the tree of the suite and in
the table give the same.

Results:

* `Validator.filter_not_isLocal_findings`: what validation finds that does not show at one element.
* `Validator.filter_duplicateQuery`, `Validator.filter_duplicateImport`,
  `Validator.filter_duplicateTest`: the definitions that validation tells of.
* `Validator.repeats_agree`: what is told of is what the table leaves out.
-/

namespace QuerySuite

namespace Validator

/-! ## Repeated tests -/

theorem filter_not_isLocal_eq_nil {found : List Finding}
    (h : found.filter (·.problem.isLocal) = found) :
    found.filter (!·.problem.isLocal) = [] := by
  rw [← h, List.filter_filter, List.filter_eq_nil_iff]
  simp

theorem filter_not_isLocal_eq_self {found : List Finding}
    (h : found.filter (·.problem.isLocal) = []) :
    found.filter (!·.problem.isLocal) = found := by
  rw [List.filter_eq_nil_iff] at h
  rw [List.filter_eq_self]
  simpa using h

/-- What is to be told of a test whose path was met before. -/
def repeatedTest (x : String × TestSymbol) : Finding := ⟨.duplicateTest x.1, x.2.span⟩

/-- A run of the checks over a part of the suite tells of its tests whose paths were met before, and
hands on the paths of all. -/
structure Tells (met : List String) (tests : List TestSymbol) (run : List Finding × List String) :
    Prop where
  told : run.1.filter (!·.problem.isLocal) = (repeated TestSymbol.path met tests).map repeatedTest
  handed : run.2 = seenAfter TestSymbol.path met tests

namespace Tells

variable {met : List String} {tests more : List TestSymbol} {run run' : List Finding × List String}

theorem nil : Tells met [] ([], met) := ⟨rfl, rfl⟩

/-- Two parts of the suite, one behind the other. -/
theorem append (h : Tells met tests run) (h' : Tells run.2 more run') :
    Tells met (tests ++ more) (run.1 ++ run'.1, run'.2) := by
  constructor
  · rw [List.filter_append, h.told, h'.told, h.handed, repeated_append, List.map_append]
  · rw [h'.handed, h.handed, seenAfter_append]

/-- What shows at one element does not count. -/
theorem behind {found : List Finding} (hlocal : found.filter (·.problem.isLocal) = found)
    (h : Tells met tests run) : Tells met tests (found ++ run.1, run.2) := by
  refine ⟨?_, h.handed⟩
  rw [List.filter_append, filter_not_isLocal_eq_nil hlocal, List.nil_append, h.told]

end Tells

variable (v : Validator)

mutual

theorem tells_itemFindings (scope : String) (groups : List String) (i : Item) (met : List String) :
    Tells met (i.tests scope groups) ((v.itemFindings scope groups i).run met) := by
  cases i with
  | test t =>
    have hlocal : (v.testFindings t).filter (·.problem.isLocal) = v.testFindings t := by
      rw [← v.seen_test, filter_isLocal_seen]
    have hrest := filter_not_isLocal_eq_nil hlocal
    rw [itemFindings, Item.tests]
    show Tells met _ (ite _ _ _)
    split_ifs with hmet
    · refine ⟨?_, ?_⟩
      · rw [List.filter_cons_of_pos rfl, hrest, repeated, if_pos hmet]
        rfl
      · rw [seenAfter, if_pos hmet, seenAfter]
    · refine ⟨?_, ?_⟩
      · rw [hrest, repeated, if_neg hmet]
        rfl
      · rw [seenAfter, if_neg hmet, seenAfter]
  | group g items =>
    rw [itemFindings_group, Item.tests]
    exact (tells_itemListFindings scope (groups ++ [g.name]) items met).behind
      (v.filter_isLocal_setup? g.setup)

theorem tells_itemListFindings (scope : String) (groups : List String) (items : List Item)
    (met : List String) :
    Tells met (Item.testsOfList scope groups items)
      ((v.itemListFindings scope groups items).run met) := by
  cases items with
  | nil =>
    rw [itemListFindings]
    exact .nil
  | cons i items =>
    rw [itemListFindings_cons, Item.testsOfList]
    exact (tells_itemFindings scope groups i met).append
      (tells_itemListFindings scope groups items _)

end

theorem tells_scopeFindings (s : Scope) (met : List String) :
    Tells met (Item.testsOfList s.query [] s.items) ((v.scopeFindings s).run met) := by
  rw [scopeFindings_run]
  refine (v.tells_itemListFindings s.query [] s.items met).behind ?_
  rw [List.filter_append, filter_isLocal_findingAt?, filter_isLocal_setup?]

theorem tells_scopes (scopes : List Scope) (met : List String) :
    Tells met (scopes.flatMap fun c => Item.testsOfList c.query [] c.items)
      (((scopes.mapM v.scopeFindings).run met).1.flatten,
        ((scopes.mapM v.scopeFindings).run met).2) := by
  induction scopes generalizing met with
  | nil => exact .nil
  | cons s scopes ih =>
    rw [mapM_scopeFindings_cons, List.flatMap_cons]
    exact (v.tells_scopeFindings s met).append (ih _)

/-- What does not show at one element: queries and tests that were defined before, and what is wrong
with the imports. -/
theorem filter_not_isLocal_findings :
    v.findings.filter (!·.problem.isLocal) = v.queryFindings ++
      v.importFindings [] v.suite.imports ++
        (Symbol.repeats (·.path) v.suite.tests).map fun t => ⟨.duplicateTest t.path, t.span⟩ := by
  have htests := (v.tells_scopes v.suite.scopes []).told
  rw [← Suite.tests_eq_flatMap, repeated_eq_repeats, List.map_map] at htests
  rw [findings, List.filter_append, List.filter_append, List.filter_append, htests,
    filter_not_isLocal_eq_self v.filter_isLocal_queryFindings,
    filter_not_isLocal_eq_self (v.filter_isLocal_importFindings [] _),
    filter_not_isLocal_eq_nil (v.filter_isLocal_setup? _), List.append_nil]
  rfl

/-! ## Repeated definitions by their kind -/

theorem filter_code_of_not_isLocal {code : String}
    (hcode : ∀ p : Problem, p.code = code → p.isLocal = false) :
    v.findings.filter (·.problem.code == code) =
      v.queryFindings.filter (·.problem.code == code) ++
        (v.importFindings [] v.suite.imports).filter (·.problem.code == code) ++
          ((Symbol.repeats (·.path) v.suite.tests).map fun t =>
            (⟨.duplicateTest t.path, t.span⟩ : Finding)).filter (·.problem.code == code) := by
  rw [← List.filter_append, ← List.filter_append, ← filter_not_isLocal_findings, List.filter_filter]
  refine List.filter_congr fun f _ => ?_
  by_cases hf : f.problem.code = code
  · simp [hf, hcode f.problem hf]
  · simp [hf]

theorem code_of_mem_importFindings {bound : List String} {imports : List Import} {f : Finding}
    (h : f ∈ v.importFindings bound imports) :
    f.problem.code = "duplicate-import" ∨ f.problem.code = "unresolved-import" := by
  induction imports generalizing bound with
  | nil => cases h
  | cons i imports ih =>
    rw [importFindings] at h
    cases hname : i.name? with
    | none =>
      rw [hname] at h
      exact ih h
    | some name =>
      rw [hname] at h
      rcases List.mem_append.1 h with h | h
      · rw [Option.mem_toList, importFinding?] at h
        split_ifs at h
        · obtain rfl := Option.some.inj h
          exact .inl rfl
        · obtain rfl := Option.some.inj h
          exact .inr rfl
      · exact ih h

/-- Every import that binds a name, behind the name. -/
def bindings (imports : List Import) : List (String × Import) :=
  imports.filterMap fun i => i.name?.map (·, i)

/-- Whether the names bound so far are noted once or more does not matter. -/
theorem filter_duplicateImport_importFindings {bound seen : List String}
    (h : ∀ name, name ∈ bound ↔ name ∈ seen) (imports : List Import) :
    (v.importFindings bound imports).filter (·.problem.code == "duplicate-import") =
      (repeated (·.1) seen (bindings imports)).map fun x =>
        ⟨.duplicateImport x.1, x.2.2.span⟩ := by
  induction imports generalizing bound seen with
  | nil => rfl
  | cons i imports ih =>
    rw [importFindings, bindings, List.filterMap_cons]
    cases i.name? with
    | none => exact ih h
    | some name =>
      have hsame : bound.contains name = seen.contains name := by
        rw [Bool.eq_iff_iff, List.contains_iff_mem, List.contains_iff_mem]
        exact h name
      dsimp only [Option.map_some]
      rw [List.filter_append, repeated, importFinding?, hsame]
      have hadded : ∀ other, other ∈ name :: bound ↔ other ∈ name :: seen := fun other => by
        rw [List.mem_cons, List.mem_cons, h other]
      split_ifs with hseen hload
      · -- The name is bound again, and was among those met already.
        have hkept : ∀ other, other ∈ name :: bound ↔ other ∈ seen := fun other => by
          rw [hadded other, List.mem_cons]
          refine ⟨fun hother => hother.elim ?_ id, .inr⟩
          rintro rfl
          exact List.contains_iff_mem.1 hseen
        rw [ih hkept]
        rfl
      · rw [ih hadded]
        rfl
      · rw [ih hadded]
        rfl

theorem filter_importFindings_eq_nil {code : String} (hduplicate : code ≠ "duplicate-import")
    (hunresolved : code ≠ "unresolved-import") (bound : List String) (imports : List Import) :
    (v.importFindings bound imports).filter (·.problem.code == code) = [] := by
  rw [List.filter_eq_nil_iff]
  intro f hf
  rcases v.code_of_mem_importFindings hf with hcode | hcode
  · simpa [hcode] using hduplicate.symm
  · simpa [hcode] using hunresolved.symm

theorem filter_duplicateQuery :
    v.findings.filter (·.problem.code == "duplicate-query") =
      (Symbol.repeats (·.name) v.suite.queries).map fun q => ⟨.duplicateQuery q.name, q.span⟩ := by
  rw [v.filter_code_of_not_isLocal (by rintro (_ | _) <;> simp [Problem.code, Problem.isLocal]),
    v.filter_importFindings_eq_nil (by decide) (by decide), List.append_nil, queryFindings,
    repeated_eq_repeats]
  simp [List.filter_map, Function.comp_def, Problem.code]

theorem filter_duplicateImport :
    v.findings.filter (·.problem.code == "duplicate-import") =
      (Symbol.repeats (·.1) (bindings v.suite.imports)).map fun x =>
        ⟨.duplicateImport x.1, x.2.span⟩ := by
  rw [v.filter_code_of_not_isLocal (by rintro (_ | _) <;> simp [Problem.code, Problem.isLocal]),
    v.filter_duplicateImport_importFindings (fun _ => Iff.rfl), repeated_eq_repeats, queryFindings]
  simp [List.filter_map, Function.comp_def, Problem.code]

theorem filter_duplicateTest :
    v.findings.filter (·.problem.code == "duplicate-test") =
      (Symbol.repeats (·.path) v.suite.tests).map fun t => ⟨.duplicateTest t.path, t.span⟩ := by
  rw [v.filter_code_of_not_isLocal (by rintro (_ | _) <;> simp [Problem.code, Problem.isLocal]),
    v.filter_importFindings_eq_nil (by decide) (by decide), List.append_nil, queryFindings]
  simp [List.filter_map, Function.comp_def, Problem.code]

/-- Something with this code is told at the place. -/
def Reports (source code : String) (span : Span) : Prop :=
  ∃ d ∈ v.diagnostics source, d.code = code ∧ d.span = span

theorem reports_iff {source code : String} {span : Span} :
    v.Reports source code span ↔
      ∃ f ∈ v.findings.filter (·.problem.code == code), f.span = span := by
  simp [Reports, diagnostics, Finding.diagnostic, and_assoc]

/-- Where the repetitions in a list are told of, a member at a place of its own is told of exactly
if the first member with its key is another one. -/
theorem exists_first_reports_iff {α : Type} {l : List α} {key : α → String} {span : α → Span}
    {problem : α → Problem} {code : String}
    (hfindings : v.findings.filter (·.problem.code == code) =
      (Symbol.repeats key l).map fun a => ⟨problem a, span a⟩)
    (hspans : (l.map span).Nodup) (source : String) {a : α} (ha : a ∈ l) :
    ∃ b, l.find? (key · == key a) = some b ∧
      (v.Reports source code (span a) ↔ span b ≠ span a) := by
  have hfound : (l.find? (key · == key a)).isSome = true :=
    List.find?_isSome.2 ⟨a, ha, beq_self_eq_true _⟩
  obtain ⟨b, hb⟩ := Option.isSome_iff_exists.1 hfound
  refine ⟨b, hb, ?_⟩
  rw [reports_iff, hfindings]
  have hiff : (∃ c ∈ Symbol.repeats key l, span c = span a) ↔
      ∃ c, l.find? (key · == key a) = some c ∧ span c ≠ span a :=
    Symbol.exists_repeats_iff hspans ha
  simpa [hb] using hiff

end Validator

/-! ## Lookups -/

open Validator (bindings)

theorem map_snd_bindings (imports : List Import) :
    (bindings imports).map (·.2) = imports.filter (·.name?.isSome) := by
  induction imports with
  | nil => rfl
  | cons i imports ih =>
    rw [bindings, List.filterMap_cons]
    cases hname : i.name? with
    | none =>
      rw [List.filter_cons_of_neg (by simp [hname])]
      exact ih
    | some name =>
      rw [List.filter_cons_of_pos (by simp [hname])]
      exact congrArg (List.cons i) ih

/-- The imports that bind a name have different places. -/
theorem nodup_spans_bindings {mode : Grammar.Mode} {source : String} {suite : Suite}
    (h : (parse mode source).suite = some suite) :
    ((bindings suite.imports).map fun b => b.2.span).Nodup := by
  have hmap : (bindings suite.imports).map (fun b => b.2.span) =
      (suite.imports.filter (·.name?.isSome)).map (·.span) := by
    rw [← map_snd_bindings, List.map_map]
    rfl
  rw [hmap]
  exact (nodup_spans_imports h).sublist (List.filter_sublist.map _)

/-- The lookup of an import gives the first that binds the name. -/
theorem Suite.import?_eq_find?_bindings (s : Suite) (name : String) :
    s.import? name = ((bindings s.imports).find? (·.1 == name)).map (·.2) := by
  have hbinds (i : Import) :
      (i.name?.map (·, i)).any (·.1 == name) = (i.name? == some name) := by
    cases i.name? <;> rfl
  simp only [import?, bindings, List.find?_filterMap, hbinds]
  cases hfound : s.imports.find? (·.name? == some name) with
  | none => rfl
  | some i =>
    have hname : i.name? = some name := by simpa using List.find?_some hfound
    rw [Option.bind_some, hname]
    rfl

namespace Extractor

variable {σ : Type} (x : Extractor σ) {suite : Suite} (st : σ)

/-- The table has the first query of a name. -/
theorem query?_ofSuite (hnames : ∀ q ∈ suite.queries, q.name ≠ "") (name : String) :
    ((x.ofSuite suite).run st).1.query? name =
      (suite.query? name).map fun q => x.querySymbol q.name q.body (some q.span) := by
  have hqueries : ((x.ofSuite suite).run st).1.queries =
      Symbol.keepFirst (·.name) (x.querySymbols suite.queries) := rfl
  have hall : suite.queries.filter (·.name != "") = suite.queries := by
    rw [List.filter_eq_self]
    simpa using hnames
  rw [SymbolTable.query?, hqueries, Symbol.keepFirst_eq_firsts, Symbol.find?_firsts, querySymbols,
    hall, List.find?_map]
  rfl

/-- The table has the first import that binds a name. -/
theorem span_import?_ofSuite (hpaths : ∀ i ∈ suite.imports, i.path ≠ "") (name : String) :
    (((x.ofSuite suite).run st).1.import? name).map (·.span) =
      ((bindings suite.imports).find? (·.1 == name)).map fun b => some b.2.span := by
  have himports : ((x.ofSuite suite).run st).1.imports =
      Symbol.keepFirst (·.name) ((x.importSymbols suite.imports).run st).1 := rfl
  have hsymbols : suite.imports.filterMap Import.symbol? = (bindings suite.imports).map
      fun b => { name := b.1, path := b.2.path, span := some b.2.span } := by
    rw [bindings, List.map_filterMap]
    refine List.filterMap_congr fun i hi => ?_
    rw [Import.symbol?, if_neg (hpaths i hi), Option.map_map]
    rfl
  have hloaded := congrArg (List.find? (·.name == name))
    (x.map_unloaded_importSymbols suite.imports st)
  rw [hsymbols, List.find?_map, List.find?_map] at hloaded
  have hspans := congrArg (Option.map ImportSymbol.span) hloaded
  rw [Option.map_map, Option.map_map] at hspans
  rw [SymbolTable.import?, himports, Symbol.keepFirst_eq_firsts, Symbol.find?_firsts]
  exact hspans

/-- The table has the first test at each path. -/
theorem tests_ofSuite (hnamed : ∀ t ∈ suite.tests, t.IsNamed) :
    ((x.ofSuite suite).run st).1.tests = Symbol.firsts (·.path) suite.tests := by
  have htests : ((x.ofSuite suite).run st).1.tests =
      Symbol.keepFirst (·.path) suite.testSymbols := rfl
  have hall : suite.tests.filter (fun t => t.IsNamed) = suite.tests := by
    rw [List.filter_eq_self]
    simpa using hnamed
  rw [htests, Symbol.keepFirst_eq_firsts, suite.testSymbols_eq_filter, hall]

theorem test?_ofSuite (hnamed : ∀ t ∈ suite.tests, t.IsNamed) (path : String) :
    ((x.ofSuite suite).run st).1.test? path = suite.tests.find? (·.path == path) := by
  rw [SymbolTable.test?, x.tests_ofSuite st hnamed, Symbol.find?_firsts]

end Extractor

/-! ## Names of suites that were read -/

/-- A query that was read strictly has a name. -/
theorem query_name_ne_empty {source : String} {suite : Suite}
    (h : (parse .strict source).suite = some suite) {q : Query} (hq : q ∈ suite.queries) :
    q.name ≠ "" := by
  intro hempty
  have hmem : .query q ∈ suite.elements := by
    rw [Suite.elements, Suite.tree, ElementTree.elements_node]
    refine List.mem_cons_of_mem _ (List.mem_flatMap.2 ⟨q.tree, ?_, List.mem_cons_self⟩)
    simp only [Suite.branches, List.mem_append]
    exact .inl (.inl (.inl (.inr (List.mem_map_of_mem hq))))
  obtain ⟨r, hr, -⟩ := ((Grammar.parse_traced h _ hmem).resolve_left (by simp)).exists_significant
    (fun p hp => Grammar.Stream.text_ne_empty hp) (Grammar.Stream.split_wellFormed none _)
    (by simp [Element.isIncomplete, hempty])
  rw [recovery_eq_clean_of_strict h hmem] at hr
  cases hr

/-- A test stands in a scope of the suite. -/
theorem Suite.exists_scope_of_mem_tests {s : Suite} {t : TestSymbol} (h : t ∈ s.tests) :
    ∃ c, .scope c ∈ s.elements ∧ t.scope = c.query := by
  rw [tests_eq_flatMap] at h
  obtain ⟨c, hc, ht⟩ := List.mem_flatMap.1 h
  refine ⟨c, ?_, (Item.of_mem_testsOfList c.items ht).1⟩
  rw [elements, tree, ElementTree.elements_node, branches, List.flatMap_append]
  refine List.mem_cons_of_mem _ (List.mem_append_right _ (List.mem_flatMap.2
    ⟨c.tree, List.mem_map_of_mem hc, ?_⟩))
  rw [Scope.tree, ElementTree.elements_node]
  exact List.mem_cons_self

/-- The scope of a test names a query. -/
theorem scope_ne_empty_of_mem_tests {mode : Grammar.Mode} {source : String} {suite : Suite}
    (h : (parse mode source).suite = some suite) {t : TestSymbol} (ht : t ∈ suite.tests) :
    t.scope ≠ "" := by
  obtain ⟨c, hc, hscope⟩ := Suite.exists_scope_of_mem_tests ht
  rw [hscope]
  exact ((Grammar.parse_traced h _ hc).resolve_left (by simp)).scope_query_ne_empty
    fun p hp => Grammar.Stream.text_ne_empty hp

/-! ## Validation and the table -/

/-- What validation tells of as defined before is what the table has another definition for, and
lookups in the tree of the suite agree with those in the table. -/
structure Validator.RepeatsAgree (v : Validator) (source : String) : Prop where
  queries : ∀ q ∈ v.suite.queries, ∃ s, v.symbols.query? q.name = some s ∧
    (v.Reports source "duplicate-query" q.span ↔ s.span ≠ some q.span)
  imports : ∀ i ∈ v.suite.imports, ∀ name, i.name? = some name →
    ∃ s, v.symbols.import? name = some s ∧
      (v.Reports source "duplicate-import" i.span ↔ s.span ≠ some i.span)
  tests : ∀ t ∈ v.suite.tests, ∃ s, v.symbols.test? t.path = some s ∧
    (v.Reports source "duplicate-test" t.span ↔ s.span ≠ t.span)
  findQuery : ∀ name, (v.symbols.query? name).map (·.span) =
    (v.suite.query? name).map fun q => some q.span
  findImport : ∀ name, (v.symbols.import? name).map (·.span) =
    (v.suite.import? name).map fun i => some i.span

/-- In a suite that was read strictly, with a path for every import and a name for every group and
test, a definition is told of as a repetition exactly if the table of the suite has another one
under its name. This holds whatever resolver the table was made with. -/
theorem Validator.repeats_agree {σ : Type} (v : Validator) (x : Extractor σ) (st : σ)
    {source : String} (h : (parse .strict source).suite = some v.suite)
    (hsymbols : v.symbols = ((x.ofSuite v.suite).run st).1)
    (hpaths : ∀ i ∈ v.suite.imports, i.path ≠ "")
    (hnames : ∀ t ∈ v.suite.tests, (∀ g ∈ t.groups, g ≠ "") ∧ t.name ≠ "") (file : String) :
    v.RepeatsAgree file := by
  have hqueries : ∀ q ∈ v.suite.queries, q.name ≠ "" := fun q hq => query_name_ne_empty h hq
  have hnamed : ∀ t ∈ v.suite.tests, t.IsNamed := fun t ht =>
    ⟨scope_ne_empty_of_mem_tests h ht, hnames t ht⟩
  constructor
  case queries =>
    intro q hq
    obtain ⟨p, hp, hiff⟩ :=
      v.exists_first_reports_iff v.filter_duplicateQuery (nodup_spans_queries h) file hq
    rw [hsymbols, x.query?_ofSuite st hqueries, Suite.query?, hp]
    exact ⟨_, rfl, hiff.trans (not_congr Option.some_inj.symm)⟩
  case imports =>
    intro i hi name hname
    have hmem : (name, i) ∈ bindings v.suite.imports :=
      List.mem_filterMap.2 ⟨i, hi, by rw [hname]; rfl⟩
    obtain ⟨b, hb, hiff⟩ :=
      v.exists_first_reports_iff v.filter_duplicateImport (nodup_spans_bindings h) file hmem
    have hentry := x.span_import?_ofSuite st hpaths name
    rw [hb, Option.map_some, ← hsymbols] at hentry
    obtain ⟨s, hs, hspan⟩ := Option.map_eq_some_iff.1 hentry
    refine ⟨s, hs, ?_⟩
    rw [hspan]
    exact hiff.trans (not_congr Option.some_inj.symm)
  case tests =>
    intro t ht
    obtain ⟨s, hs, hiff⟩ :=
      v.exists_first_reports_iff v.filter_duplicateTest (nodup_spans_tests h) file ht
    rw [hsymbols, x.test?_ofSuite st hnamed]
    exact ⟨s, hs, hiff⟩
  case findQuery =>
    intro name
    rw [hsymbols, x.query?_ofSuite st hqueries, Option.map_map]
    rfl
  case findImport =>
    intro name
    rw [hsymbols, x.span_import?_ofSuite st hpaths, Suite.import?_eq_find?_bindings,
      Option.map_map]
    rfl

/-- A document with an import and two tests at one path. -/
theorem Validator.repeats_agree_tests :
    ∃ suite, (parse .strict
        "import a \"x\"\nq\x7btest t\x7b\x7dtest t\x7b\x7d\x7d").suite = some suite ∧
      suite.imports.map (·.path) = ["x"] ∧
      suite.tests.map (fun t => (t.groups, t.name)) = [([], "t"), ([], "t")] ∧
      RepeatsAgree ⟨suite, ((({} : Extractor Unit).ofSuite suite).run ()).1, false⟩ "" := by
  have hrun : (parse .strict "import a \"x\"\nq\x7btest t\x7b\x7dtest t\x7b\x7d\x7d").suite.map
      (fun suite => (suite.imports.map (·.path), suite.tests.map fun t => (t.groups, t.name))) =
        some (["x"], [([], "t"), ([], "t")]) := by cbv
  obtain ⟨suite, hsuite, hparts⟩ := Option.map_eq_some_iff.1 hrun
  obtain ⟨hpaths, htests⟩ := Prod.mk.inj hparts
  refine ⟨suite, hsuite, hpaths, htests, repeats_agree _ {} () hsuite rfl ?_ ?_ ""⟩
  · intro i hi
    have hmem : i.path ∈ suite.imports.map (·.path) := List.mem_map_of_mem hi
    rw [hpaths, List.mem_singleton] at hmem
    rw [hmem]
    decide
  · intro t ht
    have hmem : (t.groups, t.name) ∈ suite.tests.map fun t => (t.groups, t.name) :=
      List.mem_map_of_mem ht
    rw [htests] at hmem
    simp only [List.mem_cons, List.not_mem_nil, or_false, or_self, Prod.mk.injEq] at hmem
    rw [hmem.1, hmem.2]
    decide

end QuerySuite
