import Mathlib
import QuerySuite.Proofs.DuplicateDefinitions
import QuerySuite.Proofs.ExprTokens
import QuerySuite.Proofs.JoinedTexts

/-!
# Paths of tests

A test is known by its path: the scope, the groups and the name with slashes between them. Names
are texts and may hold slashes, so a path does not tell where one name ends and the next begins. It
tells the scope, which is a word, and the steps that the names consist of: tests in one scope with
different names have one path if their steps are the same. Where this happens the table has one of
them, and validation tells of the other.

Results:

* `TestSymbol.path_eq_iff`: which tests have one path.
* `Validator.paths_tell_apart_iff`: when the table and validation know tests by their names.
* `test_path_of_two`: two tests with different names and one path.
-/

namespace QuerySuite

/-! ## Tests with one path -/

namespace TestSymbol

/-- The scope, the groups and the name of a test. -/
def names (s : TestSymbol) : String × List String × String := (s.scope, s.groups, s.name)

/-- The pieces of the names of the groups and of the test, cut at slashes. -/
def steps (s : TestSymbol) : List (List Char) :=
  (s.groups ++ [s.name]).flatMap fun name => name.toList.splitOn '/'

variable {s t : TestSymbol}

theorem path_eq_of_names_eq (h : s.names = t.names) : s.path = t.path := by
  obtain ⟨hscope, hgroups, hname⟩ : s.scope = t.scope ∧ s.groups = t.groups ∧ s.name = t.name := by
    simpa [names] using h
  rw [path, path, hscope, hgroups, hname]

/-- Tests in scopes without slashes have one path exactly if they are in one scope and their steps
are the same. -/
theorem path_eq_iff (hs : '/' ∉ s.scope.toList) (ht : '/' ∉ t.scope.toList) :
    s.path = t.path ↔ s.scope = t.scope ∧ s.steps = t.steps := by
  have hpieces (u : TestSymbol) (hu : '/' ∉ u.scope.toList) :
      ((u.scope :: u.groups ++ [u.name]).map String.toList).flatMap (List.splitOn '/') =
        u.scope.toList :: u.steps := by
    rw [List.flatMap_map, List.cons_append, List.flatMap_cons, List.splitOn_eq_singleton hu]
    rfl
  rw [← String.toList_inj, path, path, String.toList_intercalate, String.toList_intercalate]
  change ['/'].intercalate _ = ['/'].intercalate _ ↔ _
  rw [Text.intercalate_eq_intercalate_iff '/' (by simp) (by simp), hpieces s hs, hpieces t ht,
    List.cons.injEq, String.toList_inj]

/-- The steps of names without slashes are the names. -/
theorem steps_of_not_mem (h : ∀ name ∈ s.groups ++ [s.name], '/' ∉ name.toList) :
    s.steps = (s.groups ++ [s.name]).map String.toList := by
  rw [steps, List.map_eq_flatMap]
  exact List.flatMap_congr fun name hname => List.splitOn_eq_singleton (h name hname)

theorem names_eq_of_path_eq (hs : '/' ∉ s.scope.toList) (ht : '/' ∉ t.scope.toList)
    (hs' : ∀ name ∈ s.groups ++ [s.name], '/' ∉ name.toList)
    (ht' : ∀ name ∈ t.groups ++ [t.name], '/' ∉ name.toList) (h : s.path = t.path) :
    s.names = t.names := by
  obtain ⟨hscope, hsteps⟩ := (path_eq_iff hs ht).1 h
  rw [steps_of_not_mem hs', steps_of_not_mem ht'] at hsteps
  have hall : s.groups ++ [s.name] = t.groups ++ [t.name] :=
    List.map_injective_iff.2 (fun _ _ => String.toList_inj.1) hsteps
  obtain ⟨hgroups, hname⟩ := List.append_inj' hall rfl
  rw [names, names, hscope, hgroups, List.singleton_inj.1 hname]

end TestSymbol

/-! ## Scopes -/

/-- A name in a document holds no slash. -/
theorem Token.slash_not_mem_of_isName {source : String} {t : Token} (ht : t ∈ scan source)
    (hname : t.isName = true) : '/' ∉ t.text.toList := by
  have hkind : t.kind = .ident := by
    simp only [isName, Bool.and_eq_true, beq_iff_eq] at hname
    exact hname.1
  have hwritten : (ExprToken.ident t.text).Written :=
    written_of_mem_scan ht (by rw [exprToken?, hkind])
  generalize t.text = text at hwritten
  intro hslash
  cases hwritten with
  | @name c u hc hu _ =>
    rw [String.toList_ofList] at hslash
    rcases List.mem_cons.1 hslash with rfl | hslash
    · exact absurd hc (by decide)
    · exact absurd (hu '/' hslash) (by decide)
  | @parameter u hu =>
    rw [String.toList_ofList] at hslash
    rcases List.mem_cons.1 hslash with hslash | hslash
    · exact absurd hslash (by decide)
    · exact absurd (hu '/' hslash) (by decide)

/-- The scope of a test in a document holds no slash. -/
theorem slash_not_mem_scope {mode : Grammar.Mode} {source : String} {suite : Suite}
    (h : (parse mode source).suite = some suite) {t : TestSymbol} (ht : t ∈ suite.tests) :
    '/' ∉ t.scope.toList := by
  obtain ⟨c, hc, hscope⟩ := Suite.exists_scope_of_mem_tests ht
  rw [hscope]
  cases (Grammar.parse_traced h _ hc).resolve_left (by simp) with
  | skipped ctx p rest suffix blank => cases blank
  | read p rest used cursor suffix reads span rule =>
    obtain ⟨hname, hquery⟩ := rule
    rw [hquery]
    exact Token.slash_not_mem_of_isName
      (Grammar.Stream.mem_scan_of_mem_pieces (suffix.subset List.mem_cons_self)) hname

/-! ## Tables and validation -/

/-- If the firsts by path are the firsts by names, then a path tells the names. -/
theorem names_eq_of_firsts_eq {tests : List TestSymbol}
    (h : Symbol.firsts TestSymbol.path tests = Symbol.firsts TestSymbol.names tests)
    {s t : TestSymbol} (hs : s ∈ tests) (ht : t ∈ tests) (hpath : s.path = t.path) :
    s.names = t.names := by
  have hfirst {u : TestSymbol} (hu : u ∈ tests) :
      ∃ u' ∈ Symbol.firsts TestSymbol.path tests, u'.names = u.names := by
    rw [h]
    exact List.mem_map.1 ((Symbol.mem_map_firsts TestSymbol.names).2 (List.mem_map_of_mem hu))
  have hnodup : ((Symbol.firsts TestSymbol.path tests).map TestSymbol.path).Nodup := by
    rw [← Symbol.keepFirst_eq_firsts]
    exact Symbol.map_key_keepFirst_nodup _ _
  -- The first tests with the names of `s` and of `t` are first by path, so they are one test.
  obtain ⟨s', hs', hsnames⟩ := hfirst hs
  obtain ⟨t', ht', htnames⟩ := hfirst ht
  have hpath' : s'.path = t'.path := by
    rw [TestSymbol.path_eq_of_names_eq hsnames, hpath, TestSymbol.path_eq_of_names_eq htnames]
  rw [← hsnames, ← htnames, List.inj_on_of_nodup_map hnodup hs' ht' hpath']

/-- As many repetitions by path as by names means the same firsts. -/
theorem firsts_eq_of_length_repeats_eq {tests : List TestSymbol}
    (h : (Symbol.repeats TestSymbol.path tests).length =
      (Symbol.repeats TestSymbol.names tests).length) :
    Symbol.firsts TestSymbol.path tests = Symbol.firsts TestSymbol.names tests := by
  have hpath := Symbol.length_firsts_add_length_repeats TestSymbol.path tests
  have hnames := Symbol.length_firsts_add_length_repeats TestSymbol.names tests
  have hsub : (Symbol.firsts TestSymbol.path tests).Sublist
      (Symbol.firsts TestSymbol.names tests) :=
    Symbol.firsts_sublist fun s _ t _ => TestSymbol.path_eq_of_names_eq
  exact hsub.eq_of_length (by omega)

/-- In a suite that was read strictly and has names for its groups and tests, a path tells the scope
of a test and the steps of its names. Tests with different names have different paths exactly if the
table has one test for all that agree in their names, and exactly if validation tells of the tests
whose names stood before and of no others. It is so where no group and no test has a slash in its
name. -/
theorem Validator.paths_tell_apart_iff {σ : Type} (v : Validator) (x : Extractor σ) (st : σ)
    {source : String} (h : (parse .strict source).suite = some v.suite)
    (hsymbols : v.symbols = ((x.ofSuite v.suite).run st).1)
    (hnames : ∀ t ∈ v.suite.tests, (∀ g ∈ t.groups, g ≠ "") ∧ t.name ≠ "") (file : String) :
    (∀ s ∈ v.suite.tests, ∀ t ∈ v.suite.tests,
      s.path = t.path ↔ s.scope = t.scope ∧ s.steps = t.steps) ∧
    List.TFAE [
      ∀ s ∈ v.suite.tests, ∀ t ∈ v.suite.tests, s.names ≠ t.names → s.path ≠ t.path,
      v.symbols.tests = Symbol.firsts TestSymbol.names v.suite.tests,
      (v.diagnostics file).filter (·.code == "duplicate-test") =
        (Symbol.repeats TestSymbol.names v.suite.tests).map fun t =>
          Finding.diagnostic file ⟨.duplicateTest t.path, t.span⟩] ∧
    ((∀ t ∈ v.suite.tests, ∀ name ∈ t.groups ++ [t.name], '/' ∉ name.toList) →
      ∀ s ∈ v.suite.tests, ∀ t ∈ v.suite.tests, s.names ≠ t.names → s.path ≠ t.path) := by
  have hscope {t : TestSymbol} (ht : t ∈ v.suite.tests) := slash_not_mem_scope h ht
  have htests : v.symbols.tests = Symbol.firsts TestSymbol.path v.suite.tests := by
    rw [hsymbols]
    exact x.tests_ofSuite st fun t ht => ⟨scope_ne_empty_of_mem_tests h ht, hnames t ht⟩
  have htold : (v.diagnostics file).filter (·.code == "duplicate-test") =
      (Symbol.repeats TestSymbol.path v.suite.tests).map fun t =>
        Finding.diagnostic file ⟨.duplicateTest t.path, t.span⟩ := by
    rw [filter_code_diagnostics, filter_duplicateTest, List.map_map]
    rfl
  have hfiner : ∀ s ∈ v.suite.tests, ∀ t ∈ v.suite.tests, s.names = t.names → s.path = t.path :=
    fun s _ t _ => TestSymbol.path_eq_of_names_eq
  refine ⟨fun s hs t ht => TestSymbol.path_eq_iff (hscope hs) (hscope ht), ?_, ?_⟩
  · rw [htests, htold]
    tfae_have 1 → 2 := fun hapart => (Symbol.firsts_sublist hfiner).antisymm
      (Symbol.firsts_sublist fun s hs t ht => not_imp_not.1 (hapart s hs t ht))
    tfae_have 1 → 3 := fun hapart => congrArg (List.map _) <|
      (Symbol.repeats_sublist fun s hs t ht => not_imp_not.1 (hapart s hs t ht)).antisymm
        (Symbol.repeats_sublist hfiner)
    -- The diagnostics tell no names, but their number tells how many tests are first.
    tfae_have 3 → 2 := fun hsame => firsts_eq_of_length_repeats_eq <| by
      simpa using congrArg List.length hsame
    tfae_have 2 → 1 := fun hsame s hs t ht => mt (names_eq_of_firsts_eq hsame hs ht)
    tfae_finish
  · intro hslash s hs t ht
    exact mt (TestSymbol.names_eq_of_path_eq (hscope hs) (hscope ht) (hslash s hs) (hslash t ht))

/-- Two tests of one name, of which one stands in a group. -/
theorem Validator.paths_tell_apart_iff_group :
    ∃ suite, (parse .strict
        "q\x7btest b\x7b\x7dgroup a\x7btest b\x7b\x7d\x7d\x7d").suite = some suite ∧
      suite.tests.map TestSymbol.names = [("q", [], "b"), ("q", ["a"], "b")] ∧
      (∀ s ∈ suite.tests, ∀ t ∈ suite.tests, s.names ≠ t.names → s.path ≠ t.path) ∧
      ((({} : Extractor Unit).ofSuite suite).run ()).1.tests =
        Symbol.firsts TestSymbol.names suite.tests := by
  have hrun : (parse .strict "q\x7btest b\x7b\x7dgroup a\x7btest b\x7b\x7d\x7d\x7d").suite.map
      (·.tests.map TestSymbol.names) = some [("q", [], "b"), ("q", ["a"], "b")] := by cbv
  obtain ⟨suite, hsuite, htests⟩ := Option.map_eq_some_iff.1 hrun
  have hcases {t : TestSymbol} (ht : t ∈ suite.tests) :
      t.name = "b" ∧ (t.groups = [] ∨ t.groups = ["a"]) := by
    have hmem : t.names ∈ suite.tests.map TestSymbol.names := List.mem_map_of_mem ht
    simp only [htests, TestSymbol.names, List.mem_cons, Prod.mk.injEq, List.not_mem_nil,
      or_false] at hmem
    tauto
  obtain ⟨-, hiff, hapart⟩ := paths_tell_apart_iff
    ⟨suite, ((({} : Extractor Unit).ofSuite suite).run ()).1, false⟩ {} () hsuite rfl
    (fun t ht => by obtain ⟨hname, hgroups | hgroups⟩ := hcases ht <;> simp [hname, hgroups]) ""
  have happly := hapart fun t ht => by
    obtain ⟨hname, hgroups | hgroups⟩ := hcases ht <;> simp [hname, hgroups]
  exact ⟨suite, hsuite, htests, happly, (hiff.out 0 1).1 happly⟩

/-- A test with a slash in its name has the path of a test in a group. The two have different names,
and the table has one of them. -/
theorem test_path_of_two :
    ∃ suite, (parse .strict
        "q\x7btest \"a/b\"\x7b\x7dgroup a\x7btest b\x7b\x7d\x7d\x7d").suite = some suite ∧
      suite.tests.map TestSymbol.names = [("q", [], "a/b"), ("q", ["a"], "b")] ∧
      suite.tests.map TestSymbol.path = ["q/a/b", "q/a/b"] ∧
      ((({} : Extractor Unit).ofSuite suite).run ()).1.tests.map TestSymbol.names =
        [("q", [], "a/b")] := by
  have hrun : (parse .strict
      "q\x7btest \"a/b\"\x7b\x7dgroup a\x7btest b\x7b\x7d\x7d\x7d").suite.map
        (fun suite => (suite.tests.map TestSymbol.names, suite.tests.map TestSymbol.path,
          ((({} : Extractor Unit).ofSuite suite).run ()).1.tests.map TestSymbol.names)) =
      some ([("q", [], "a/b"), ("q", ["a"], "b")], ["q/a/b", "q/a/b"], [("q", [], "a/b")]) := by
    cbv
  obtain ⟨suite, hsuite, hparts⟩ := Option.map_eq_some_iff.1 hrun
  simp only [Prod.mk.injEq] at hparts
  exact ⟨suite, hsuite, hparts⟩

end QuerySuite
