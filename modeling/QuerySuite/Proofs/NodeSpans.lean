import Mathlib.Tactic.SplitIfs
import QuerySuite.Proofs.References
import QuerySuite.Symbol.BareText

/-!
# Findings and symbols stand at nodes

Validation and the extraction of symbols make up no places of their own: what they tell of a suite
stands where some node of it stands. Symbols that were found in bare text have no place.

Results:

* `Validator.span_mem_of_mem_findings`: what validation finds.
* `Extractor.spans_ofSuite`, `Extractor.spans_bestEffort`: the symbols of a suite and of a document.
-/

namespace QuerySuite

/-- The places of the elements of a tree. -/
def ElementTree.spans (t : ElementTree) : List Span := t.elements.map Element.span

namespace ElementTree

theorem span_mem_spans (e : Element) (branches : List ElementTree) :
    e.span ∈ (node e branches).spans := by
  rw [spans, elements_node]
  exact List.mem_cons_self

theorem mem_spans_of_branch {e : Element} {branches : List ElementTree} {span : Span}
    (h : span ∈ branches.flatMap spans) : span ∈ (node e branches).spans := by
  obtain ⟨t, ht, hspan⟩ := List.mem_flatMap.1 h
  obtain ⟨e', he', rfl⟩ := List.mem_map.1 hspan
  rw [spans, elements_node]
  exact List.mem_map_of_mem (List.mem_cons_of_mem e (List.mem_flatMap.2 ⟨t, ht, he'⟩))

end ElementTree

/-- The places of the elements of a suite are those of its nodes. -/
theorem Suite.spans_tree (s : Suite) : s.tree.spans = s.spans := by
  rw [spans, ← s.map_node_elements, List.map_map]
  rfl

/-! ## What validation finds -/

namespace Validator

variable (v : Validator)

theorem span_mem_of_mem_seen {t : ElementTree} {f : Finding} (h : f ∈ v.seen t) :
    f.span ∈ t.spans := by
  obtain ⟨e, he, hfinding⟩ := List.mem_filterMap.1 h
  obtain ⟨p, -, rfl⟩ := Option.map_eq_some_iff.1 hfinding
  exact List.mem_map_of_mem he

theorem span_mem_of_mem_setupFindings? {s : Option Setup} {f : Finding}
    (h : f ∈ v.setupFindings? s) :
    f.span ∈ (s.map Setup.tree).toList.flatMap ElementTree.spans := by
  rw [← v.seen_setup?] at h
  obtain ⟨t, ht, hf⟩ := List.mem_flatMap.1 h
  exact List.mem_flatMap.2 ⟨t, ht, v.span_mem_of_mem_seen hf⟩

/-- What is found in the setup of a body, or in its members. -/
theorem span_mem_bodyBranches {setup : Option Setup} {teardown : Option Teardown}
    {items : List Item} {f : Finding}
    (h : f ∈ v.setupFindings? setup ∨ f.span ∈ (items.map Item.tree).flatMap ElementTree.spans) :
    f.span ∈ (bodyBranches setup teardown items).flatMap ElementTree.spans := by
  rw [bodyBranches, List.flatMap_append, List.flatMap_append, List.mem_append, List.mem_append]
  rcases h with h | h
  · exact .inl (.inl (v.span_mem_of_mem_setupFindings? h))
  · exact .inr h

mutual

theorem span_mem_of_mem_itemFindings (scope : String) (groups : List String) (i : Item)
    (met : List String) {f : Finding}
    (h : f ∈ ((v.itemFindings scope groups i).run met).1) : f.span ∈ i.tree.spans := by
  cases i with
  | test t =>
    rw [Item.tree]
    have htest (hf : f ∈ v.testFindings t) : f.span ∈ t.tree.spans := by
      rw [← v.seen_test] at hf
      exact v.span_mem_of_mem_seen hf
    rw [itemFindings] at h
    have h' : f ∈ (ite _ _ _ : List Finding × List String).1 := h
    split_ifs at h'
    · rcases List.mem_cons.1 h' with rfl | hf
      · exact ElementTree.span_mem_spans (.test t) t.branches
      · exact htest hf
    · exact htest h'
  | group g items =>
    rw [itemFindings_group, List.mem_append] at h
    rw [Item.tree_group]
    refine ElementTree.mem_spans_of_branch (v.span_mem_bodyBranches (h.imp_right fun hf => ?_))
    exact span_mem_of_mem_itemListFindings scope _ items met hf

theorem span_mem_of_mem_itemListFindings (scope : String) (groups : List String)
    (items : List Item) (met : List String) {f : Finding}
    (h : f ∈ ((v.itemListFindings scope groups items).run met).1) :
    f.span ∈ (items.map Item.tree).flatMap ElementTree.spans := by
  cases items with
  | nil =>
    rw [itemListFindings] at h
    cases h
  | cons i items =>
    rw [itemListFindings_cons, List.mem_append] at h
    rw [List.map_cons, List.flatMap_cons, List.mem_append]
    refine h.imp (fun hf => ?_) fun hf => ?_
    · exact span_mem_of_mem_itemFindings scope groups i met hf
    · exact span_mem_of_mem_itemListFindings scope groups items _ hf

end

theorem span_mem_of_mem_scopeFindings (s : Scope) (met : List String) {f : Finding}
    (h : f ∈ ((v.scopeFindings s).run met).1) : f.span ∈ s.tree.spans := by
  have hsplit : ((v.scopeFindings s).run met).1 =
      (if (v.suite.query? s.query).isNone then [⟨.unknownQuery s.query, s.span⟩] else []) ++
        v.setupFindings? s.setup ++ ((v.itemListFindings s.query [] s.items).run met).1 := rfl
  rw [hsplit, List.mem_append, List.mem_append, or_assoc] at h
  rcases h with h | h
  · split_ifs at h
    · obtain rfl := List.mem_singleton.1 h
      exact ElementTree.span_mem_spans (.scope s) _
    · cases h
  · refine ElementTree.mem_spans_of_branch (v.span_mem_bodyBranches (h.imp_right fun hf => ?_))
    exact v.span_mem_of_mem_itemListFindings s.query [] s.items met hf

theorem span_mem_of_mem_scopes (scopes : List Scope) (met : List String) {f : Finding}
    (h : f ∈ ((scopes.mapM v.scopeFindings).run met).1.flatten) :
    f.span ∈ (scopes.map Scope.tree).flatMap ElementTree.spans := by
  induction scopes generalizing met with
  | nil => cases h
  | cons s scopes ih =>
    rw [mapM_scopeFindings_cons, List.flatten_cons, List.mem_append] at h
    rw [List.map_cons, List.flatMap_cons, List.mem_append]
    refine h.imp (fun hf => ?_) fun hf => ?_
    · exact v.span_mem_of_mem_scopeFindings s met hf
    · exact ih _ hf

theorem mem_of_mem_repeated {α : Type} {key : α → String} {seen : List String} {as : List α}
    {x : String × α} (h : x ∈ repeated key seen as) : x.2 ∈ as := by
  induction as generalizing seen with
  | nil => cases h
  | cons a as ih =>
    rw [repeated] at h
    split_ifs at h
    · rcases List.mem_cons.1 h with rfl | h
      · exact List.mem_cons_self
      · exact List.mem_cons_of_mem a (ih h)
    · exact List.mem_cons_of_mem a (ih h)

theorem exists_of_mem_importFindings {bound : List String} {imports : List Import} {f : Finding}
    (h : f ∈ v.importFindings bound imports) : ∃ i ∈ imports, f.span = i.span := by
  induction imports generalizing bound with
  | nil => cases h
  | cons i imports ih =>
    have hmore {bound : List String} (h : f ∈ v.importFindings bound imports) :
        ∃ j ∈ i :: imports, f.span = j.span := by
      obtain ⟨j, hj, hspan⟩ := ih h
      exact ⟨j, List.mem_cons_of_mem i hj, hspan⟩
    rw [importFindings] at h
    cases hname : i.name? with
    | none =>
      rw [hname] at h
      exact hmore h
    | some name =>
      rw [hname] at h
      rcases List.mem_append.1 h with h | h
      · refine ⟨i, List.mem_cons_self, ?_⟩
        have hfinding := Option.mem_toList.1 h
        unfold importFinding? at hfinding
        split_ifs at hfinding <;> cases hfinding <;> rfl
      · exact hmore h

/-- What validation finds stands at a node of the suite. -/
theorem span_mem_of_mem_findings {f : Finding} (h : f ∈ v.findings) :
    f.span ∈ v.suite.spans := by
  rw [← v.suite.spans_tree]
  refine ElementTree.mem_spans_of_branch ?_
  simp only [Suite.branches, List.flatMap_append, List.mem_append]
  simp only [findings, List.mem_append] at h
  rcases h with ((h | h) | h) | h
  · obtain ⟨x, hx, rfl⟩ := List.mem_map.1 h
    refine .inl (.inl (.inl (.inr (List.mem_flatMap.2 ⟨_, List.mem_map_of_mem
      (mem_of_mem_repeated hx), ?_⟩))))
    exact ElementTree.span_mem_spans (.query x.2) []
  · obtain ⟨i, hi, hspan⟩ := v.exists_of_mem_importFindings h
    refine .inl (.inl (.inl (.inl (List.mem_flatMap.2 ⟨_, List.mem_map_of_mem hi, ?_⟩))))
    rw [hspan]
    exact ElementTree.span_mem_spans (.importClause i) []
  · exact .inl (.inl (.inr (v.span_mem_of_mem_setupFindings? h)))
  · exact .inr (v.span_mem_of_mem_scopes _ _ h)

end Validator

/-! ## Symbols -/

/-- The places of the symbols that have one. -/
def SymbolTable.spans (t : SymbolTable) : List Span :=
  t.imports.filterMap (·.span) ++ t.queries.filterMap (·.span) ++ t.tests.map (·.span)

theorem Symbol.mem_of_mem_foldl {α : Type} {key : α → String} {symbols start : List α} {s : α}
    (h : s ∈ symbols.foldl (fun kept s => (insertNew key kept s).2) start) :
    s ∈ start ∨ s ∈ symbols := by
  induction symbols generalizing start with
  | nil => exact .inl h
  | cons t symbols ih =>
    rcases ih h with h | h
    · dsimp only [insertNew] at h
      split_ifs at h
      · exact .inl h
      · rw [List.mem_append, List.mem_singleton] at h
        rcases h with h | rfl
        · exact .inl h
        · exact .inr List.mem_cons_self
    · exact .inr (List.mem_cons_of_mem t h)

theorem Symbol.mem_of_mem_keepFirst {α : Type} {key : α → String} {symbols : List α} {s : α}
    (h : s ∈ keepFirst key symbols) : s ∈ symbols :=
  (mem_of_mem_foldl h).resolve_left List.not_mem_nil

mutual

theorem Item.span_mem_of_mem_testSymbols (scope : String) (groups : List String) (i : Item)
    {s : TestSymbol} (h : s ∈ i.testSymbols scope groups) : s.span ∈ i.tree.spans := by
  cases i with
  | test t =>
    rw [testSymbols] at h
    split_ifs at h
    · cases h
    · obtain rfl := List.mem_singleton.1 h
      rw [tree]
      exact ElementTree.span_mem_spans (.test t) t.branches
  | group g items =>
    rw [testSymbols] at h
    split_ifs at h
    · cases h
    · have hitems := span_mem_of_mem_testSymbolsOfList scope _ items h
      rw [tree_group]
      refine ElementTree.mem_spans_of_branch ?_
      rw [bodyBranches, List.flatMap_append]
      exact List.mem_append_right _ hitems

theorem Item.span_mem_of_mem_testSymbolsOfList (scope : String) (groups : List String)
    (items : List Item) {s : TestSymbol} (h : s ∈ testSymbolsOfList scope groups items) :
    s.span ∈ (items.map tree).flatMap ElementTree.spans := by
  cases items with
  | nil =>
    rw [testSymbolsOfList] at h
    cases h
  | cons i items =>
    rw [testSymbolsOfList, List.mem_append] at h
    rw [List.map_cons, List.flatMap_cons, List.mem_append]
    refine h.imp (fun hs => ?_) fun hs => ?_
    · exact span_mem_of_mem_testSymbols scope groups i hs
    · exact span_mem_of_mem_testSymbolsOfList scope groups items hs

end

theorem Suite.span_mem_of_mem_testSymbols (suite : Suite) {s : TestSymbol}
    (h : s ∈ suite.testSymbols) : s.span ∈ suite.spans := by
  obtain ⟨c, hc, hs⟩ := List.mem_flatMap.1 h
  rw [← suite.spans_tree]
  refine ElementTree.mem_spans_of_branch ?_
  rw [branches, List.flatMap_append]
  refine List.mem_append_right _ (List.mem_flatMap.2 ⟨c.tree,
    List.mem_map_of_mem (List.mem_filter.1 hc).1, ElementTree.mem_spans_of_branch ?_⟩)
  rw [bodyBranches, List.flatMap_append]
  exact List.mem_append_right _ (Item.span_mem_of_mem_testSymbolsOfList c.query [] c.items hs)

namespace Extractor

variable {σ : Type} (x : Extractor σ)

/-- Loading a module leaves the place of its import as it is. -/
theorem span_loadImport (s : ImportSymbol) (st : σ) :
    ((x.loadImport s).run st).1.span = s.span := by
  unfold loadImport
  cases x.resolver with
  | none => rfl
  | some resolver =>
    simp only [StateT.run_bind]
    dsimp only [bind]
    split <;> rfl

theorem exists_of_importSymbol? {i : Import} {st : σ} {s : ImportSymbol}
    (h : ((x.importSymbol? i).run st).1 = some s) : s.span = some i.span := by
  unfold importSymbol? at h
  split_ifs at h
  · cases h
  · cases hname : i.name? with
    | none =>
      rw [hname] at h
      cases h
    | some name =>
      rw [hname] at h
      obtain rfl := Option.some.inj h
      exact x.span_loadImport _ st

theorem exists_of_mem_importSymbols {imports : List Import} {st : σ} {s : ImportSymbol}
    (h : s ∈ ((x.importSymbols imports).run st).1) : ∃ i ∈ imports, s.span = some i.span := by
  induction imports generalizing st with
  | nil => cases h
  | cons i imports ih =>
    have hsplit : ((x.importSymbols (i :: imports)).run st).1 =
        (((x.importSymbol? i).run st).1 ::
          ((imports.mapM x.importSymbol?).run ((x.importSymbol? i).run st).2).1).filterMap id := by
      rw [importSymbols, List.mapM_cons]
      rfl
    rw [hsplit, List.mem_filterMap] at h
    obtain ⟨o, ho, rfl⟩ := h
    rcases List.mem_cons.1 ho with ho | ho
    · exact ⟨i, List.mem_cons_self, x.exists_of_importSymbol? ho.symm⟩
    · obtain ⟨j, hj, hspan⟩ := ih (List.mem_filterMap.2 ⟨_, ho, rfl⟩)
      exact ⟨j, List.mem_cons_of_mem i hj, hspan⟩

/-- The symbols of a suite stand at its nodes. -/
theorem spans_ofSuite (suite : Suite) (st : σ) :
    ((x.ofSuite suite).run st).1.spans ⊆ suite.spans := by
  intro span h
  have hspans : ((x.ofSuite suite).run st).1.spans =
      (Symbol.keepFirst (·.name) ((x.importSymbols suite.imports).run st).1).filterMap (·.span) ++
      (Symbol.keepFirst (·.name) (x.querySymbols suite.queries)).filterMap (·.span) ++
      (Symbol.keepFirst (·.path) suite.testSymbols).map (·.span) := rfl
  rw [hspans, List.mem_append, List.mem_append] at h
  rcases h with (h | h) | h
  · obtain ⟨s, hs, hspan⟩ := List.mem_filterMap.1 h
    obtain ⟨i, hi, hi'⟩ := x.exists_of_mem_importSymbols (Symbol.mem_of_mem_keepFirst hs)
    obtain rfl := Option.some.inj (hspan.symm.trans hi')
    rw [← suite.spans_tree]
    refine ElementTree.mem_spans_of_branch (List.mem_flatMap.2 ⟨.node (.importClause i) [], ?_,
      ElementTree.span_mem_spans (.importClause i) []⟩)
    simp only [Suite.branches, List.mem_append]
    exact .inl (.inl (.inl (.inl (List.mem_map_of_mem hi))))
  · obtain ⟨s, hs, hspan⟩ := List.mem_filterMap.1 h
    obtain ⟨q, hq, rfl⟩ := List.mem_map.1 (Symbol.mem_of_mem_keepFirst hs)
    obtain rfl := Option.some.inj hspan
    rw [← suite.spans_tree]
    refine ElementTree.mem_spans_of_branch (List.mem_flatMap.2 ⟨.node (.query q) [], ?_,
      ElementTree.span_mem_spans (.query q) []⟩)
    simp only [Suite.branches, List.mem_append]
    exact .inl (.inl (.inl (.inr (List.mem_map_of_mem (List.mem_filter.1 hq).1))))
  · obtain ⟨s, hs, rfl⟩ := List.mem_map.1 h
    exact suite.span_mem_of_mem_testSymbols (Symbol.mem_of_mem_keepFirst hs)

/-- The symbols that are found in bare text have no place. -/
theorem spans_ofText (source : String) (st : σ) : ((x.ofText source).run st).1.spans = [] := by
  have himports : ∀ s ∈ ((x.ofText source).run st).1.imports, s.span = none := by
    intro s hs
    obtain ⟨s, -, rfl⟩ := List.mem_map.1 hs
    rfl
  have hqueries : ∀ s ∈ ((x.ofText source).run st).1.queries, s.span = none := by
    intro s hs
    obtain ⟨found, -, rfl⟩ := List.mem_map.1 (Symbol.mem_of_mem_keepFirst hs)
    rfl
  have htests : ((x.ofText source).run st).1.tests = [] := rfl
  rw [SymbolTable.spans, List.filterMap_eq_nil_iff.2 himports, List.filterMap_eq_nil_iff.2 hqueries,
    htests]
  rfl

/-- The symbols of a document that have a place stand at the nodes of its tree. -/
theorem spans_bestEffort {strict recovered : Option Suite} {source : String} {st : σ} {span : Span}
    (h : span ∈ ((x.bestEffort strict recovered source).run st).1.spans) :
    ∃ suite, (strict <|> recovered) = some suite ∧ span ∈ suite.spans := by
  unfold bestEffort at h
  cases hsuite : (strict <|> recovered) with
  | none =>
    rw [hsuite] at h
    have h' : span ∈ ((x.ofText source).run st).1.spans := h
    rw [x.spans_ofText] at h'
    cases h'
  | some suite =>
    rw [hsuite] at h
    exact ⟨suite, rfl, x.spans_ofSuite suite st h⟩

end Extractor

end QuerySuite
