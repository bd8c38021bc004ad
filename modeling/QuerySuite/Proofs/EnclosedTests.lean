import Mathlib.Tactic.SplitIfs
import QuerySuite.Proofs.Ways
import QuerySuite.Symbol.Extract

/-!
# Tests and what is around them

A test stands in a scope and in any number of groups. They are the elements on the way down to it,
so they can be read off the tree of the suite without regard to how the tree is gone through. The
symbols of tests are made on a way of their own: the names of the groups are handed down, and what
has no name is passed over with all that it holds. Both ways give the same tests in the same order.

Results:

* `ElementTree.map_around_places`: the elements around each element, by recursion on the tree.
* `Suite.tests_eq_flatMap`: the tests of a suite, by recursion on the members of its scopes.
* `Suite.testSymbols_eq_filter`: the symbols are those of the tests that are named throughout.
-/

namespace QuerySuite

/-! ## Elements around an element -/

namespace ElementTree

instance (y z : List Nat × Element) : Decidable (Leads y z) :=
  inferInstanceAs (Decidable (y.1 <+: z.1 ∧ y.1 ≠ z.1))

/-- The elements of the given places that are on the way to `z`. -/
def onWay (places : List (List Nat × Element)) (z : List Nat × Element) : List Element :=
  (places.filter (Leads · z)).map (·.2)

/-- The elements around the one at a place, the outermost first. -/
def around (t : ElementTree) (z : List Nat × Element) : List Element := onWay t.places z

mutual

/-- The elements of a tree, each behind the elements around it. -/
def situated : ElementTree → List (List Element × Element)
  | node e branches => ([], e) :: (situatedOfList branches).map fun x => (e :: x.1, x.2)

/-- The elements of a list of trees, each behind the elements around it. -/
def situatedOfList : List ElementTree → List (List Element × Element)
  | [] => []
  | t :: trees => t.situated ++ situatedOfList trees

end

theorem onWay_append (places more : List (List Nat × Element)) (z : List Nat × Element) :
    onWay (places ++ more) z = onWay places z ++ onWay more z := by
  rw [onWay, List.filter_append, List.map_append, onWay, onWay]

theorem onWay_eq_nil {places : List (List Nat × Element)} {z : List Nat × Element}
    (h : ∀ y ∈ places, ¬Leads y z) : onWay places z = [] := by
  rw [onWay, List.filter_eq_nil_iff.2, List.map_nil]
  simpa using h

theorem exists_cons_of_mem_placesFrom {i : Nat} {trees : List ElementTree}
    {y : List Nat × Element} (h : y ∈ placesFrom i trees) : ∃ j way, y.1 = j :: way ∧ i ≤ j := by
  induction trees generalizing i with
  | nil => simp [placesFrom] at h
  | cons t trees ih =>
    rw [placesFrom] at h
    rcases List.mem_append.1 h with h | h
    · obtain ⟨x, -, rfl⟩ := List.mem_map.1 h
      exact ⟨i, x.1, rfl, Nat.le_refl i⟩
    · obtain ⟨j, way, hway, hle⟩ := ih h
      exact ⟨j, way, hway, by omega⟩

/-- The ways into the first part do not lead to the parts behind it, nor the other way round. -/
theorem not_leads_of_cons {i : Nat} {trees : List ElementTree} {y : List Nat × Element}
    (h : y ∈ placesFrom (i + 1) trees) (x : List Nat × Element) :
    ¬Leads (i :: x.1, x.2) y ∧ ¬Leads y (i :: x.1, x.2) := by
  obtain ⟨j, way, hway, hlt⟩ := exists_cons_of_mem_placesFrom h
  unfold Leads
  dsimp only
  rw [hway, List.cons_prefix_cons, List.cons_prefix_cons]
  omega

/-- In a part, the elements on the way are those on the way within the part. -/
theorem onWay_map_cons (i : Nat) (places : List (List Nat × Element)) (z : List Nat × Element) :
    onWay (places.map fun x => (i :: x.1, x.2)) (i :: z.1, z.2) = onWay places z := by
  have hleads (x : List Nat × Element) : Leads (i :: x.1, x.2) (i :: z.1, z.2) ↔ Leads x z := by
    simp [Leads, List.cons_prefix_cons]
  rw [onWay, List.filter_map, List.map_map, onWay]
  simp only [Function.comp_def, hleads]

mutual

/-- What is around each element, by recursion on the tree. -/
theorem map_around_places (t : ElementTree) :
    t.places.map (fun y => (t.around y, y.2)) = t.situated := by
  cases t with
  | node e branches =>
    have hroot (z : List Nat × Element) : Leads ([], e) z ↔ z.1 ≠ [] := by
      simp [Leads, eq_comm]
    have hfirst : (node e branches).around ([], e) = [] := by
      refine onWay_eq_nil fun y _ hleads => hleads.2 ?_
      exact List.prefix_nil.1 hleads.1
    have hbelow : (placesFrom 0 branches).map (fun y => ((node e branches).around y, y.2)) =
        ((placesFrom 0 branches).map fun y => (onWay (placesFrom 0 branches) y, y.2)).map
          fun x => (e :: x.1, x.2) := by
      rw [List.map_map]
      refine List.map_congr_left fun y hy => ?_
      have hleads := (hroot y).2 (ne_nil_of_mem_placesFrom hy)
      rw [around, places, onWay, List.filter_cons_of_pos (by simpa using hleads)]
      rfl
    rw [situated, ← map_onWay_placesFrom 0 branches, ← hbelow, ← hfirst, places, List.map_cons]

theorem map_onWay_placesFrom (i : Nat) (trees : List ElementTree) :
    (placesFrom i trees).map (fun y => (onWay (placesFrom i trees) y, y.2)) =
      situatedOfList trees := by
  cases trees with
  | nil => rfl
  | cons t trees =>
    rw [placesFrom, List.map_append, situatedOfList, ← map_around_places t,
      ← map_onWay_placesFrom (i + 1) trees, List.map_map]
    refine congrArg₂ (· ++ ·) (List.map_congr_left fun x _ => ?_)
      (List.map_congr_left fun y hy => ?_)
    · have hbehind : onWay (placesFrom (i + 1) trees) (i :: x.1, x.2) = [] :=
        onWay_eq_nil fun y hy => (not_leads_of_cons hy x).2
      dsimp only [Function.comp_apply]
      rw [onWay_append, hbehind, List.append_nil, onWay_map_cons, around]
    · have hfront : onWay (t.places.map fun x => (i :: x.1, x.2)) y = [] := by
        refine onWay_eq_nil fun z hz => ?_
        obtain ⟨x, -, rfl⟩ := List.mem_map.1 hz
        exact (not_leads_of_cons hy x).1
      rw [onWay_append, hfront, List.nil_append]

end

theorem situatedOfList_append (trees more : List ElementTree) :
    situatedOfList (trees ++ more) = situatedOfList trees ++ situatedOfList more := by
  induction trees with
  | nil => rfl
  | cons t trees ih =>
    rw [List.cons_append, situatedOfList, situatedOfList, ih, List.append_assoc]

mutual

theorem mem_elements_of_mem_situated (t : ElementTree) {x : List Element × Element}
    (h : x ∈ t.situated) : x.2 ∈ t.elements := by
  cases t with
  | node e branches =>
    rw [situated] at h
    rw [elements]
    rcases List.mem_cons.1 h with rfl | h
    · exact List.mem_cons_self
    · obtain ⟨y, hy, rfl⟩ := List.mem_map.1 h
      exact List.mem_cons_of_mem e (mem_elements_of_mem_situatedOfList branches (x := y) hy)

theorem mem_elements_of_mem_situatedOfList (trees : List ElementTree)
    {x : List Element × Element} (h : x ∈ situatedOfList trees) :
    x.2 ∈ elementsOfList trees := by
  cases trees with
  | nil => cases h
  | cons t trees =>
    rw [situatedOfList] at h
    rw [elementsOfList]
    refine List.mem_append.2 ((List.mem_append.1 h).imp (fun h => ?_) fun h => ?_)
    · exact mem_elements_of_mem_situated t h
    · exact mem_elements_of_mem_situatedOfList trees h

end

end ElementTree

/-! ## The tests of a suite -/

namespace Element

/-- The query that a scope is for. -/
def scopeName? : Element → Option String
  | scope s => some s.query
  | _ => none

/-- The name of a group. -/
def groupName? : Element → Option String
  | group g _ => some g.name
  | _ => none

/-- A test with the names of the scope and of the groups around it. -/
def testIn? (around : List Element) : Element → Option TestSymbol
  | test t => (around.findSome? scopeName?).map fun scope =>
      ⟨scope, around.filterMap groupName?, t.name, t.span⟩
  | _ => none

end Element

/-- Every test of a suite in the order of the walk, with the names of what is around it. -/
def Suite.tests (s : Suite) : List TestSymbol :=
  s.tree.places.filterMap fun y => y.2.testIn? (s.tree.around y)

/-- The test, its scope and all its groups have names. -/
def TestSymbol.IsNamed (s : TestSymbol) : Prop :=
  s.scope ≠ "" ∧ (∀ g ∈ s.groups, g ≠ "") ∧ s.name ≠ ""

instance (s : TestSymbol) : Decidable s.IsNamed :=
  inferInstanceAs (Decidable (_ ∧ _ ∧ _))

mutual

/-- The tests of a member of a scope, or of the innermost of some groups. -/
def Item.tests (scope : String) (groups : List String) : Item → List TestSymbol
  | test t => [⟨scope, groups, t.name, t.span⟩]
  | group g items => testsOfList scope (groups ++ [g.name]) items

/-- The tests of a list of members. -/
def Item.testsOfList (scope : String) (groups : List String) : List Item → List TestSymbol
  | [] => []
  | i :: items => i.tests scope groups ++ testsOfList scope groups items

end

/-- The tests among elements that stand within `outer`. -/
def testsWithin (outer : List Element) (xs : List (List Element × Element)) : List TestSymbol :=
  xs.filterMap fun x => x.2.testIn? (outer ++ x.1)

theorem testsWithin_append (outer : List Element) (xs ys : List (List Element × Element)) :
    testsWithin outer (xs ++ ys) = testsWithin outer xs ++ testsWithin outer ys :=
  List.filterMap_append

/-- The tests within an element are those within what is around it and itself. -/
theorem testsWithin_node (outer : List Element) (e : Element) (branches : List ElementTree) :
    testsWithin outer (ElementTree.node e branches).situated =
      (e.testIn? outer).toList ++
        testsWithin (outer ++ [e]) (ElementTree.situatedOfList branches) := by
  rw [ElementTree.situated, testsWithin, List.filterMap_cons, List.filterMap_map, List.append_nil]
  have hbelow : ((fun x : List Element × Element => x.2.testIn? (outer ++ x.1)) ∘
      fun x : List Element × Element => (e :: x.1, x.2)) =
      fun x => x.2.testIn? (outer ++ [e] ++ x.1) := by
    funext x
    rw [Function.comp_apply, List.append_assoc, List.singleton_append]
  rw [hbelow]
  cases e.testIn? outer <;> rfl

/-- There is no test among the elements of the trees. -/
def NoTests (trees : List ElementTree) : Prop :=
  ∀ t ∈ trees, ∀ e ∈ t.elements, ∀ u, e ≠ .test u

theorem NoTests.append {trees more : List ElementTree} (h : NoTests trees) (h' : NoTests more) :
    NoTests (trees ++ more) :=
  List.forall_mem_append.2 ⟨h, h'⟩

theorem NoTests.node {e : Element} {branches : List ElementTree} (he : ∀ u, e ≠ .test u)
    (h : NoTests branches) : NoTests [.node e branches] := by
  refine List.forall_mem_singleton.2 ?_
  rw [ElementTree.elements_node]
  refine List.forall_mem_cons.2 ⟨he, fun e' he' => ?_⟩
  obtain ⟨t, ht, he'⟩ := List.mem_flatMap.1 he'
  exact h t ht e' he'

theorem NoTests.map {α : Type} {tree : α → ElementTree} (h : ∀ a, NoTests [tree a])
    (as : List α) : NoTests (as.map tree) := by
  intro t ht
  obtain ⟨a, -, rfl⟩ := List.mem_map.1 ht
  exact h a (tree a) List.mem_cons_self

theorem NoTests.option {α : Type} {tree : α → ElementTree} (h : ∀ a, NoTests [tree a])
    (o : Option α) : NoTests (o.map tree).toList := by
  rw [Option.toList_map]
  exact .map h _

theorem testsWithin_of_noTests {trees : List ElementTree} (h : NoTests trees)
    (outer : List Element) : testsWithin outer (ElementTree.situatedOfList trees) = [] := by
  rw [testsWithin, List.filterMap_eq_nil_iff]
  intro x hx
  have hmem := ElementTree.mem_elements_of_mem_situatedOfList trees hx
  rw [ElementTree.elementsOfList_eq_flatMap] at hmem
  obtain ⟨t, ht, he⟩ := List.mem_flatMap.1 hmem
  rcases x with ⟨around, e⟩
  cases e with
  | test u => exact absurd rfl (h t ht _ he u)
  | _ => rfl

/-! ## Parts without tests -/

theorem Call.noTests (c : Call) : NoTests [c.tree] :=
  .node (by simp) (List.forall_mem_nil _)

theorem SetupItem.noTests (i : SetupItem) : NoTests [i.tree] := by
  refine .node (by simp) ?_
  rcases i.task with _ | _ | c
  · exact List.forall_mem_nil _
  · exact List.forall_mem_nil _
  · exact c.noTests

theorem Setup.noTests (s : Setup) : NoTests [s.tree] := by
  refine .node (by simp) ?_
  rcases s.body with _ | _ | _ | c | items
  · exact List.forall_mem_nil _
  · exact List.forall_mem_nil _
  · exact List.forall_mem_nil _
  · exact c.noTests
  · exact .map SetupItem.noTests items

theorem Teardown.noTests (t : Teardown) : NoTests [t.tree] :=
  .node (by simp) (List.forall_mem_nil _)

theorem Value.noTests (v : Value) : NoTests [v.tree] := by
  refine List.forall_mem_singleton.2 fun e he u => ?_
  obtain ⟨w, rfl⟩ := v.forall_mem_elements e he
  simp

theorem Statement.noTests (s : Statement) : NoTests [s.tree] :=
  .node (by simp) (.option Value.noTests s.value)

theorem Assertion.noTests (a : Assertion) : NoTests [a.tree] := by
  refine .node (by simp) (.append ?_ (.map (fun e => ?_) a.exprs))
  · rcases a.query with _ | _ | c
    · exact List.forall_mem_nil _
    · exact List.forall_mem_nil _
    · exact c.noTests
  · exact .node (by simp) (List.forall_mem_nil _)

theorem Test.noTests_branches (t : Test) : NoTests t.branches :=
  ((NoTests.option Setup.noTests t.setup).append (.map Statement.noTests t.statements)).append
    (.map Assertion.noTests t.asserts)

/-! ## Members, scopes and suites -/

/-- The tests of the parts of a scope or a group are those of its members. -/
theorem testsWithin_bodyBranches (outer : List Element) (setup : Option Setup)
    (teardown : Option Teardown) (items : List Item) :
    testsWithin outer (ElementTree.situatedOfList (bodyBranches setup teardown items)) =
      testsWithin outer (ElementTree.situatedOfList (items.map Item.tree)) := by
  rw [bodyBranches, ElementTree.situatedOfList_append, testsWithin_append, testsWithin_of_noTests
    ((NoTests.option Setup.noTests setup).append (.option Teardown.noTests teardown)),
    List.nil_append]

mutual

theorem Item.testsWithin_situated {outer : List Element} {scope : String} {groups : List String}
    (hscope : outer.findSome? Element.scopeName? = some scope)
    (hgroups : outer.filterMap Element.groupName? = groups) (i : Item) :
    testsWithin outer i.tree.situated = i.tests scope groups := by
  cases i with
  | test t =>
    rw [tree, Test.tree, testsWithin_node, testsWithin_of_noTests t.noTests_branches,
      List.append_nil, tests, Element.testIn?, hscope, hgroups]
    rfl
  | group g items =>
    rw [tree_group, testsWithin_node, testsWithin_bodyBranches, tests]
    refine testsWithin_situatedOfList ?_ ?_ items
    · rw [List.findSome?_append, hscope]
      rfl
    · rw [List.filterMap_append, hgroups]
      rfl

theorem Item.testsWithin_situatedOfList {outer : List Element} {scope : String}
    {groups : List String} (hscope : outer.findSome? Element.scopeName? = some scope)
    (hgroups : outer.filterMap Element.groupName? = groups) (items : List Item) :
    testsWithin outer (ElementTree.situatedOfList (items.map tree)) =
      testsOfList scope groups items := by
  cases items with
  | nil => rfl
  | cons i items =>
    rw [List.map_cons, ElementTree.situatedOfList, testsWithin_append,
      testsWithin_situated hscope hgroups i, testsWithin_situatedOfList hscope hgroups items,
      testsOfList]

end

theorem Scope.testsWithin_situated {outer : List Element}
    (hscope : outer.findSome? Element.scopeName? = none)
    (hgroups : outer.filterMap Element.groupName? = []) (c : Scope) :
    testsWithin outer c.tree.situated = Item.testsOfList c.query [] c.items := by
  rw [tree, testsWithin_node, testsWithin_bodyBranches]
  refine Item.testsWithin_situatedOfList ?_ ?_ c.items
  · rw [List.findSome?_append, hscope]
    rfl
  · rw [List.filterMap_append, hgroups]
    rfl

/-- The tests of a suite are those of the members of its scopes. -/
theorem Suite.tests_eq_flatMap (s : Suite) :
    s.tests = s.scopes.flatMap fun c => Item.testsOfList c.query [] c.items := by
  have hsituated : s.tests = testsWithin [] s.tree.situated := by
    rw [tests, ← ElementTree.map_around_places, testsWithin, List.filterMap_map]
    rfl
  have hclauses : NoTests (s.imports.map Import.tree ++ s.queries.map Query.tree ++
      (s.setup.map Setup.tree).toList ++ (s.teardown.map Teardown.tree).toList) := by
    refine .append (.append (.append (.map (fun i => ?_) _) (.map (fun q => ?_) _))
      (.option Setup.noTests _)) (.option Teardown.noTests _)
    · exact .node (by simp) (List.forall_mem_nil _)
    · exact .node (by simp) (List.forall_mem_nil _)
  rw [hsituated, tree, testsWithin_node, branches, ElementTree.situatedOfList_append,
    testsWithin_append, testsWithin_of_noTests hclauses, List.nil_append]
  have hroot : (Element.suite s).testIn? [] = none := rfl
  rw [hroot, Option.toList_none, List.nil_append]
  generalize s.scopes = scopes
  induction scopes with
  | nil => rfl
  | cons c scopes ih =>
    rw [List.map_cons, ElementTree.situatedOfList, testsWithin_append, ih, List.flatMap_cons,
      c.testsWithin_situated rfl rfl]

/-! ## Names -/

mutual

/-- The tests of a member stand in its scope, and in the groups that the member stands in. -/
theorem Item.of_mem_tests {scope : String} {groups : List String} (i : Item) {s : TestSymbol}
    (h : s ∈ i.tests scope groups) : s.scope = scope ∧ groups <+: s.groups := by
  cases i with
  | test t =>
    rw [tests] at h
    obtain rfl := List.mem_singleton.1 h
    exact ⟨rfl, List.prefix_refl _⟩
  | group g items =>
    rw [tests] at h
    obtain ⟨hscope, hgroups⟩ := of_mem_testsOfList items h
    exact ⟨hscope, (List.prefix_append _ _).trans hgroups⟩

theorem Item.of_mem_testsOfList {scope : String} {groups : List String} (items : List Item)
    {s : TestSymbol} (h : s ∈ testsOfList scope groups items) :
    s.scope = scope ∧ groups <+: s.groups := by
  cases items with
  | nil => cases h
  | cons i items =>
    rw [testsOfList, List.mem_append] at h
    rcases h with h | h
    · exact of_mem_tests i h
    · exact of_mem_testsOfList items h

end

mutual

/-- A member within groups that have names has a symbol for each test that is named throughout. -/
theorem Item.testSymbols_eq_filter {scope : String} (hscope : scope ≠ "") {groups : List String}
    (hgroups : ∀ g ∈ groups, g ≠ "") (i : Item) :
    i.testSymbols scope groups = (i.tests scope groups).filter fun s => s.IsNamed := by
  cases i with
  | test t =>
    rw [testSymbols, tests, List.filter_cons, List.filter_nil]
    by_cases hname : t.name = ""
    · simp [hname, TestSymbol.IsNamed]
    · have hnamed : TestSymbol.IsNamed ⟨scope, groups, t.name, t.span⟩ := ⟨hscope, hgroups, hname⟩
      simp [hname, hnamed]
  | group g items =>
    rw [testSymbols, tests]
    split_ifs with hname
    · -- No test below a group without a name is named throughout.
      refine (List.filter_eq_nil_iff.2 fun s hs hnamed => ?_).symm
      have hnamed : s.IsNamed := of_decide_eq_true hnamed
      have hmem : g.name ∈ s.groups := (of_mem_testsOfList items hs).2.subset (by simp)
      exact hnamed.2.1 g.name hmem (beq_iff_eq.1 hname)
    · refine testSymbolsOfList_eq_filter hscope ?_ items
      refine List.forall_mem_append.2 ⟨hgroups, List.forall_mem_singleton.2 ?_⟩
      simpa using hname

theorem Item.testSymbolsOfList_eq_filter {scope : String} (hscope : scope ≠ "")
    {groups : List String} (hgroups : ∀ g ∈ groups, g ≠ "") (items : List Item) :
    testSymbolsOfList scope groups items =
      (testsOfList scope groups items).filter fun s => s.IsNamed := by
  cases items with
  | nil => rfl
  | cons i items =>
    rw [testSymbolsOfList, testsOfList, List.filter_append, testSymbols_eq_filter hscope hgroups i,
      testSymbolsOfList_eq_filter hscope hgroups items]

end

/-- The symbols of the tests of a suite are those of the tests that are named throughout. -/
theorem Suite.testSymbols_eq_filter (s : Suite) :
    s.testSymbols = s.tests.filter fun t => t.IsNamed := by
  rw [testSymbols, tests_eq_flatMap, List.filter_flatMap]
  generalize s.scopes = scopes
  induction scopes with
  | nil => rfl
  | cons c scopes ih =>
    rw [List.flatMap_cons, List.filter_cons, ← ih]
    split_ifs with hquery
    · rw [List.flatMap_cons]
      refine congrArg (· ++ _) (Item.testSymbolsOfList_eq_filter ?_ (List.forall_mem_nil _) c.items)
      simpa using hquery
    · have hnone : (Item.testsOfList c.query [] c.items).filter (fun t => t.IsNamed) = [] := by
        refine List.filter_eq_nil_iff.2 fun t ht hnamed => ?_
        have hnamed : t.IsNamed := of_decide_eq_true hnamed
        refine hnamed.1 ?_
        rw [(Item.of_mem_testsOfList c.items ht).1]
        simpa using hquery
      rw [hnone, List.nil_append]

end QuerySuite
