import QuerySuite.Suite.Node

/-!
# Suites as trees

A node says of what kind it is and where it stands. Its element also holds what was read there: the
names a call refers to, the tokens of an expression. The elements of a suite make up a tree, and
walking the tree gives the nodes of the suite in their order. The place of an element in its tree is
the way down to it, so one element is below another if its way goes on from the other's.

Results:

* `ElementTree.map_snd_places`: the places of a tree are those of its elements, in their order.
* `Suite.map_node_elements`: the elements of a suite are its nodes.
-/

namespace QuerySuite

/-! ## Elements -/

/-- A node with all that it holds. -/
inductive Element where
  | suite (s : Suite)
  | importClause (i : Import)
  | query (q : Query)
  | scope (s : Scope)
  | group (g : Group) (items : List Item)
  | test (t : Test)
  | setup (s : Setup)
  | setupItem (i : SetupItem)
  | call (c : Call)
  | teardown (t : Teardown)
  | statement (s : Statement)
  | value (v : Value)
  | assertion (a : Assertion)
  | expr (e : Expr)

namespace Element

/-- The node of an element. -/
def node : Element → Node
  | suite s => ⟨.suite, s.toNodeInfo⟩
  | importClause i => ⟨.importClause, i.toNodeInfo⟩
  | query q => ⟨.query, q.toNodeInfo⟩
  | scope s => ⟨.scope, s.toNodeInfo⟩
  | group g _ => ⟨.group, g.toNodeInfo⟩
  | test t => ⟨.test, t.toNodeInfo⟩
  | setup s => ⟨.setup, s.toNodeInfo⟩
  | setupItem i => ⟨.setupItem, i.toNodeInfo⟩
  | call c => ⟨.call, c.toNodeInfo⟩
  | teardown t => ⟨.teardown, t.toNodeInfo⟩
  | statement s => ⟨.statement, s.toNodeInfo⟩
  | value v => ⟨.value, v.info⟩
  | assertion a => ⟨.assertion, a.toNodeInfo⟩
  | expr e => ⟨.expr, e.toNodeInfo⟩

/-- Where the element stands. -/
def span (e : Element) : Span := e.node.info.span

/-- What was skipped while the element was read. -/
def recovery (e : Element) : Recovery := e.node.info.recovery

end Element

/-! ## Trees -/

/-- An element with the trees of its parts. -/
inductive ElementTree where
  | node (element : Element) (branches : List ElementTree)

namespace ElementTree

mutual

/-- The elements of a tree, each before its parts. -/
def elements : ElementTree → List Element
  | node e branches => e :: elementsOfList branches

/-- The elements of a list of trees. -/
def elementsOfList : List ElementTree → List Element
  | [] => []
  | t :: trees => t.elements ++ elementsOfList trees

end

mutual

/-- The elements of a tree with the ways to them. A way tells at each element which of its parts is
taken. -/
def places : ElementTree → List (List Nat × Element)
  | node e branches => ([], e) :: placesFrom 0 branches

/-- The elements of a list of trees with the ways to them; the first tree is the part `i`. -/
def placesFrom (i : Nat) : List ElementTree → List (List Nat × Element)
  | [] => []
  | t :: trees => (t.places.map fun x => (i :: x.1, x.2)) ++ placesFrom (i + 1) trees

end

theorem elementsOfList_eq_flatMap (trees : List ElementTree) :
    elementsOfList trees = trees.flatMap elements := by
  induction trees with
  | nil => rw [elementsOfList]; rfl
  | cons t trees ih => rw [elementsOfList, ih, List.flatMap_cons]

theorem elements_node (e : Element) (branches : List ElementTree) :
    (node e branches).elements = e :: branches.flatMap elements := by
  rw [elements, elementsOfList_eq_flatMap]

mutual

/-- The places of a tree, in order, are those of its elements. -/
theorem map_snd_places (t : ElementTree) : t.places.map (·.2) = t.elements := by
  cases t with
  | node e branches => rw [places, elements, List.map_cons, map_snd_placesFrom 0 branches]

theorem map_snd_placesFrom (i : Nat) (trees : List ElementTree) :
    (placesFrom i trees).map (·.2) = elementsOfList trees := by
  cases trees with
  | nil => rw [placesFrom, elementsOfList, List.map_nil]
  | cons t trees =>
    rw [placesFrom, elementsOfList, List.map_append, List.map_map,
      map_snd_placesFrom (i + 1) trees, ← map_snd_places t]
    rfl

end

end ElementTree

/-! ## The trees of the parts of a suite -/

/-- The tree of a call. -/
def Call.tree (c : Call) : ElementTree := .node (.call c) []

/-- The branches of what an item of a setup block runs. -/
def SetupTask.branches : SetupTask → List ElementTree
  | inline _ => []
  | call c => [c.tree]

/-- The tree of an item of a setup block. -/
def SetupItem.tree (i : SetupItem) : ElementTree :=
  .node (.setupItem i) ((i.task.map SetupTask.branches).getD [])

/-- The branches of what a setup runs. -/
def SetupBody.branches : SetupBody → List ElementTree
  | inline _ => []
  | moduleSetup _ => []
  | call c => [c.tree]
  | block items => items.map SetupItem.tree

/-- The tree of a setup. -/
def Setup.tree (s : Setup) : ElementTree :=
  .node (.setup s) ((s.body.map SetupBody.branches).getD [])

/-- The tree of a teardown. -/
def Teardown.tree (t : Teardown) : ElementTree := .node (.teardown t) []

mutual

/-- The tree of a value. -/
def Value.tree : Value → ElementTree
  | literal info l => .node (.value (literal info l)) []
  | list info values => .node (.value (list info values)) (treesOfList values)
  | map info entries => .node (.value (map info entries)) (treesOfEntries entries)

/-- The trees of a list of values. -/
def Value.treesOfList : List Value → List ElementTree
  | [] => []
  | v :: values => v.tree :: treesOfList values

/-- The trees of the values of a map. -/
def Value.treesOfEntries : List (Entry Value) → List ElementTree
  | [] => []
  | ⟨_, v, _⟩ :: entries => v.tree :: treesOfEntries entries

end

/-- The tree of a statement. -/
def Statement.tree (s : Statement) : ElementTree :=
  .node (.statement s) (s.value.map Value.tree).toList

/-- The branches of the query of an assertion. -/
def AssertionQuery.branches : AssertionQuery → List ElementTree
  | inline _ => []
  | call c => [c.tree]

/-- The tree of an expression. -/
def Expr.tree (e : Expr) : ElementTree := .node (.expr e) []

/-- The trees of the parts of an assertion. -/
def Assertion.branches (a : Assertion) : List ElementTree :=
  (a.query.map AssertionQuery.branches).getD [] ++ a.exprs.map Expr.tree

/-- The tree of an assertion. -/
def Assertion.tree (a : Assertion) : ElementTree := .node (.assertion a) a.branches

/-- The trees of the parts of a test. -/
def Test.branches (t : Test) : List ElementTree :=
  (t.setup.map Setup.tree).toList ++ t.statements.map Statement.tree ++ t.asserts.map Assertion.tree

/-- The tree of a test. -/
def Test.tree (t : Test) : ElementTree := .node (.test t) t.branches

mutual

/-- The tree of a member of a scope or a group. -/
def Item.tree : Item → ElementTree
  | test t => t.tree
  | group g items =>
    .node (.group g items) ((g.setup.map Setup.tree).toList ++
      (g.teardown.map Teardown.tree).toList ++ treesOfList items)

/-- The trees of a list of members. -/
def Item.treesOfList : List Item → List ElementTree
  | [] => []
  | i :: items => i.tree :: treesOfList items

end

/-- The trees of the parts of a scope or a group. -/
def bodyBranches (setup : Option Setup) (teardown : Option Teardown) (items : List Item) :
    List ElementTree :=
  (setup.map Setup.tree).toList ++ (teardown.map Teardown.tree).toList ++ items.map Item.tree

/-- The tree of a scope. -/
def Scope.tree (s : Scope) : ElementTree :=
  .node (.scope s) (bodyBranches s.setup s.teardown s.items)

/-- The tree of an import. -/
def Import.tree (i : Import) : ElementTree := .node (.importClause i) []

/-- The tree of a query. -/
def Query.tree (q : Query) : ElementTree := .node (.query q) []

/-- The trees of the parts of a suite. -/
def Suite.branches (s : Suite) : List ElementTree :=
  s.imports.map Import.tree ++ s.queries.map Query.tree ++
    (s.setup.map Setup.tree).toList ++ (s.teardown.map Teardown.tree).toList ++
    s.scopes.map Scope.tree

/-- The tree of a suite. -/
def Suite.tree (s : Suite) : ElementTree := .node (.suite s) s.branches

/-- Every element of a suite in the order of the walk. -/
def Suite.elements (s : Suite) : List Element := s.tree.elements

theorem Item.treesOfList_eq_map (items : List Item) : treesOfList items = items.map tree := by
  induction items with
  | nil => rw [treesOfList, List.map_nil]
  | cons i items ih => rw [treesOfList, ih, List.map_cons]

theorem Item.tree_group (g : Group) (items : List Item) :
    (group g items).tree =
      .node (.group g items) (bodyBranches g.setup g.teardown items) := by
  rw [tree, treesOfList_eq_map, bodyBranches]

/-! ## The nodes of a tree -/

namespace ElementTree

/-- The nodes of a tree. -/
def nodes (t : ElementTree) : List Node := t.elements.map Element.node

@[simp]
theorem nodes_node (e : Element) (branches : List ElementTree) :
    (node e branches).nodes = e.node :: branches.flatMap nodes := by
  rw [nodes, elements_node, List.map_cons, List.map_flatMap]
  rfl

/-- The nodes of a part that may be missing. -/
theorem flatMap_nodes_toList {α : Type} {tree : α → ElementTree} {f : α → List Node}
    (h : ∀ a, (tree a).nodes = f a) (o : Option α) :
    (o.map tree).toList.flatMap nodes = (o.map f).getD [] := by
  cases o <;> simp [h]

end ElementTree

open ElementTree (flatMap_nodes_toList)

@[simp]
theorem Call.nodes_tree (c : Call) : c.tree.nodes = [⟨.call, c.toNodeInfo⟩] := by
  simp [tree, Element.node]

theorem SetupTask.flatMap_nodes_branches (t : SetupTask) :
    t.branches.flatMap ElementTree.nodes = t.nodes := by
  cases t <;> simp [branches, nodes]

@[simp]
theorem SetupItem.nodes_tree (i : SetupItem) : i.tree.nodes = i.nodes := by
  rw [tree, ElementTree.nodes_node, nodes]
  cases i.task with
  | none => rfl
  | some t => exact congrArg (_ :: ·) t.flatMap_nodes_branches

theorem SetupBody.flatMap_nodes_branches (b : SetupBody) :
    b.branches.flatMap ElementTree.nodes = b.nodes := by
  cases b <;> simp [branches, nodes, List.flatMap_map]

@[simp]
theorem Setup.nodes_tree (s : Setup) : s.tree.nodes = s.nodes := by
  rw [tree, ElementTree.nodes_node, nodes]
  cases s.body with
  | none => rfl
  | some b => exact congrArg (_ :: ·) b.flatMap_nodes_branches

@[simp]
theorem Teardown.nodes_tree (t : Teardown) : t.tree.nodes = t.nodes := by
  simp [tree, nodes, Element.node]

mutual

@[simp]
theorem Value.nodes_tree (v : Value) : v.tree.nodes = v.nodes := by
  cases v with
  | literal info l => simp [tree, nodes, Element.node, Value.info]
  | list info values => simp [tree, nodes, Element.node, Value.info, nodes_treesOfList values]
  | map info entries => simp [tree, nodes, Element.node, Value.info, nodes_treesOfEntries entries]

theorem Value.nodes_treesOfList (values : List Value) :
    (treesOfList values).flatMap ElementTree.nodes = nodesOfList values := by
  cases values with
  | nil => simp [treesOfList, nodesOfList]
  | cons v values => simp [treesOfList, nodesOfList, nodes_tree v, nodes_treesOfList values]

theorem Value.nodes_treesOfEntries (entries : List (Entry Value)) :
    (treesOfEntries entries).flatMap ElementTree.nodes = nodesOfEntries entries := by
  match entries with
  | [] => simp [treesOfEntries, nodesOfEntries]
  | ⟨_, v, _⟩ :: entries =>
    simp [treesOfEntries, nodesOfEntries, nodes_tree v, nodes_treesOfEntries entries]

end

mutual

/-- The elements of a value are values. -/
theorem Value.forall_mem_elements (v : Value) : ∀ e ∈ v.tree.elements, ∃ w, e = .value w := by
  cases v with
  | literal info l => simp [tree, ElementTree.elements_node]
  | list info values =>
    rw [tree, ElementTree.elements_node]
    exact List.forall_mem_cons.2 ⟨⟨_, rfl⟩, forall_mem_treesOfList values⟩
  | map info entries =>
    rw [tree, ElementTree.elements_node]
    exact List.forall_mem_cons.2 ⟨⟨_, rfl⟩, forall_mem_treesOfEntries entries⟩

theorem Value.forall_mem_treesOfList (values : List Value) :
    ∀ e ∈ (treesOfList values).flatMap ElementTree.elements, ∃ w, e = .value w := by
  cases values with
  | nil => simp [treesOfList]
  | cons v values =>
    rw [treesOfList, List.flatMap_cons]
    exact List.forall_mem_append.2 ⟨forall_mem_elements v, forall_mem_treesOfList values⟩

theorem Value.forall_mem_treesOfEntries (entries : List (Entry Value)) :
    ∀ e ∈ (treesOfEntries entries).flatMap ElementTree.elements, ∃ w, e = .value w := by
  match entries with
  | [] => simp [treesOfEntries]
  | ⟨_, v, _⟩ :: entries =>
    rw [treesOfEntries, List.flatMap_cons]
    exact List.forall_mem_append.2 ⟨forall_mem_elements v, forall_mem_treesOfEntries entries⟩

end

@[simp]
theorem Statement.nodes_tree (s : Statement) : s.tree.nodes = s.nodes := by
  rw [tree, ElementTree.nodes_node, flatMap_nodes_toList Value.nodes_tree, nodes]
  rfl

theorem AssertionQuery.flatMap_nodes_branches (q : AssertionQuery) :
    q.branches.flatMap ElementTree.nodes = q.nodes := by
  cases q <;> simp [branches, nodes]

@[simp]
theorem Expr.nodes_tree (e : Expr) : e.tree.nodes = [⟨.expr, e.toNodeInfo⟩] := by
  simp [tree, Element.node]

@[simp]
theorem Assertion.nodes_tree (a : Assertion) : a.tree.nodes = a.nodes := by
  have hquery : ((a.query.map AssertionQuery.branches).getD []).flatMap ElementTree.nodes =
      (a.query.map AssertionQuery.nodes).getD [] := by
    cases a.query with
    | none => rfl
    | some q => exact q.flatMap_nodes_branches
  rw [tree, ElementTree.nodes_node, branches, List.flatMap_append, hquery, nodes, List.flatMap_map,
    List.map_eq_flatMap]
  simp [Element.node]

@[simp]
theorem Test.nodes_tree (t : Test) : t.tree.nodes = t.nodes := by
  rw [tree, ElementTree.nodes_node, branches, List.flatMap_append, List.flatMap_append,
    flatMap_nodes_toList Setup.nodes_tree, nodes, List.flatMap_map, List.flatMap_map]
  simp [Element.node]

/-- The nodes of the parts of a scope or a group, given those of its members. -/
theorem flatMap_nodes_bodyBranches {items : List Item}
    (h : ∀ i ∈ items, i.tree.nodes = i.nodes) (setup : Option Setup) (teardown : Option Teardown) :
    (bodyBranches setup teardown items).flatMap ElementTree.nodes =
      (setup.map Setup.nodes).getD [] ++ (teardown.map Teardown.nodes).getD [] ++
        Item.nodesOfList items := by
  have hitems : (items.map Item.tree).flatMap ElementTree.nodes = Item.nodesOfList items := by
    rw [List.flatMap_map]
    induction items with
    | nil => rw [Item.nodesOfList]; rfl
    | cons i items ih =>
      rw [Item.nodesOfList, List.flatMap_cons, h i List.mem_cons_self,
        ih fun j hj => h j (List.mem_cons_of_mem _ hj)]
  rw [bodyBranches, List.flatMap_append, List.flatMap_append, hitems,
    flatMap_nodes_toList Setup.nodes_tree, flatMap_nodes_toList Teardown.nodes_tree]

mutual

@[simp]
theorem Item.nodes_tree (i : Item) : i.tree.nodes = i.nodes := by
  cases i with
  | test t => rw [tree, nodes, t.nodes_tree]
  | group g items =>
    rw [tree_group, ElementTree.nodes_node, nodes,
      flatMap_nodes_bodyBranches (nodes_treesOfList items)]
    rfl

theorem Item.nodes_treesOfList (items : List Item) : ∀ i ∈ items, i.tree.nodes = i.nodes := by
  cases items with
  | nil => exact nofun
  | cons i items => exact List.forall_mem_cons.2 ⟨i.nodes_tree, nodes_treesOfList items⟩

end

@[simp]
theorem Scope.nodes_tree (s : Scope) : s.tree.nodes = s.nodes := by
  rw [tree, ElementTree.nodes_node, flatMap_nodes_bodyBranches fun i _ => i.nodes_tree, nodes]
  rfl

/-- The elements of a suite are its nodes, in the same order. -/
theorem Suite.map_node_elements (s : Suite) : s.elements.map Element.node = s.nodes := by
  have htree : s.elements.map Element.node = s.tree.nodes := rfl
  have himports : (s.imports.map Import.tree).flatMap ElementTree.nodes =
      s.imports.map fun i => ⟨.importClause, i.toNodeInfo⟩ := by
    rw [List.flatMap_map]
    simp [Import.tree, Element.node, ← List.map_eq_flatMap]
  have hqueries : (s.queries.map Query.tree).flatMap ElementTree.nodes =
      s.queries.map fun q => ⟨.query, q.toNodeInfo⟩ := by
    rw [List.flatMap_map]
    simp [Query.tree, Element.node, ← List.map_eq_flatMap]
  have hscopes : (s.scopes.map Scope.tree).flatMap ElementTree.nodes =
      s.scopes.flatMap Scope.nodes := by
    simp [List.flatMap_map]
  rw [htree, tree, ElementTree.nodes_node, branches]
  simp only [List.flatMap_append, himports, hqueries, hscopes,
    flatMap_nodes_toList Setup.nodes_tree, flatMap_nodes_toList Teardown.nodes_tree]
  rfl

end QuerySuite
