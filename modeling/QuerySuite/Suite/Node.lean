import QuerySuite.Suite.Basic

/-!
# Nodes

Every node of a suite, as the kind of the node and what it carries, in the order of the walk. A
parent comes before its children, and the children come kind by kind, wherever they stand in the
document: below the suite the imports, the queries, the setup, the teardown and then the scopes; in
a scope or a group the setup, the teardown and then the members; in a test the setup, the statements
and then the assertions.
-/

namespace QuerySuite

/-- The kinds of nodes. -/
inductive NodeKind where
  | suite
  | importClause
  | query
  | scope
  | group
  | test
  | setup
  | setupItem
  | call
  | teardown
  | statement
  | value
  | assertion
  | expr
  deriving DecidableEq

/-- A node: its kind and what it carries. -/
structure Node where
  kind : NodeKind
  info : NodeInfo
  deriving DecidableEq

/-! ## Nodes of each part -/

/-- The nodes of what an item of a setup block runs. -/
def SetupTask.nodes : SetupTask → List Node
  | inline _ => []
  | call c => [⟨.call, c.toNodeInfo⟩]

/-- The nodes of an item of a setup block. -/
def SetupItem.nodes (i : SetupItem) : List Node :=
  ⟨.setupItem, i.toNodeInfo⟩ :: (i.task.map SetupTask.nodes).getD []

/-- The nodes of what a setup runs. -/
def SetupBody.nodes : SetupBody → List Node
  | inline _ => []
  | moduleSetup _ => []
  | call c => [⟨.call, c.toNodeInfo⟩]
  | block items => items.flatMap SetupItem.nodes

/-- The nodes of a setup. -/
def Setup.nodes (s : Setup) : List Node :=
  ⟨.setup, s.toNodeInfo⟩ :: (s.body.map SetupBody.nodes).getD []

/-- The node of a teardown. -/
def Teardown.nodes (t : Teardown) : List Node := [⟨.teardown, t.toNodeInfo⟩]

mutual

/-- The nodes of a value. -/
def Value.nodes : Value → List Node
  | literal info _ => [⟨.value, info⟩]
  | list info values => ⟨.value, info⟩ :: nodesOfList values
  | map info entries => ⟨.value, info⟩ :: nodesOfEntries entries

/-- The nodes of a list of values. -/
def Value.nodesOfList : List Value → List Node
  | [] => []
  | v :: values => v.nodes ++ nodesOfList values

/-- The nodes of the values of a map. -/
def Value.nodesOfEntries : List (Entry Value) → List Node
  | [] => []
  | ⟨_, v, _⟩ :: entries => v.nodes ++ nodesOfEntries entries

end

/-- The nodes of a statement. -/
def Statement.nodes (s : Statement) : List Node :=
  ⟨.statement, s.toNodeInfo⟩ :: (s.value.map Value.nodes).getD []

/-- The nodes of the query of an assertion. -/
def AssertionQuery.nodes : AssertionQuery → List Node
  | inline _ => []
  | call c => [⟨.call, c.toNodeInfo⟩]

/-- The nodes of an assertion. -/
def Assertion.nodes (a : Assertion) : List Node :=
  ⟨.assertion, a.toNodeInfo⟩ ::
    ((a.query.map AssertionQuery.nodes).getD [] ++ a.exprs.map fun e => ⟨.expr, e.toNodeInfo⟩)

/-- The nodes of a test. -/
def Test.nodes (t : Test) : List Node :=
  ⟨.test, t.toNodeInfo⟩ ::
    ((t.setup.map Setup.nodes).getD [] ++ t.statements.flatMap Statement.nodes ++
      t.asserts.flatMap Assertion.nodes)

mutual

/-- The nodes of a member of a scope or a group. -/
def Item.nodes : Item → List Node
  | test t => t.nodes
  | group g items =>
    ⟨.group, g.toNodeInfo⟩ ::
      ((g.setup.map Setup.nodes).getD [] ++ (g.teardown.map Teardown.nodes).getD [] ++
        nodesOfList items)

/-- The nodes of a list of members. -/
def Item.nodesOfList : List Item → List Node
  | [] => []
  | i :: items => i.nodes ++ nodesOfList items

end

/-- The nodes of a scope. -/
def Scope.nodes (s : Scope) : List Node :=
  ⟨.scope, s.toNodeInfo⟩ ::
    ((s.setup.map Setup.nodes).getD [] ++ (s.teardown.map Teardown.nodes).getD [] ++
      Item.nodesOfList s.items)

namespace Suite

/-- The nodes below the suite itself. -/
def children (s : Suite) : List Node :=
  s.imports.map (fun i => ⟨.importClause, i.toNodeInfo⟩) ++
    s.queries.map (fun q => ⟨.query, q.toNodeInfo⟩) ++
    (s.setup.map Setup.nodes).getD [] ++ (s.teardown.map Teardown.nodes).getD [] ++
    s.scopes.flatMap Scope.nodes

/-- Every node in the order of the walk: the suite itself, then its imports, queries, setup and
teardown, and the scopes last, wherever they stand. -/
def nodes (s : Suite) : List Node := ⟨.suite, s.toNodeInfo⟩ :: s.children

/-- The places of all nodes, that of the suite first. -/
def spans (s : Suite) : List Span := s.nodes.map (·.info.span)

/-- The nodes that had to skip something. -/
def recoveredNodes (s : Suite) : List Node := s.nodes.filter (·.info.recovery.wasRecovered)

/-- How many nodes of a kind there are. -/
def nodeCount (s : Suite) (kind : NodeKind) : Nat := s.nodes.countP (·.kind == kind)

theorem nodes_eq_cons (s : Suite) : s.nodes = ⟨.suite, s.toNodeInfo⟩ :: s.children := rfl

end Suite

end QuerySuite
