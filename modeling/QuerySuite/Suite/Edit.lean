import QuerySuite.Suite.Node

/-!
# Editing comments

The comments of every node can be replaced in one pass over the suite, which meets the nodes in the
order of the walk and hands a state from node to node. Nothing but comments changes.
-/

namespace QuerySuite

variable {σ : Type}

/-- What to do at each node: the new comments, from the node and the state. -/
abbrev Edit (σ : Type) : Type := Node → StateM σ Comments

/-- Replaces the comments of what a node of the kind `kind` carries. -/
def NodeInfo.edit (f : Edit σ) (kind : NodeKind) (i : NodeInfo) : StateM σ NodeInfo := do
  let comments ← f ⟨kind, i⟩
  pure { i with comments }

/-- Edits a call. -/
def Call.edit (f : Edit σ) (c : Call) : StateM σ Call := do
  let info ← c.toNodeInfo.edit f .call
  pure { c with toNodeInfo := info }

/-- Edits an item of a setup block. -/
def SetupItem.edit (f : Edit σ) (i : SetupItem) : StateM σ SetupItem := do
  let info ← i.toNodeInfo.edit f .setupItem
  match i.task with
  | some (.call c) => do
    let c ← c.edit f
    pure { toNodeInfo := info, task := some (.call c) }
  | task => pure { toNodeInfo := info, task }

/-- Edits a setup. -/
def Setup.edit (f : Edit σ) (s : Setup) : StateM σ Setup := do
  let info ← s.toNodeInfo.edit f .setup
  match s.body with
  | some (.call c) => do
    let c ← c.edit f
    pure { toNodeInfo := info, body := some (.call c) }
  | some (.block items) => do
    let items ← items.mapM (·.edit f)
    pure { toNodeInfo := info, body := some (.block items) }
  | body => pure { toNodeInfo := info, body }

/-- Edits a teardown. -/
def Teardown.edit (f : Edit σ) (t : Teardown) : StateM σ Teardown := do
  let info ← t.toNodeInfo.edit f .teardown
  pure { t with toNodeInfo := info }

mutual

/-- Edits a value. -/
def Value.edit (f : Edit σ) : Value → StateM σ Value
  | literal info l => do
    let info ← info.edit f .value
    pure (literal info l)
  | list info values => do
    let info ← info.edit f .value
    let values ← editList f values
    pure (list info values)
  | map info entries => do
    let info ← info.edit f .value
    let entries ← editEntries f entries
    pure (map info entries)

/-- Edits a list of values. -/
def Value.editList (f : Edit σ) : List Value → StateM σ (List Value)
  | [] => pure []
  | v :: values => do
    let v ← v.edit f
    let values ← editList f values
    pure (v :: values)

/-- Edits the values of a map. -/
def Value.editEntries (f : Edit σ) : List (Entry Value) → StateM σ (List (Entry Value))
  | [] => pure []
  | ⟨key, v, span⟩ :: entries => do
    let v ← v.edit f
    let entries ← editEntries f entries
    pure (⟨key, v, span⟩ :: entries)

end

/-- Edits a statement. -/
def Statement.edit (f : Edit σ) (s : Statement) : StateM σ Statement := do
  let info ← s.toNodeInfo.edit f .statement
  let value ← s.value.mapM (·.edit f)
  pure { s with toNodeInfo := info, value }

/-- Edits an expression. -/
def Expr.edit (f : Edit σ) (e : Expr) : StateM σ Expr := do
  let info ← e.toNodeInfo.edit f .expr
  pure { e with toNodeInfo := info }

/-- Edits the query of an assertion. -/
def AssertionQuery.edit (f : Edit σ) : AssertionQuery → StateM σ AssertionQuery
  | inline body => pure (inline body)
  | call c => do
    let c ← c.edit f
    pure (call c)

/-- Edits an assertion. -/
def Assertion.edit (f : Edit σ) (a : Assertion) : StateM σ Assertion := do
  let info ← a.toNodeInfo.edit f .assertion
  let query ← a.query.mapM (·.edit f)
  let exprs ← a.exprs.mapM (·.edit f)
  pure { toNodeInfo := info, query, exprs }

/-- Edits a test. -/
def Test.edit (f : Edit σ) (t : Test) : StateM σ Test := do
  let info ← t.toNodeInfo.edit f .test
  let setup ← t.setup.mapM (·.edit f)
  let statements ← t.statements.mapM (·.edit f)
  let asserts ← t.asserts.mapM (·.edit f)
  pure { t with toNodeInfo := info, setup, statements, asserts }

mutual

/-- Edits a member of a scope or a group. -/
def Item.edit (f : Edit σ) : Item → StateM σ Item
  | test t => do
    let t ← t.edit f
    pure (test t)
  | group g items => do
    let info ← g.toNodeInfo.edit f .group
    let setup ← g.setup.mapM (·.edit f)
    let teardown ← g.teardown.mapM (·.edit f)
    let items ← editList f items
    pure (group { g with toNodeInfo := info, setup, teardown } items)

/-- Edits a list of members. -/
def Item.editList (f : Edit σ) : List Item → StateM σ (List Item)
  | [] => pure []
  | i :: items => do
    let i ← i.edit f
    let items ← editList f items
    pure (i :: items)

end

/-- Edits a scope. -/
def Scope.edit (f : Edit σ) (s : Scope) : StateM σ Scope := do
  let info ← s.toNodeInfo.edit f .scope
  let setup ← s.setup.mapM (·.edit f)
  let teardown ← s.teardown.mapM (·.edit f)
  let items ← Item.editList f s.items
  pure { s with toNodeInfo := info, setup, teardown, items }

/-- Edits an import. -/
def Import.edit (f : Edit σ) (i : Import) : StateM σ Import := do
  let info ← i.toNodeInfo.edit f .importClause
  pure { i with toNodeInfo := info }

/-- Edits a query. -/
def Query.edit (f : Edit σ) (q : Query) : StateM σ Query := do
  let info ← q.toNodeInfo.edit f .query
  pure { q with toNodeInfo := info }

/-- Edits the comments of every node of a suite, in the order of the walk. -/
def Suite.edit (f : Edit σ) (s : Suite) : StateM σ Suite := do
  let info ← s.toNodeInfo.edit f .suite
  let imports ← s.imports.mapM (·.edit f)
  let queries ← s.queries.mapM (·.edit f)
  let setup ← s.setup.mapM (·.edit f)
  let teardown ← s.teardown.mapM (·.edit f)
  let scopes ← s.scopes.mapM (·.edit f)
  pure { s with toNodeInfo := info, imports, queries, setup, teardown, scopes }

end QuerySuite
