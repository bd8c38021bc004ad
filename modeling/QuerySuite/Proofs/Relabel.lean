import Mathlib.Tactic.SplitIfs
import QuerySuite.Suite.Node

/-!
# Labels of a tree

What a suite says is in its texts, and what it says about the document, in the places, comments and
recovery records that its nodes carry. Relabelling changes the latter and leaves the former, so two
trees that say the same are those that become equal when their labels are forgotten.

Results:

* `Suite.nodes_relabel`: relabelling changes what each node carries, and neither adds nor moves one.
* `Suite.relabel_eq_self`: a relabelling that leaves every node as it is leaves the tree as it is.
-/

namespace QuerySuite

/-- How to change what the nodes of a tree carry, the places of its entries, and its tokens. -/
structure Relabel where
  info : NodeInfo → NodeInfo
  place : Span → Span := id
  tokens : List Token → List Token := id

/-- A relabelled node. -/
def Node.relabel (r : Relabel) (n : Node) : Node := ⟨n.kind, r.info n.info⟩

/-! ## Relabelled parts -/

def Call.relabel (r : Relabel) (c : Call) : Call := { c with toNodeInfo := r.info c.toNodeInfo }

def SetupTask.relabel (r : Relabel) : SetupTask → SetupTask
  | inline body => inline body
  | call c => call (c.relabel r)

def SetupItem.relabel (r : Relabel) (i : SetupItem) : SetupItem where
  toNodeInfo := r.info i.toNodeInfo
  task := i.task.map (·.relabel r)

def SetupBody.relabel (r : Relabel) : SetupBody → SetupBody
  | inline body => inline body
  | moduleSetup name => moduleSetup name
  | call c => call (c.relabel r)
  | block items => block (items.map (·.relabel r))

def Setup.relabel (r : Relabel) (s : Setup) : Setup where
  toNodeInfo := r.info s.toNodeInfo
  body := s.body.map (·.relabel r)

def Teardown.relabel (r : Relabel) (t : Teardown) : Teardown :=
  { t with toNodeInfo := r.info t.toNodeInfo }

mutual

def Value.relabel (r : Relabel) : Value → Value
  | literal info l => literal (r.info info) l
  | list info values => list (r.info info) (relabelList r values)
  | map info entries => map (r.info info) (relabelEntries r entries)

def Value.relabelList (r : Relabel) : List Value → List Value
  | [] => []
  | v :: values => v.relabel r :: relabelList r values

def Value.relabelEntries (r : Relabel) : List (Entry Value) → List (Entry Value)
  | [] => []
  | ⟨key, v, span⟩ :: entries => ⟨key, v.relabel r, r.place span⟩ :: relabelEntries r entries

end

def Statement.relabel (r : Relabel) (s : Statement) : Statement :=
  { s with toNodeInfo := r.info s.toNodeInfo, value := s.value.map (·.relabel r) }

def Expr.relabel (r : Relabel) (e : Expr) : Expr := { e with toNodeInfo := r.info e.toNodeInfo }

def AssertionQuery.relabel (r : Relabel) : AssertionQuery → AssertionQuery
  | inline body => inline body
  | call c => call (c.relabel r)

def Assertion.relabel (r : Relabel) (a : Assertion) : Assertion where
  toNodeInfo := r.info a.toNodeInfo
  query := a.query.map (·.relabel r)
  exprs := a.exprs.map (·.relabel r)

def Test.relabel (r : Relabel) (t : Test) : Test :=
  { t with
    toNodeInfo := r.info t.toNodeInfo
    setup := t.setup.map (·.relabel r)
    statements := t.statements.map (·.relabel r)
    asserts := t.asserts.map (·.relabel r) }

def Group.relabel (r : Relabel) (g : Group) : Group :=
  { g with
    toNodeInfo := r.info g.toNodeInfo
    setup := g.setup.map (·.relabel r)
    teardown := g.teardown.map (·.relabel r) }

mutual

def Item.relabel (r : Relabel) : Item → Item
  | test t => test (t.relabel r)
  | group g items => group (g.relabel r) (relabelList r items)

def Item.relabelList (r : Relabel) : List Item → List Item
  | [] => []
  | i :: items => i.relabel r :: relabelList r items

end

def Scope.relabel (r : Relabel) (s : Scope) : Scope :=
  { s with
    toNodeInfo := r.info s.toNodeInfo
    setup := s.setup.map (·.relabel r)
    teardown := s.teardown.map (·.relabel r)
    items := Item.relabelList r s.items }

def Import.relabel (r : Relabel) (i : Import) : Import :=
  { i with toNodeInfo := r.info i.toNodeInfo }

def Query.relabel (r : Relabel) (q : Query) : Query := { q with toNodeInfo := r.info q.toNodeInfo }

/-- A relabelled suite. -/
def Suite.relabel (r : Relabel) (s : Suite) : Suite where
  toNodeInfo := r.info s.toNodeInfo
  imports := s.imports.map (·.relabel r)
  queries := s.queries.map (·.relabel r)
  setup := s.setup.map (·.relabel r)
  teardown := s.teardown.map (·.relabel r)
  scopes := s.scopes.map (·.relabel r)
  tokens := r.tokens s.tokens

variable (r : Relabel)

theorem Value.relabelList_eq (values : List Value) :
    relabelList r values = values.map (·.relabel r) := by
  induction values with
  | nil => rw [relabelList, List.map_nil]
  | cons v values ih => rw [relabelList, List.map_cons, ih]

theorem Value.relabelEntries_eq (entries : List (Entry Value)) :
    relabelEntries r entries = entries.map fun e => ⟨e.key, e.value.relabel r, r.place e.span⟩ := by
  induction entries with
  | nil => rw [relabelEntries, List.map_nil]
  | cons e entries ih => rw [relabelEntries, List.map_cons, ih]

theorem Item.relabelList_eq (items : List Item) :
    relabelList r items = items.map (·.relabel r) := by
  induction items with
  | nil => rw [relabelList, List.map_nil]
  | cons i items ih => rw [relabelList, List.map_cons, ih]

/-! ## The nodes of a relabelled tree -/

/-- The nodes of a part that may be missing. -/
theorem getD_nodes_relabel {α : Type} {nodes : α → List Node} {relabel : α → α}
    (h : ∀ a, nodes (relabel a) = (nodes a).map (·.relabel r)) (a : Option α) :
    ((a.map relabel).map nodes).getD [] = ((a.map nodes).getD []).map (·.relabel r) := by
  cases a with
  | none => rfl
  | some a => exact h a

/-- The nodes of a list of parts. -/
theorem flatMap_nodes_relabel {α : Type} {nodes : α → List Node} {relabel : α → α}
    (h : ∀ a, nodes (relabel a) = (nodes a).map (·.relabel r)) (as : List α) :
    (as.map relabel).flatMap nodes = (as.flatMap nodes).map (·.relabel r) := by
  rw [List.flatMap_map, List.map_flatMap]
  exact congrArg (as.flatMap ·) (funext h)

theorem SetupTask.nodes_relabel (t : SetupTask) :
    (t.relabel r).nodes = t.nodes.map (·.relabel r) := by
  cases t <;> rfl

theorem SetupItem.nodes_relabel (i : SetupItem) :
    (i.relabel r).nodes = i.nodes.map (·.relabel r) := by
  rw [nodes, nodes, List.map_cons, relabel, getD_nodes_relabel r (SetupTask.nodes_relabel r)]
  rfl

theorem SetupBody.nodes_relabel (b : SetupBody) :
    (b.relabel r).nodes = b.nodes.map (·.relabel r) := by
  cases b with
  | inline body => rfl
  | moduleSetup name => rfl
  | call c => rfl
  | block items => exact flatMap_nodes_relabel r (SetupItem.nodes_relabel r) items

theorem Setup.nodes_relabel (s : Setup) : (s.relabel r).nodes = s.nodes.map (·.relabel r) := by
  rw [nodes, nodes, List.map_cons, relabel, getD_nodes_relabel r (SetupBody.nodes_relabel r)]
  rfl

theorem Teardown.nodes_relabel (t : Teardown) :
    (t.relabel r).nodes = t.nodes.map (·.relabel r) := rfl

mutual

theorem Value.nodes_relabel (v : Value) : (v.relabel r).nodes = v.nodes.map (·.relabel r) := by
  cases v with
  | literal info l => rfl
  | list info values =>
    rw [relabel, nodes, nodes, nodesOfList_relabel values]
    rfl
  | map info entries =>
    rw [relabel, nodes, nodes, nodesOfEntries_relabel entries]
    rfl

theorem Value.nodesOfList_relabel (values : List Value) :
    nodesOfList (relabelList r values) = (nodesOfList values).map (·.relabel r) := by
  cases values with
  | nil => rfl
  | cons v values =>
    rw [relabelList, nodesOfList, nodesOfList, List.map_append, nodes_relabel v,
      nodesOfList_relabel values]

theorem Value.nodesOfEntries_relabel (entries : List (Entry Value)) :
    nodesOfEntries (relabelEntries r entries) = (nodesOfEntries entries).map (·.relabel r) := by
  cases entries with
  | nil => rfl
  | cons e entries =>
    rw [relabelEntries, nodesOfEntries, nodesOfEntries, List.map_append, nodes_relabel e.value,
      nodesOfEntries_relabel entries]

end

theorem Statement.nodes_relabel (s : Statement) :
    (s.relabel r).nodes = s.nodes.map (·.relabel r) := by
  rw [nodes, nodes, List.map_cons, relabel, getD_nodes_relabel r (Value.nodes_relabel r)]
  rfl

theorem AssertionQuery.nodes_relabel (q : AssertionQuery) :
    (q.relabel r).nodes = q.nodes.map (·.relabel r) := by
  cases q <;> rfl

theorem Assertion.nodes_relabel (a : Assertion) :
    (a.relabel r).nodes = a.nodes.map (·.relabel r) := by
  rw [nodes, nodes, List.map_cons, List.map_append, relabel,
    getD_nodes_relabel r (AssertionQuery.nodes_relabel r), List.map_map, List.map_map]
  rfl

theorem Test.nodes_relabel (t : Test) : (t.relabel r).nodes = t.nodes.map (·.relabel r) := by
  rw [nodes, nodes, List.map_cons, List.map_append, List.map_append, relabel,
    getD_nodes_relabel r (Setup.nodes_relabel r),
    flatMap_nodes_relabel r (Statement.nodes_relabel r),
    flatMap_nodes_relabel r (Assertion.nodes_relabel r)]
  rfl

mutual

theorem Item.nodes_relabel (i : Item) : (i.relabel r).nodes = i.nodes.map (·.relabel r) := by
  cases i with
  | test t => exact t.nodes_relabel r
  | group g items =>
    rw [relabel, nodes, nodes, List.map_cons, List.map_append, List.map_append,
      nodesOfList_relabel items, Group.relabel, getD_nodes_relabel r (Setup.nodes_relabel r),
      getD_nodes_relabel r (Teardown.nodes_relabel r)]
    rfl

theorem Item.nodesOfList_relabel (items : List Item) :
    nodesOfList (relabelList r items) = (nodesOfList items).map (·.relabel r) := by
  cases items with
  | nil => rfl
  | cons i items =>
    rw [relabelList, nodesOfList, nodesOfList, List.map_append, nodes_relabel i,
      nodesOfList_relabel items]

end

theorem Scope.nodes_relabel (s : Scope) : (s.relabel r).nodes = s.nodes.map (·.relabel r) := by
  rw [nodes, nodes, List.map_cons, List.map_append, List.map_append, relabel,
    getD_nodes_relabel r (Setup.nodes_relabel r), getD_nodes_relabel r (Teardown.nodes_relabel r),
    Item.nodesOfList_relabel r]
  rfl

/-- Relabelling changes what each node carries, and neither adds nor moves one. -/
theorem Suite.nodes_relabel (s : Suite) : (s.relabel r).nodes = s.nodes.map (·.relabel r) := by
  rw [nodes, nodes, List.map_cons, children, children, List.map_append, List.map_append,
    List.map_append, List.map_append, relabel, getD_nodes_relabel r (Setup.nodes_relabel r),
    getD_nodes_relabel r (Teardown.nodes_relabel r),
    flatMap_nodes_relabel r (Scope.nodes_relabel r), List.map_map, List.map_map, List.map_map,
    List.map_map]
  rfl

/-! ## Relabellings that change nothing -/

/-- The relabelling leaves what the nodes carry as it is. -/
def Relabel.Fixes (nodes : List Node) : Prop := ∀ n ∈ nodes, r.info n.info = n.info

namespace Relabel

variable {r} {ms ns : List Node}

theorem Fixes.head {kind : NodeKind} {i : NodeInfo} (h : r.Fixes (⟨kind, i⟩ :: ns)) :
    r.info i = i := h ⟨kind, i⟩ List.mem_cons_self

theorem Fixes.tail {n : Node} (h : r.Fixes (n :: ns)) : r.Fixes ns :=
  fun m hm => h m (List.mem_cons_of_mem n hm)

theorem Fixes.left (h : r.Fixes (ms ++ ns)) : r.Fixes ms :=
  fun m hm => h m (List.mem_append_left ns hm)

theorem Fixes.right (h : r.Fixes (ms ++ ns)) : r.Fixes ns :=
  fun m hm => h m (List.mem_append_right ms hm)

variable {α : Type} {nodes : α → List Node} {relabel : α → α}

/-- A part that may be missing. -/
theorem Fixes.getD {a : Option α} (h : r.Fixes ((a.map nodes).getD []))
    (hpart : ∀ a, r.Fixes (nodes a) → relabel a = a) : a.map relabel = a := by
  cases a with
  | none => rfl
  | some a => exact congrArg some (hpart a h)

/-- A list of parts. -/
theorem Fixes.flatMap {as : List α} (h : r.Fixes (as.flatMap nodes))
    (hpart : ∀ a, r.Fixes (nodes a) → relabel a = a) : as.map relabel = as := by
  induction as with
  | nil => rfl
  | cons a as ih =>
    rw [List.flatMap_cons] at h
    rw [List.map_cons, hpart a h.left, ih h.right]

/-- A list of parts that are nodes. -/
theorem Fixes.map {kind : NodeKind} {info : α → NodeInfo} {as : List α}
    (h : r.Fixes (as.map fun a => ⟨kind, info a⟩))
    (hpart : ∀ a, r.info (info a) = info a → relabel a = a) : as.map relabel = as := by
  rw [List.map_eq_flatMap] at h
  exact h.flatMap fun a ha => hpart a ha.head

end Relabel

variable {r}

theorem Call.relabel_eq_self {c : Call} (h : r.info c.toNodeInfo = c.toNodeInfo) :
    c.relabel r = c := by
  rw [relabel, h]

theorem SetupTask.relabel_eq_self (t : SetupTask) (h : r.Fixes t.nodes) : t.relabel r = t := by
  cases t with
  | inline body => rfl
  | call c => exact congrArg call (Call.relabel_eq_self h.head)

theorem SetupItem.relabel_eq_self (i : SetupItem) (h : r.Fixes i.nodes) : i.relabel r = i := by
  rw [relabel, h.head, h.tail.getD SetupTask.relabel_eq_self]

theorem SetupBody.relabel_eq_self (b : SetupBody) (h : r.Fixes b.nodes) : b.relabel r = b := by
  cases b with
  | inline body => rfl
  | moduleSetup name => rfl
  | call c => exact congrArg call (Call.relabel_eq_self h.head)
  | block items =>
    rw [nodes] at h
    rw [relabel, h.flatMap SetupItem.relabel_eq_self]

theorem Setup.relabel_eq_self (s : Setup) (h : r.Fixes s.nodes) : s.relabel r = s := by
  rw [relabel, h.head, h.tail.getD SetupBody.relabel_eq_self]

theorem Teardown.relabel_eq_self (t : Teardown) (h : r.Fixes t.nodes) : t.relabel r = t := by
  rw [relabel, h.head]

mutual

theorem Value.relabel_eq_self (hplace : ∀ span, r.place span = span) (v : Value)
    (h : r.Fixes v.nodes) : v.relabel r = v := by
  cases v with
  | literal info l => rw [relabel, h.head]
  | list info values => rw [relabel, h.head, relabelList_eq_self hplace values h.tail]
  | map info entries => rw [relabel, h.head, relabelEntries_eq_self hplace entries h.tail]

theorem Value.relabelList_eq_self (hplace : ∀ span, r.place span = span)
    (values : List Value) (h : r.Fixes (nodesOfList values)) : relabelList r values = values := by
  cases values with
  | nil => rfl
  | cons v values =>
    rw [relabelList, relabel_eq_self hplace v h.left, relabelList_eq_self hplace values h.right]

theorem Value.relabelEntries_eq_self (hplace : ∀ span, r.place span = span)
    (entries : List (Entry Value)) (h : r.Fixes (nodesOfEntries entries)) :
    relabelEntries r entries = entries := by
  cases entries with
  | nil => rfl
  | cons e entries =>
    rw [relabelEntries, relabel_eq_self hplace e.value h.left, hplace,
      relabelEntries_eq_self hplace entries h.right]

end

theorem Statement.relabel_eq_self (hplace : ∀ span, r.place span = span) (s : Statement)
    (h : r.Fixes s.nodes) : s.relabel r = s := by
  rw [relabel, h.head, h.tail.getD (Value.relabel_eq_self hplace)]

theorem Expr.relabel_eq_self (e : Expr) (h : r.info e.toNodeInfo = e.toNodeInfo) :
    e.relabel r = e := by
  rw [relabel, h]

theorem AssertionQuery.relabel_eq_self (q : AssertionQuery) (h : r.Fixes q.nodes) :
    q.relabel r = q := by
  cases q with
  | inline body => rfl
  | call c => exact congrArg call (Call.relabel_eq_self h.head)

theorem Assertion.relabel_eq_self (a : Assertion) (h : r.Fixes a.nodes) : a.relabel r = a := by
  rw [relabel, h.head, h.tail.left.getD AssertionQuery.relabel_eq_self,
    h.tail.right.map Expr.relabel_eq_self]

theorem Test.relabel_eq_self (hplace : ∀ span, r.place span = span) (t : Test)
    (h : r.Fixes t.nodes) : t.relabel r = t := by
  rw [relabel, h.head, h.tail.left.left.getD Setup.relabel_eq_self,
    h.tail.left.right.flatMap (Statement.relabel_eq_self hplace),
    h.tail.right.flatMap Assertion.relabel_eq_self]

mutual

theorem Item.relabel_eq_self (hplace : ∀ span, r.place span = span) (i : Item)
    (h : r.Fixes i.nodes) : i.relabel r = i := by
  cases i with
  | test t => exact congrArg test (Test.relabel_eq_self hplace t h)
  | group g items =>
    rw [nodes] at h
    rw [relabel, Group.relabel, h.head, h.tail.left.left.getD Setup.relabel_eq_self,
      h.tail.left.right.getD Teardown.relabel_eq_self,
      relabelList_eq_self hplace items h.tail.right]

theorem Item.relabelList_eq_self (hplace : ∀ span, r.place span = span)
    (items : List Item) (h : r.Fixes (nodesOfList items)) : relabelList r items = items := by
  cases items with
  | nil => rfl
  | cons i items =>
    rw [relabelList, relabel_eq_self hplace i h.left, relabelList_eq_self hplace items h.right]

end

theorem Scope.relabel_eq_self (hplace : ∀ span, r.place span = span) (s : Scope)
    (h : r.Fixes s.nodes) : s.relabel r = s := by
  rw [relabel, h.head, h.tail.left.left.getD Setup.relabel_eq_self,
    h.tail.left.right.getD Teardown.relabel_eq_self,
    Item.relabelList_eq_self hplace s.items h.tail.right]

theorem Import.relabel_eq_self (i : Import) (h : r.info i.toNodeInfo = i.toNodeInfo) :
    i.relabel r = i := by
  rw [relabel, h]

theorem Query.relabel_eq_self (q : Query) (h : r.info q.toNodeInfo = q.toNodeInfo) :
    q.relabel r = q := by
  rw [relabel, h]

/-- A relabelling that leaves every node as it is leaves the tree as it is. -/
theorem Suite.relabel_eq_self (hplace : ∀ span, r.place span = span) (s : Suite)
    (htokens : r.tokens s.tokens = s.tokens) (h : r.Fixes s.nodes) : s.relabel r = s := by
  have hparts := h.tail
  rw [relabel, h.head, htokens, hparts.left.left.left.left.map Import.relabel_eq_self,
    hparts.left.left.left.right.map Query.relabel_eq_self,
    hparts.left.left.right.getD Setup.relabel_eq_self,
    hparts.left.right.getD Teardown.relabel_eq_self,
    hparts.right.flatMap (Scope.relabel_eq_self hplace)]

end QuerySuite
