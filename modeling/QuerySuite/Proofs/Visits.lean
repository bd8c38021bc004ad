import QuerySuite.Proofs.Attachment
import QuerySuite.Proofs.Edits

/-!
# What an edit visits

A suite can be read as the list of its nodes, and its comments can be edited in one pass over the
tree. The two go through the tree each in its own way, and comments are placed by index, so they
have to agree: an edit meets the nodes of the list in the order of the list, each as the list has
it, and what it answers at a node stands at the index of that node afterwards.

That nothing else changes is said of suites without comments. It loses nothing: a suite without
comments to which its comments are handed back in the order of the walk is the suite again.

Results:

* `Suite.restores`: comments handed back in the order of the walk restore a suite.
* `Suite.eq_of_nodes`: a suite is determined by its nodes and the suite without comments.
* `Suite.edit_visits_nodes`: what an edit meets, what it leaves and where its answers are found.
-/

namespace QuerySuite

variable {σ α β : Type}

/-! ## Comments handed back -/

/-- Gives each node the next of the comments that are left. -/
def handBack : Edit (List Comments) := fun _ left => (left.headD {}, left.tail)

/-- The comments of nodes, in a row. -/
def Node.commentsOf (nodes : List Node) : List Comments := nodes.map (·.info.comments)

theorem Node.commentsOf_append (as bs : List Node) :
    commentsOf (as ++ bs) = commentsOf as ++ commentsOf bs := List.map_append

theorem Node.commentsOf_cons (n : Node) (nodes : List Node) :
    commentsOf (n :: nodes) = n.info.comments :: commentsOf nodes := rfl

/-- The contract of a part: with its comments forgotten and handed back it is what it was, and the
comments after its own are left. -/
def Restores (nodes : α → List Node) (relabel : Relabel → α → α)
    (edit : α → StateM (List Comments) α) (a : α) : Prop :=
  ∀ left, edit (relabel .bare a) (Node.commentsOf (nodes a) ++ left) = (a, left)

/-- What a program that goes on from another one gives. -/
theorem bind_eq {x : StateM σ α} {k : α → StateM σ β} {s s' : σ} {a : α} {r : β × σ}
    (hx : x s = (a, s')) (hk : k a s' = r) : (x >>= k) s = r := by
  change k (x s).1 (x s).2 = r
  rw [hx]
  exact hk

theorem NodeInfo.restores (kind : NodeKind) (i : NodeInfo) (left : List Comments) :
    (Relabel.bare.info i).edit handBack kind (i.comments :: left) = (i, left) := rfl

namespace Restores

variable {nodes : α → List Node} {relabel : Relabel → α → α}
  {edit : α → StateM (List Comments) α}

/-- The parts of a list. -/
theorem list {as : List α} (h : ∀ a ∈ as, Restores nodes relabel edit a) :
    Restores (List.flatMap nodes) (fun r => List.map (relabel r)) (List.mapM edit) as := by
  induction as with
  | nil => exact fun _ => rfl
  | cons a as ih =>
    obtain ⟨ha, has⟩ := List.forall_mem_cons.1 h
    intro left
    rw [List.flatMap_cons, Node.commentsOf_append, List.append_assoc]
    dsimp only
    rw [List.map_cons, List.mapM_cons]
    exact bind_eq (ha _) (bind_eq (ih has left) rfl)

/-- A part that may be missing. -/
theorem option {a : Option α} (h : ∀ b ∈ a, Restores nodes relabel edit b) :
    Restores (fun a => (a.map nodes).getD []) (fun r => Option.map (relabel r)) (Option.mapM edit)
      a := by
  cases a with
  | none => exact fun _ => rfl
  | some a =>
    intro left
    exact congrArg (fun r : α × List Comments => (some r.1, r.2)) (h a rfl left)

end Restores

theorem Teardown.restores (t : Teardown) :
    Restores Teardown.nodes Teardown.relabel (Teardown.edit handBack) t := fun _ => rfl

theorem SetupItem.restores (i : SetupItem) :
    Restores SetupItem.nodes SetupItem.relabel (SetupItem.edit handBack) i := by
  rcases i with ⟨info, _ | _ | c⟩ <;> exact fun _ => rfl

theorem Setup.restores (s : Setup) :
    Restores Setup.nodes Setup.relabel (Setup.edit handBack) s := by
  rcases s with ⟨info, _ | _ | _ | c | items⟩
  case some.block =>
    have hitems := Restores.list fun i (_ : i ∈ items) => i.restores
    intro left
    rw [Setup.edit]
    exact bind_eq (NodeInfo.restores _ info _) (bind_eq (hitems left) rfl)
  all_goals exact fun _ => rfl

mutual

theorem Value.restores (v : Value) :
    Restores Value.nodes Value.relabel (Value.edit handBack) v := by
  cases v with
  | literal info l => exact fun _ => rfl
  | list info values =>
    intro left
    rw [Value.relabel, Value.edit]
    exact bind_eq (NodeInfo.restores _ info _) (bind_eq (Value.restores_list values left) rfl)
  | map info entries =>
    intro left
    rw [Value.relabel, Value.edit]
    exact bind_eq (NodeInfo.restores _ info _) (bind_eq (Value.restores_entries entries left) rfl)

theorem Value.restores_list (values : List Value) :
    Restores Value.nodesOfList Value.relabelList (Value.editList handBack) values := by
  cases values with
  | nil => exact fun _ => rfl
  | cons v values =>
    intro left
    rw [Value.nodesOfList, Node.commentsOf_append, List.append_assoc, Value.relabelList,
      Value.editList]
    exact bind_eq (Value.restores v _) (bind_eq (Value.restores_list values left) rfl)

theorem Value.restores_entries (entries : List (Entry Value)) :
    Restores Value.nodesOfEntries Value.relabelEntries (Value.editEntries handBack) entries := by
  cases entries with
  | nil => exact fun _ => rfl
  | cons e entries =>
    intro left
    rw [Value.nodesOfEntries, Node.commentsOf_append, List.append_assoc, Value.relabelEntries,
      Value.editEntries]
    exact bind_eq (Value.restores e.value _) (bind_eq (Value.restores_entries entries left) rfl)

end

theorem Statement.restores (s : Statement) :
    Restores Statement.nodes Statement.relabel (Statement.edit handBack) s := by
  have hvalue := Restores.option fun v (_ : v ∈ s.value) => v.restores
  intro left
  rw [Statement.edit]
  exact bind_eq (NodeInfo.restores _ s.toNodeInfo _) (bind_eq (hvalue left) rfl)

theorem Expr.restores (e : Expr) :
    Restores (fun e : Expr => [⟨.expr, e.toNodeInfo⟩]) Expr.relabel (Expr.edit handBack) e :=
  fun _ => rfl

theorem AssertionQuery.restores (q : AssertionQuery) :
    Restores AssertionQuery.nodes AssertionQuery.relabel (AssertionQuery.edit handBack) q := by
  cases q <;> exact fun _ => rfl

theorem Assertion.restores (a : Assertion) :
    Restores Assertion.nodes Assertion.relabel (Assertion.edit handBack) a := by
  have hquery := Restores.option fun q (_ : q ∈ a.query) => q.restores
  have hexprs := Restores.list fun e (_ : e ∈ a.exprs) => e.restores
  intro left
  rw [Assertion.nodes, List.map_eq_flatMap, Node.commentsOf_cons, Node.commentsOf_append,
    List.cons_append, List.append_assoc, Assertion.edit]
  exact bind_eq (NodeInfo.restores _ a.toNodeInfo _) <| bind_eq (hquery _) <|
    bind_eq (hexprs left) rfl

theorem Test.restores (t : Test) : Restores Test.nodes Test.relabel (Test.edit handBack) t := by
  have hsetup := Restores.option fun s (_ : s ∈ t.setup) => s.restores
  have hstatements := Restores.list fun s (_ : s ∈ t.statements) => s.restores
  have hasserts := Restores.list fun a (_ : a ∈ t.asserts) => a.restores
  intro left
  rw [Test.nodes, Node.commentsOf_cons, Node.commentsOf_append, Node.commentsOf_append,
    List.cons_append, List.append_assoc, List.append_assoc, Test.edit]
  exact bind_eq (NodeInfo.restores _ t.toNodeInfo _) <| bind_eq (hsetup _) <|
    bind_eq (hstatements _) <| bind_eq (hasserts left) rfl

mutual

theorem Item.restores (i : Item) : Restores Item.nodes Item.relabel (Item.edit handBack) i := by
  cases i with
  | test t => exact fun left => bind_eq (t.restores left) rfl
  | group g items =>
    have hsetup := Restores.option fun s (_ : s ∈ g.setup) => s.restores
    have hteardown := Restores.option fun t (_ : t ∈ g.teardown) => t.restores
    intro left
    rw [Item.nodes, Node.commentsOf_cons, Node.commentsOf_append, Node.commentsOf_append,
      List.cons_append, List.append_assoc, List.append_assoc, Item.relabel, Item.edit]
    exact bind_eq (NodeInfo.restores _ g.toNodeInfo _) <| bind_eq (hsetup _) <|
      bind_eq (hteardown _) <| bind_eq (Item.restores_list items left) rfl

theorem Item.restores_list (items : List Item) :
    Restores Item.nodesOfList Item.relabelList (Item.editList handBack) items := by
  cases items with
  | nil => exact fun _ => rfl
  | cons i items =>
    intro left
    rw [Item.nodesOfList, Node.commentsOf_append, List.append_assoc, Item.relabelList,
      Item.editList]
    exact bind_eq (Item.restores i _) (bind_eq (Item.restores_list items left) rfl)

end

theorem Scope.restores (s : Scope) :
    Restores Scope.nodes Scope.relabel (Scope.edit handBack) s := by
  have hsetup := Restores.option fun c (_ : c ∈ s.setup) => c.restores
  have hteardown := Restores.option fun t (_ : t ∈ s.teardown) => t.restores
  have hitems := Item.restores_list s.items
  intro left
  rw [Scope.nodes, Node.commentsOf_cons, Node.commentsOf_append, Node.commentsOf_append,
    List.cons_append, List.append_assoc, List.append_assoc, Scope.edit]
  exact bind_eq (NodeInfo.restores _ s.toNodeInfo _) <| bind_eq (hsetup _) <|
    bind_eq (hteardown _) <| bind_eq (hitems left) rfl

theorem Import.restores (i : Import) :
    Restores (fun i : Import => [⟨.importClause, i.toNodeInfo⟩]) Import.relabel
      (Import.edit handBack) i := fun _ => rfl

theorem Query.restores (q : Query) :
    Restores (fun q : Query => [⟨.query, q.toNodeInfo⟩]) Query.relabel (Query.edit handBack) q :=
  fun _ => rfl

/-- Comments that are handed back in the order of the walk restore a suite. -/
theorem Suite.restores (s : Suite) :
    Restores Suite.nodes Suite.relabel (Suite.edit handBack) s := by
  have himports := Restores.list fun i (_ : i ∈ s.imports) => i.restores
  have hqueries := Restores.list fun q (_ : q ∈ s.queries) => q.restores
  have hsetup := Restores.option fun c (_ : c ∈ s.setup) => c.restores
  have hteardown := Restores.option fun t (_ : t ∈ s.teardown) => t.restores
  have hscopes := Restores.list fun c (_ : c ∈ s.scopes) => c.restores
  intro left
  rw [nodes_eq_cons, children_eq_flatMap, Node.commentsOf_cons, Node.commentsOf_append,
    Node.commentsOf_append, Node.commentsOf_append, Node.commentsOf_append, List.cons_append,
    List.append_assoc, List.append_assoc, List.append_assoc, List.append_assoc, Suite.edit]
  exact bind_eq (NodeInfo.restores _ s.toNodeInfo _) <| bind_eq (himports _) <|
    bind_eq (hqueries _) <| bind_eq (hsetup _) <| bind_eq (hteardown _) <|
    bind_eq (hscopes left) rfl

/-- A suite is determined by its nodes and the suite without comments. -/
theorem Suite.eq_of_nodes {s t : Suite} (hrest : s.withoutComments = t.withoutComments)
    (hnodes : s.nodes = t.nodes) : s = t := by
  have hs := s.restores []
  have ht := t.restores []
  rw [hnodes] at hs
  exact congrArg Prod.fst <| calc
    (s, []) = s.withoutComments.edit handBack (Node.commentsOf t.nodes ++ []) := hs.symm
    _ = t.withoutComments.edit handBack (Node.commentsOf t.nodes ++ []) := by rw [hrest]
    _ = (t, []) := ht

/-! ## Nodes edited in a row -/

/-- The node with other comments. -/
def Node.withComments (n : Node) (comments : Comments) : Node := ⟨n.kind, { n.info with comments }⟩

/-- The state in which an edit is after it has seen the nodes one after another. -/
def Edit.after (f : Edit σ) (nodes : List Node) (st : σ) : σ :=
  nodes.foldl (fun st n => (f n st).2) st

/-- The edit that also notes the nodes it is asked about. -/
def Edit.noting (f : Edit σ) : Edit (σ × List Node) := fun n st =>
  ((f n st.1).1, (f n st.1).2, st.2 ++ [n])

theorem Node.snd_editAll (f : Edit σ) (nodes : List Node) (st : σ) :
    (editAll f nodes st).2 = f.after nodes st := by
  induction nodes generalizing st with
  | nil => rfl
  | cons n nodes ih => exact ih _

/-- The node at an index gets what the edit answers there, after it has seen the nodes before. -/
theorem Node.getElem?_editAll (f : Edit σ) (nodes : List Node) (st : σ) (k : Nat) :
    (editAll f nodes st).1[k]? =
      nodes[k]?.map fun n => n.withComments (f n (f.after (nodes.take k) st)).1 := by
  induction nodes generalizing st k with
  | nil => rfl
  | cons n nodes ih =>
    cases k with
    | zero => rfl
    | succ k => exact ih _ k

theorem Node.editAll_noting (f : Edit σ) (nodes seen : List Node) (st : σ) :
    editAll f.noting nodes (st, seen) =
      ((editAll f nodes st).1, (editAll f nodes st).2, seen ++ nodes) := by
  induction nodes generalizing seen st with
  | nil => rw [List.append_nil]; rfl
  | cons n nodes ih =>
    rw [editAll, editAll, Edit.noting]
    dsimp only
    rw [ih, List.append_assoc, List.singleton_append]

/-- An edit that answers with the comments a node has leaves nodes as they are. -/
theorem Node.editAll_of_keeps {f : Edit σ} {nodes : List Node}
    (h : ∀ n ∈ nodes, ∀ st, (f n st).1 = n.info.comments) (st : σ) :
    (editAll f nodes st).1 = nodes := by
  induction nodes generalizing st with
  | nil => rfl
  | cons n nodes ih =>
    obtain ⟨hn, hnodes⟩ := List.forall_mem_cons.1 h
    rw [editAll, hn st]
    exact congrArg (List.cons n) (ih hnodes _)

/-! ## Edited suites -/

theorem Suite.withoutComments_edit (f : Edit σ) (s : Suite) (st : σ) :
    (s.edit f st).1.withoutComments = s.withoutComments :=
  (s.edits (f := f) st).2.2.1 .bare fun _ _ => rfl

/-- An edit of a suite is a walk over its nodes. -/
structure VisitsNodes (f : Edit σ) (s : Suite) (st : σ) : Prop where
  /-- The edit is asked about the nodes of the suite, in their order and as the suite has them;
  noting them changes neither the suite that comes out nor the state. -/
  noted : s.edit f.noting (st, []) = ((s.edit f st).1, (s.edit f st).2, s.nodes)
  /-- The state goes from node to node in this order. -/
  state : (s.edit f st).2 = f.after s.nodes st
  /-- Nothing but comments changes. -/
  rest : (s.edit f st).1.withoutComments = s.withoutComments
  /-- The node at each index has the answer that was given there, and all else it had. -/
  answers : ∀ k : Nat, (s.edit f st).1.nodes[k]? =
    s.nodes[k]?.map fun n => n.withComments (f n (f.after (s.nodes.take k) st)).1
  /-- An edit that answers with the comments that are there gives the suite itself. -/
  kept : (∀ n ∈ s.nodes, ∀ st, (f n st).1 = n.info.comments) → (s.edit f st).1 = s

/-- An edit meets the nodes of a suite in the order of the walk, changes nothing but comments, and
its answer at each node is found at the index of that node. -/
theorem Suite.edit_visits_nodes (f : Edit σ) (s : Suite) (st : σ) : VisitsNodes f s st := by
  have horder := s.editAll_nodes (f := f) st
  have hnoting := s.editAll_nodes (f := f.noting) (st, [])
  rw [Node.editAll_noting, horder, Prod.mk.injEq] at hnoting
  obtain ⟨hnodes, hnoted⟩ := hnoting
  refine ⟨?_, ?_, s.withoutComments_edit f st, fun k => ?_, fun hkeeps => ?_⟩
  · refine Prod.ext (Suite.eq_of_nodes ?_ hnodes.symm) hnoted.symm
    rw [withoutComments_edit, withoutComments_edit]
  · rw [← Node.snd_editAll, horder]
  · rw [← Node.getElem?_editAll, horder]
  · refine Suite.eq_of_nodes (s.withoutComments_edit f st) ?_
    rw [← Node.editAll_of_keeps hkeeps st, horder]

end QuerySuite
