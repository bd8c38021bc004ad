import QuerySuite.Proofs.Relabel
import QuerySuite.Suite.Edit

/-!
# Edited trees

An edit visits the nodes of a suite in the order of the walk, as a loop over the list of nodes
would, and changes nothing but their comments. Each part of a suite keeps one contract, which the
parts of lists and the parts that may be missing inherit.

Results:

* `Suite.editAll_nodes`: an edit of a suite edits the nodes of the suite in the order of the walk.
* `Suite.edits`: the nodes of an edited suite are the edited nodes of the suite, in the same order,
  and what does not look at comments cannot tell the two suites apart.
-/

namespace QuerySuite

variable {σ α : Type} {f : Edit σ}

/-- Edits nodes in a row, the state being handed from each to the next. -/
def Node.editAll (f : Edit σ) : List Node → σ → List Node × σ
  | [], s => ([], s)
  | n :: nodes, s =>
    let rest := editAll f nodes (f n s).2
    (⟨n.kind, { n.info with comments := (f n s).1 }⟩ :: rest.1, rest.2)

theorem Node.editAll_append (f : Edit σ) (as bs : List Node) (s : σ) :
    editAll f (as ++ bs) s =
      ((editAll f as s).1 ++ (editAll f bs (editAll f as s).2).1,
        (editAll f bs (editAll f as s).2).2) := by
  induction as generalizing s with
  | nil => rfl
  | cons n as ih =>
    rw [List.cons_append, editAll, editAll, ih]
    rfl

/-- The relabelling does not look at comments. -/
def Relabel.IgnoresComments (r : Relabel) : Prop :=
  ∀ (i : NodeInfo) (comments : Comments), r.info { i with comments } = r.info i

/-- The contract of an edit of a part: its nodes, of which none is a suite, are edited in their
order, and nothing but their comments changes. -/
structure Edits (f : Edit σ) (nodes : α → List Node) (relabel : Relabel → α → α)
    (edit : α → StateM σ α) (a : α) : Prop where
  order : ∀ s, Node.editAll f (nodes a) s = (nodes (edit a s).1, (edit a s).2)
  rest : ∀ s r, r.IgnoresComments → relabel r (edit a s).1 = relabel r a
  below : ∀ n ∈ nodes a, n.kind ≠ .suite

namespace Edits

variable {nodes : α → List Node} {relabel : Relabel → α → α} {edit : α → StateM σ α}

/-- The parts of a list, edited one after another. -/
theorem list {as : List α} (h : ∀ a ∈ as, Edits f nodes relabel edit a) :
    Edits f (List.flatMap nodes) (fun r => List.map (relabel r)) (List.mapM edit) as := by
  induction as with
  | nil => exact ⟨fun _ => rfl, fun _ _ _ => rfl, by simp⟩
  | cons a as ih =>
    obtain ⟨ha, has⟩ := List.forall_mem_cons.1 h
    have ih := ih has
    refine ⟨fun s => ?_, fun s r hr => ?_, ?_⟩
    · rw [List.flatMap_cons, Node.editAll_append, ha.order, ih.order, List.mapM_cons]
      rfl
    · rw [List.mapM_cons, List.map_cons, ← ha.rest s r hr, ← ih.rest (edit a s).2 r hr]
      rfl
    · rw [List.flatMap_cons]
      exact List.forall_mem_append.2 ⟨ha.below, ih.below⟩

/-- A part that may be missing. -/
theorem option {a : Option α} (h : ∀ b ∈ a, Edits f nodes relabel edit b) :
    Edits f (fun a => (a.map nodes).getD []) (fun r => Option.map (relabel r)) (Option.mapM edit)
      a := by
  cases a with
  | none => exact ⟨fun _ => rfl, fun _ _ _ => rfl, by simp⟩
  | some a =>
    have ha := h a rfl
    refine ⟨fun s => ha.order s, fun s r hr => ?_, ha.below⟩
    exact congrArg some (ha.rest s r hr)

end Edits

/-! ## Setups and teardowns -/

theorem Call.edits (c : Call) :
    Edits f (fun c : Call => [⟨.call, c.toNodeInfo⟩]) Call.relabel (Call.edit f) c := by
  refine ⟨fun _ => rfl, fun s r hr => ?_, by simp⟩
  exact congrArg (fun i => { c with toNodeInfo := i }) (hr _ _)

theorem Teardown.edits (t : Teardown) :
    Edits f Teardown.nodes Teardown.relabel (Teardown.edit f) t := by
  refine ⟨fun _ => rfl, fun s r hr => ?_, by simp [Teardown.nodes]⟩
  exact congrArg (fun i => { t with toNodeInfo := i }) (hr _ _)

theorem SetupItem.edits (i : SetupItem) :
    Edits f SetupItem.nodes SetupItem.relabel (SetupItem.edit f) i := by
  rcases i with ⟨info, _ | _ | c⟩
  · exact ⟨fun _ => rfl, fun s r hr => (SetupItem.mk.injEq ..).mpr ⟨hr _ _, rfl⟩,
      by simp [SetupItem.nodes]⟩
  · exact ⟨fun _ => rfl, fun s r hr => (SetupItem.mk.injEq ..).mpr ⟨hr _ _, rfl⟩,
      by simp [SetupItem.nodes, SetupTask.nodes]⟩
  · refine ⟨fun _ => rfl, fun s r hr => (SetupItem.mk.injEq ..).mpr ⟨hr _ _, ?_⟩,
      by simp [SetupItem.nodes, SetupTask.nodes]⟩
    exact congrArg (fun c => some (SetupTask.call c)) (c.edits.rest _ r hr)

theorem Setup.edits (s : Setup) : Edits f Setup.nodes Setup.relabel (Setup.edit f) s := by
  rcases s with ⟨info, _ | _ | _ | c | items⟩
  · exact ⟨fun _ => rfl, fun s r hr => (Setup.mk.injEq ..).mpr ⟨hr _ _, rfl⟩,
      by simp [Setup.nodes]⟩
  · exact ⟨fun _ => rfl, fun s r hr => (Setup.mk.injEq ..).mpr ⟨hr _ _, rfl⟩,
      by simp [Setup.nodes, SetupBody.nodes]⟩
  · exact ⟨fun _ => rfl, fun s r hr => (Setup.mk.injEq ..).mpr ⟨hr _ _, rfl⟩,
      by simp [Setup.nodes, SetupBody.nodes]⟩
  · refine ⟨fun _ => rfl, fun s r hr => (Setup.mk.injEq ..).mpr ⟨hr _ _, ?_⟩,
      by simp [Setup.nodes, SetupBody.nodes]⟩
    exact congrArg (fun c => some (SetupBody.call c)) (c.edits.rest _ r hr)
  · have hitems := Edits.list (f := f) fun i (_ : i ∈ items) => i.edits
    refine ⟨fun s => ?_, fun s r hr => (Setup.mk.injEq ..).mpr ⟨hr _ _, ?_⟩, ?_⟩
    · rw [Setup.nodes, Node.editAll]
      dsimp only [Option.map_some, Option.getD_some, SetupBody.nodes]
      rw [hitems.order]
      rfl
    · exact congrArg (fun items => some (SetupBody.block items)) (hitems.rest _ r hr)
    · exact List.forall_mem_cons.2 ⟨by simp, hitems.below⟩

/-! ## Statements and assertions -/

mutual

theorem Value.edits (v : Value) : Edits f Value.nodes Value.relabel (Value.edit f) v := by
  cases v with
  | literal info l =>
    refine ⟨fun _ => rfl, fun s r hr => ?_, by simp [Value.nodes]⟩
    exact congrArg (fun i => Value.literal i l) (hr _ _)
  | list info values =>
    have hvalues := Value.edits_list values
    refine ⟨fun s => ?_, fun s r hr => (Value.list.injEq ..).mpr ⟨hr _ _, ?_⟩, ?_⟩
    · rw [Value.nodes, Node.editAll]
      dsimp only
      rw [hvalues.order]
      rfl
    · exact hvalues.rest _ r hr
    · exact List.forall_mem_cons.2 ⟨by simp, hvalues.below⟩
  | map info entries =>
    have hentries := Value.edits_entries entries
    refine ⟨fun s => ?_, fun s r hr => (Value.map.injEq ..).mpr ⟨hr _ _, ?_⟩, ?_⟩
    · rw [Value.nodes, Node.editAll]
      dsimp only
      rw [hentries.order]
      rfl
    · exact hentries.rest _ r hr
    · exact List.forall_mem_cons.2 ⟨by simp, hentries.below⟩

theorem Value.edits_list (values : List Value) :
    Edits f Value.nodesOfList Value.relabelList (Value.editList f) values := by
  cases values with
  | nil => exact ⟨fun _ => rfl, fun _ _ _ => rfl, by simp [Value.nodesOfList]⟩
  | cons v values =>
    have hv := Value.edits v
    have hvalues := Value.edits_list values
    refine ⟨fun s => ?_, fun s r hr => (List.cons.injEq ..).mpr ⟨?_, ?_⟩, ?_⟩
    · rw [Value.nodesOfList, Node.editAll_append, hv.order, hvalues.order]
      rfl
    · exact hv.rest s r hr
    · exact hvalues.rest _ r hr
    · exact List.forall_mem_append.2 ⟨hv.below, hvalues.below⟩

theorem Value.edits_entries (entries : List (Entry Value)) :
    Edits f Value.nodesOfEntries Value.relabelEntries (Value.editEntries f) entries := by
  cases entries with
  | nil => exact ⟨fun _ => rfl, fun _ _ _ => rfl, by simp [Value.nodesOfEntries]⟩
  | cons e entries =>
    have hv := Value.edits e.value
    have hentries := Value.edits_entries entries
    refine ⟨fun s => ?_, fun s r hr => (List.cons.injEq ..).mpr ⟨?_, ?_⟩, ?_⟩
    · rw [Value.nodesOfEntries, Node.editAll_append, hv.order, hentries.order]
      rfl
    · exact congrArg (fun v => Entry.mk e.key v (r.place e.span)) (hv.rest s r hr)
    · exact hentries.rest _ r hr
    · exact List.forall_mem_append.2 ⟨hv.below, hentries.below⟩

end

theorem Statement.edits (s : Statement) :
    Edits f Statement.nodes Statement.relabel (Statement.edit f) s := by
  have hvalue := Edits.option (f := f) fun v (_ : v ∈ s.value) => v.edits
  refine ⟨fun st => ?_, fun st r hr => (Statement.mk.injEq ..).mpr ⟨hr _ _, rfl, ?_⟩, ?_⟩
  · rw [Statement.nodes, Node.editAll]
    dsimp only
    rw [hvalue.order]
    rfl
  · exact hvalue.rest _ r hr
  · exact List.forall_mem_cons.2 ⟨by simp, hvalue.below⟩

theorem Expr.edits (e : Expr) :
    Edits f (fun e : Expr => [⟨.expr, e.toNodeInfo⟩]) Expr.relabel (Expr.edit f) e := by
  refine ⟨fun _ => rfl, fun s r hr => ?_, by simp⟩
  exact congrArg (fun i => { e with toNodeInfo := i }) (hr _ _)

theorem AssertionQuery.edits (q : AssertionQuery) :
    Edits f AssertionQuery.nodes AssertionQuery.relabel (AssertionQuery.edit f) q := by
  cases q with
  | inline body => exact ⟨fun _ => rfl, fun _ _ _ => rfl, by simp [AssertionQuery.nodes]⟩
  | call c =>
    refine ⟨fun _ => rfl, fun s r hr => ?_, by simp [AssertionQuery.nodes]⟩
    exact congrArg AssertionQuery.call (c.edits.rest s r hr)

theorem Assertion.edits (a : Assertion) :
    Edits f Assertion.nodes Assertion.relabel (Assertion.edit f) a := by
  have hquery := Edits.option (f := f) fun q (_ : q ∈ a.query) => q.edits
  have hexprs := Edits.list (f := f) fun e (_ : e ∈ a.exprs) => e.edits
  have hnodes (a : Assertion) : Assertion.nodes a = ⟨.assertion, a.toNodeInfo⟩ ::
      ((a.query.map AssertionQuery.nodes).getD [] ++
        a.exprs.flatMap fun e => [⟨.expr, e.toNodeInfo⟩]) := by
    rw [Assertion.nodes, List.map_eq_flatMap]
  refine ⟨fun s => ?_, fun s r hr => (Assertion.mk.injEq ..).mpr ⟨hr _ _, ?_, ?_⟩, ?_⟩
  · rw [hnodes, hnodes, Node.editAll]
    dsimp only
    rw [Node.editAll_append, hquery.order, hexprs.order]
    rfl
  · exact hquery.rest _ r hr
  · exact hexprs.rest _ r hr
  · rw [hnodes]
    exact List.forall_mem_cons.2 ⟨by simp, List.forall_mem_append.2 ⟨hquery.below, hexprs.below⟩⟩

theorem Test.edits (t : Test) : Edits f Test.nodes Test.relabel (Test.edit f) t := by
  have hsetup := Edits.option (f := f) fun s (_ : s ∈ t.setup) => s.edits
  have hstatements := Edits.list (f := f) fun s (_ : s ∈ t.statements) => s.edits
  have hasserts := Edits.list (f := f) fun a (_ : a ∈ t.asserts) => a.edits
  refine ⟨fun s => ?_, fun s r hr => (Test.mk.injEq ..).mpr ⟨hr _ _, rfl, ?_, ?_, ?_⟩, ?_⟩
  · rw [Test.nodes, Node.editAll]
    dsimp only
    rw [Node.editAll_append, Node.editAll_append, hsetup.order, hstatements.order, hasserts.order]
    rfl
  · exact hsetup.rest _ r hr
  · exact hstatements.rest _ r hr
  · exact hasserts.rest _ r hr
  · exact List.forall_mem_cons.2 ⟨by simp, List.forall_mem_append.2
      ⟨List.forall_mem_append.2 ⟨hsetup.below, hstatements.below⟩, hasserts.below⟩⟩

/-! ## Scopes and suites -/

mutual

theorem Item.edits (i : Item) : Edits f Item.nodes Item.relabel (Item.edit f) i := by
  cases i with
  | test t =>
    have ht := t.edits (f := f)
    exact ⟨ht.order, fun s r hr => congrArg Item.test (ht.rest s r hr), ht.below⟩
  | group g items =>
    have hsetup := Edits.option (f := f) fun s (_ : s ∈ g.setup) => s.edits
    have hteardown := Edits.option (f := f) fun t (_ : t ∈ g.teardown) => t.edits
    have hitems := Item.edits_list items
    refine ⟨fun s => ?_, fun s r hr => (Item.group.injEq ..).mpr ⟨?_, ?_⟩, ?_⟩
    · rw [Item.nodes, Node.editAll]
      dsimp only
      rw [Node.editAll_append, Node.editAll_append, hsetup.order, hteardown.order, hitems.order]
      rfl
    · exact (Group.mk.injEq ..).mpr ⟨hr _ _, rfl, hsetup.rest _ r hr, hteardown.rest _ r hr⟩
    · exact hitems.rest _ r hr
    · exact List.forall_mem_cons.2 ⟨by simp, List.forall_mem_append.2
        ⟨List.forall_mem_append.2 ⟨hsetup.below, hteardown.below⟩, hitems.below⟩⟩

theorem Item.edits_list (items : List Item) :
    Edits f Item.nodesOfList Item.relabelList (Item.editList f) items := by
  cases items with
  | nil => exact ⟨fun _ => rfl, fun _ _ _ => rfl, by simp [Item.nodesOfList]⟩
  | cons i items =>
    have hi := Item.edits i
    have hitems := Item.edits_list items
    refine ⟨fun s => ?_, fun s r hr => (List.cons.injEq ..).mpr ⟨?_, ?_⟩, ?_⟩
    · rw [Item.nodesOfList, Node.editAll_append, hi.order, hitems.order]
      rfl
    · exact hi.rest s r hr
    · exact hitems.rest _ r hr
    · exact List.forall_mem_append.2 ⟨hi.below, hitems.below⟩

end

theorem Scope.edits (s : Scope) : Edits f Scope.nodes Scope.relabel (Scope.edit f) s := by
  have hsetup := Edits.option (f := f) fun c (_ : c ∈ s.setup) => c.edits
  have hteardown := Edits.option (f := f) fun t (_ : t ∈ s.teardown) => t.edits
  have hitems := Item.edits_list (f := f) s.items
  refine ⟨fun st => ?_, fun st r hr => (Scope.mk.injEq ..).mpr ⟨hr _ _, rfl, ?_, ?_, ?_⟩, ?_⟩
  · rw [Scope.nodes, Node.editAll]
    dsimp only
    rw [Node.editAll_append, Node.editAll_append, hsetup.order, hteardown.order, hitems.order]
    rfl
  · exact hsetup.rest _ r hr
  · exact hteardown.rest _ r hr
  · exact hitems.rest _ r hr
  · exact List.forall_mem_cons.2 ⟨by simp, List.forall_mem_append.2
      ⟨List.forall_mem_append.2 ⟨hsetup.below, hteardown.below⟩, hitems.below⟩⟩

theorem Import.edits (i : Import) :
    Edits f (fun i : Import => [⟨.importClause, i.toNodeInfo⟩]) Import.relabel
      (Import.edit f) i := by
  refine ⟨fun _ => rfl, fun s r hr => ?_, by simp⟩
  exact congrArg (fun info => { i with toNodeInfo := info }) (hr _ _)

theorem Query.edits (q : Query) :
    Edits f (fun q : Query => [⟨.query, q.toNodeInfo⟩]) Query.relabel (Query.edit f) q := by
  refine ⟨fun _ => rfl, fun s r hr => ?_, by simp⟩
  exact congrArg (fun i => { q with toNodeInfo := i }) (hr _ _)

theorem Suite.children_eq_flatMap (s : Suite) : s.children =
    s.imports.flatMap (fun i => [⟨.importClause, i.toNodeInfo⟩]) ++
      s.queries.flatMap (fun q => [⟨.query, q.toNodeInfo⟩]) ++
      (s.setup.map Setup.nodes).getD [] ++ (s.teardown.map Teardown.nodes).getD [] ++
      s.scopes.flatMap Scope.nodes := by
  rw [children, List.map_eq_flatMap, List.map_eq_flatMap]

/-- An edit of a suite edits the nodes of the suite in the order of the walk. -/
theorem Suite.editAll_nodes (s : Suite) (st : σ) :
    Node.editAll f s.nodes st = ((s.edit f st).1.nodes, (s.edit f st).2) := by
  have himports := Edits.list (f := f) fun i (_ : i ∈ s.imports) => i.edits
  have hqueries := Edits.list (f := f) fun q (_ : q ∈ s.queries) => q.edits
  have hsetup := Edits.option (f := f) fun c (_ : c ∈ s.setup) => c.edits
  have hteardown := Edits.option (f := f) fun t (_ : t ∈ s.teardown) => t.edits
  have hscopes := Edits.list (f := f) fun c (_ : c ∈ s.scopes) => c.edits
  rw [nodes_eq_cons, nodes_eq_cons, Node.editAll, children_eq_flatMap, children_eq_flatMap]
  dsimp only
  rw [Node.editAll_append, Node.editAll_append, Node.editAll_append, Node.editAll_append,
    himports.order, hqueries.order, hsetup.order, hteardown.order, hscopes.order]
  rfl

/-- An edit of a suite edits the suite itself and then the nodes below it in the order of the walk,
and changes nothing but comments. -/
theorem Suite.edits (s : Suite) (st : σ) :
    (s.edit f st).1.comments = (f ⟨.suite, s.toNodeInfo⟩ st).1 ∧
      (s.edit f st).1.children =
        (Node.editAll f s.children (f ⟨.suite, s.toNodeInfo⟩ st).2).1 ∧
      (∀ r : Relabel, r.IgnoresComments → (s.edit f st).1.relabel r = s.relabel r) ∧
      ∀ n ∈ s.children, n.kind ≠ .suite := by
  have himports := Edits.list (f := f) fun i (_ : i ∈ s.imports) => i.edits
  have hqueries := Edits.list (f := f) fun q (_ : q ∈ s.queries) => q.edits
  have hsetup := Edits.option (f := f) fun c (_ : c ∈ s.setup) => c.edits
  have hteardown := Edits.option (f := f) fun t (_ : t ∈ s.teardown) => t.edits
  have hscopes := Edits.list (f := f) fun c (_ : c ∈ s.scopes) => c.edits
  refine ⟨rfl, ?_, fun r hr => ?_, ?_⟩
  · exact (congrArg (fun r => r.1.tail) (s.editAll_nodes st)).symm
  · exact (Suite.mk.injEq ..).mpr ⟨hr _ _, himports.rest _ r hr, hqueries.rest _ r hr,
      hsetup.rest _ r hr, hteardown.rest _ r hr, hscopes.rest _ r hr, rfl⟩
  · rw [children_eq_flatMap]
    simp only [List.forall_mem_append]
    exact ⟨⟨⟨⟨himports.below, hqueries.below⟩, hsetup.below⟩, hteardown.below⟩, hscopes.below⟩

end QuerySuite
