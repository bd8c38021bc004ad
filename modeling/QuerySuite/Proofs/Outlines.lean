import QuerySuite.Proofs.Locations
import QuerySuite.Suite.Node

/-!
# Outlines of suites

The outline of a node is the place of the node and, list by list, the outlines of its parts. An
entry of a map is a part of its own, with the value below it.

An outline is tidy if every node in it ends no earlier than it starts and encloses its parts, no two
parts of a node overlap, and each list of parts is in the order of the document.

While the parts of a node are gathered, they fill a stretch of the document that grows from its end:
`Filled lo hi parts`. A new part stands behind all others, so it can be added to any of the lists.

Results:

* `Outline.Filled.add`: a part that stands behind the others is added to a list.
* `Outline.Filled.tidy`: a node around a stretch that its parts fill is tidy.
* `Suite.spans_sublist_outline`: the outline of a suite leaves out no node.
-/

namespace QuerySuite

/-- The place of a node and, list by list, the outlines of its parts. -/
inductive Outline where
  | node (span : Span) (parts : List (List Outline))

namespace Outline

/-- The place of the node. -/
def span : Outline → Span
  | node span _ => span

/-- A node without parts. -/
def leaf (span : Span) : Outline := node span []

/-- `a` ends where `b` starts, or before. -/
def Before (a b : Outline) : Prop := a.span.stop.AtOrBefore b.span.start

/-- Places nest, siblings do not overlap and the lists of parts are in order, at any depth. -/
inductive Tidy : Outline → Prop where
  | node {span : Span} {parts : List (List Outline)} (order : span.start.AtOrBefore span.stop)
      (below : ∀ part ∈ parts, ∀ o ∈ part, Tidy o)
      (inside : ∀ part ∈ parts, ∀ o ∈ part, span.encloses o.span = true)
      (sorted : ∀ part ∈ parts, part.Pairwise Before)
      (apart : parts.flatten.Pairwise fun a b => a.Before b ∨ b.Before a) :
      Tidy (node span parts)

mutual

/-- The places of all nodes, a node before its parts. -/
def spans : Outline → List Span
  | node span parts => span :: spansOfParts parts

/-- The places of all nodes in lists of parts. -/
def spansOfParts : List (List Outline) → List Span
  | [] => []
  | part :: parts => spansOfList part ++ spansOfParts parts

/-- The places of all nodes in a list of parts. -/
def spansOfList : List Outline → List Span
  | [] => []
  | o :: part => o.spans ++ spansOfList part

end

/-! ## The outline of each part of a suite -/

end Outline

/-- The outline of a call. -/
def Call.outline (c : Call) : Outline := .leaf c.span

/-- The outlines of the nodes in what an item of a setup block runs. -/
def SetupTask.outlines : SetupTask → List Outline
  | inline _ => []
  | call c => [c.outline]

/-- The outline of an item of a setup block. -/
def SetupItem.outline (i : SetupItem) : Outline :=
  .node i.span [(i.task.map SetupTask.outlines).getD []]

/-- The outlines of the nodes in what a setup runs. -/
def SetupBody.outlines : SetupBody → List Outline
  | inline _ => []
  | moduleSetup _ => []
  | call c => [c.outline]
  | block items => items.map SetupItem.outline

/-- The outline of a setup. -/
def Setup.outline (s : Setup) : Outline := .node s.span [(s.body.map SetupBody.outlines).getD []]

/-- The outline of a teardown. -/
def Teardown.outline (t : Teardown) : Outline := .leaf t.span

mutual

/-- The outline of a value. -/
def Value.outline : Value → Outline
  | literal info _ => .leaf info.span
  | list info values => .node info.span [outlinesOfList values]
  | map info entries => .node info.span [outlinesOfEntries entries]

/-- The outlines of a list of values. -/
def Value.outlinesOfList : List Value → List Outline
  | [] => []
  | v :: values => v.outline :: outlinesOfList values

/-- The outlines of the entries of a map. -/
def Value.outlinesOfEntries : List (Entry Value) → List Outline
  | [] => []
  | ⟨_, v, span⟩ :: entries => .node span [[v.outline]] :: outlinesOfEntries entries

end

/-- The outline of an entry of a map. -/
def Entry.outline (e : Entry Value) : Outline := .node e.span [[e.value.outline]]

/-- The outline of a statement. -/
def Statement.outline (s : Statement) : Outline := .node s.span [(s.value.map Value.outline).toList]

/-- The outlines of the nodes in the query of an assertion. -/
def AssertionQuery.outlines : AssertionQuery → List Outline
  | inline _ => []
  | call c => [c.outline]

/-- The parts of an assertion. -/
def Assertion.parts (a : Assertion) : List (List Outline) :=
  [(a.query.map AssertionQuery.outlines).getD [], a.exprs.map fun e => .leaf e.span]

/-- The outline of an assertion. -/
def Assertion.outline (a : Assertion) : Outline := .node a.span a.parts

/-- The parts of a test. -/
def Test.parts (t : Test) : List (List Outline) :=
  [(t.setup.map Setup.outline).toList, t.statements.map Statement.outline,
    t.asserts.map Assertion.outline]

/-- The outline of a test. -/
def Test.outline (t : Test) : Outline := .node t.span t.parts

mutual

/-- The outline of a member of a scope or a group. -/
def Item.outline : Item → Outline
  | test t => t.outline
  | group g items =>
    .node g.span [(g.setup.map Setup.outline).toList, (g.teardown.map Teardown.outline).toList,
      outlinesOfList items]

/-- The outlines of a list of members. -/
def Item.outlinesOfList : List Item → List Outline
  | [] => []
  | i :: items => i.outline :: outlinesOfList items

end

/-- The parts of a scope or a group. -/
def bodyParts (setup : Option Setup) (teardown : Option Teardown) (items : List Item) :
    List (List Outline) :=
  [(setup.map Setup.outline).toList, (teardown.map Teardown.outline).toList,
    items.map Item.outline]

/-- The outline of a scope. -/
def Scope.outline (s : Scope) : Outline := .node s.span (bodyParts s.setup s.teardown s.items)

namespace Suite

/-- The parts of a suite. -/
def parts (s : Suite) : List (List Outline) :=
  [s.imports.map fun i => .leaf i.span, s.queries.map fun q => .leaf q.span,
    (s.setup.map Setup.outline).toList, (s.teardown.map Teardown.outline).toList,
    s.scopes.map Scope.outline]

/-- The outline of a suite. -/
def outline (s : Suite) : Outline := .node s.span s.parts

end Suite

theorem Value.outlinesOfList_eq (values : List Value) :
    outlinesOfList values = values.map outline := by
  induction values with
  | nil => rfl
  | cons v values ih => rw [outlinesOfList, ih, List.map_cons]

theorem Value.outlinesOfEntries_eq (entries : List (Entry Value)) :
    outlinesOfEntries entries = entries.map Entry.outline := by
  induction entries with
  | nil => rfl
  | cons e entries ih => rw [outlinesOfEntries, ih, List.map_cons, Entry.outline]

theorem Item.outlinesOfList_eq (items : List Item) :
    outlinesOfList items = items.map outline := by
  induction items with
  | nil => rfl
  | cons i items ih => rw [outlinesOfList, ih, List.map_cons]

theorem Item.outline_group (g : Group) (items : List Item) :
    (group g items).outline = .node g.span (bodyParts g.setup g.teardown items) := by
  rw [outline, outlinesOfList_eq, bodyParts]

/-! ## Nothing is left out -/

/-- The places of the nodes. -/
def placesOf (nodes : List Node) : List Span := nodes.map (·.info.span)

@[simp]
theorem placesOf_nil : placesOf [] = [] := rfl

@[simp]
theorem placesOf_cons (n : Node) (nodes : List Node) :
    placesOf (n :: nodes) = n.info.span :: placesOf nodes := rfl

@[simp]
theorem placesOf_append (m n : List Node) : placesOf (m ++ n) = placesOf m ++ placesOf n :=
  List.map_append

namespace Outline

theorem spans_leaf (span : Span) : (leaf span).spans = [span] := by
  rw [leaf, spans, spansOfParts]

theorem spansOfList_singleton (o : Outline) : spansOfList [o] = o.spans := by
  rw [spansOfList, spansOfList, List.append_nil]

theorem spansOfParts_singleton (part : List Outline) : spansOfParts [part] = spansOfList part := by
  rw [spansOfParts, spansOfParts, List.append_nil]

/-- A node is not left out of an outline if nothing below it is. -/
theorem sublist_spans_node {n : Node} {nodes : List Node} {parts : List (List Outline)}
    (h : (placesOf nodes).Sublist (spansOfParts parts)) :
    (placesOf (n :: nodes)).Sublist (node n.info.span parts).spans := by
  rw [spans, placesOf_cons]
  exact h.cons_cons n.info.span

/-- Parts that are given one after another. -/
theorem sublist_spansOfParts_cons {first rest : List Node} {part : List Outline}
    {parts : List (List Outline)} (h : (placesOf first).Sublist (spansOfList part))
    (h' : (placesOf rest).Sublist (spansOfParts parts)) :
    (placesOf (first ++ rest)).Sublist (spansOfParts (part :: parts)) := by
  rw [spansOfParts, placesOf_append]
  exact h.append h'

/-- A list of parts, from one part. -/
theorem sublist_spansOfList_map {α : Type} {nodes : α → List Node} {outline : α → Outline}
    {as : List α} (h : ∀ a ∈ as, (placesOf (nodes a)).Sublist (outline a).spans) :
    (placesOf (as.flatMap nodes)).Sublist (spansOfList (as.map outline)) := by
  induction as with
  | nil => exact List.nil_sublist _
  | cons a as ih =>
    rw [List.flatMap_cons, placesOf_append, List.map_cons, spansOfList]
    refine (h a List.mem_cons_self).append (ih fun b hb => ?_)
    exact h b (List.mem_cons_of_mem a hb)

/-- A list of parts that have no parts themselves. -/
theorem sublist_spansOfList_leaves {α : Type} (node : α → Node) (as : List α) :
    (placesOf (as.map node)).Sublist
      (spansOfList (as.map fun a => leaf (node a).info.span)) := by
  induction as with
  | nil => exact List.nil_sublist _
  | cons a as ih =>
    rw [List.map_cons, List.map_cons, spansOfList, spans_leaf]
    exact ih.cons_cons _

/-- A part that may be missing. -/
theorem sublist_spansOfList_option {α : Type} {nodes : α → List Node} {outline : α → Outline}
    (h : ∀ a, (placesOf (nodes a)).Sublist (outline a).spans) (a : Option α) :
    (placesOf ((a.map nodes).getD [])).Sublist (spansOfList (a.map outline).toList) := by
  cases a with
  | none => exact List.nil_sublist _
  | some a =>
    rw [Option.map_some, Option.map_some, Option.toList_some, spansOfList_singleton]
    exact h a

/-- The parts of a node that has one list of them. -/
theorem sublist_spans_single {n : Node} {nodes : List Node} {part : List Outline}
    (h : (placesOf nodes).Sublist (spansOfList part)) :
    (placesOf (n :: nodes)).Sublist (node n.info.span [part]).spans := by
  apply sublist_spans_node
  rwa [spansOfParts_singleton]

/-- A node without parts. -/
theorem sublist_spans_leaf (n : Node) : (placesOf [n]).Sublist (leaf n.info.span).spans := by
  rw [spans_leaf]
  exact List.Sublist.refl _

end Outline

theorem SetupItem.places_sublist (i : SetupItem) : (placesOf i.nodes).Sublist i.outline.spans := by
  apply Outline.sublist_spans_single
  cases i.task with
  | none => exact List.nil_sublist _
  | some task =>
    cases task with
    | inline body => exact List.nil_sublist _
    | call c =>
      show (placesOf [⟨.call, c.toNodeInfo⟩]).Sublist (Outline.spansOfList [c.outline])
      rw [Outline.spansOfList_singleton]
      exact Outline.sublist_spans_leaf _

theorem Setup.places_sublist (s : Setup) : (placesOf s.nodes).Sublist s.outline.spans := by
  apply Outline.sublist_spans_single
  cases s.body with
  | none => exact List.nil_sublist _
  | some body =>
    cases body with
    | inline body => exact List.nil_sublist _
    | moduleSetup name => exact List.nil_sublist _
    | call c =>
      show (placesOf [⟨.call, c.toNodeInfo⟩]).Sublist (Outline.spansOfList [c.outline])
      rw [Outline.spansOfList_singleton]
      exact Outline.sublist_spans_leaf _
    | block items => exact Outline.sublist_spansOfList_map fun i _ => i.places_sublist

theorem Teardown.places_sublist (t : Teardown) : (placesOf t.nodes).Sublist t.outline.spans :=
  Outline.sublist_spans_leaf _

mutual

theorem Value.places_sublist : (v : Value) → (placesOf v.nodes).Sublist v.outline.spans
  | literal info value => by
    rw [nodes, outline]
    exact Outline.sublist_spans_leaf _
  | list info values => by
    rw [nodes, outline]
    exact Outline.sublist_spans_single (places_sublist_ofList values)
  | map info entries => by
    rw [nodes, outline]
    exact Outline.sublist_spans_single (places_sublist_ofEntries entries)

theorem Value.places_sublist_ofList : (values : List Value) →
    (placesOf (nodesOfList values)).Sublist (Outline.spansOfList (outlinesOfList values))
  | [] => List.nil_sublist _
  | v :: values => by
    rw [nodesOfList, outlinesOfList, Outline.spansOfList, placesOf_append]
    exact v.places_sublist.append (places_sublist_ofList values)

theorem Value.places_sublist_ofEntries : (entries : List (Entry Value)) →
    (placesOf (nodesOfEntries entries)).Sublist (Outline.spansOfList (outlinesOfEntries entries))
  | [] => List.nil_sublist _
  | ⟨_, v, span⟩ :: entries => by
    rw [nodesOfEntries, outlinesOfEntries, Outline.spansOfList, placesOf_append, Outline.spans,
      Outline.spansOfParts_singleton, Outline.spansOfList_singleton]
    exact (v.places_sublist.cons span).append (places_sublist_ofEntries entries)

end

theorem Statement.places_sublist (s : Statement) : (placesOf s.nodes).Sublist s.outline.spans :=
  Outline.sublist_spans_single (Outline.sublist_spansOfList_option Value.places_sublist s.value)

theorem Assertion.places_sublist (a : Assertion) : (placesOf a.nodes).Sublist a.outline.spans := by
  apply Outline.sublist_spans_node
  refine Outline.sublist_spansOfParts_cons ?_ ?_
  · cases a.query with
    | none => exact List.nil_sublist _
    | some query =>
      cases query with
      | inline body => exact List.nil_sublist _
      | call c =>
        show (placesOf [⟨.call, c.toNodeInfo⟩]).Sublist (Outline.spansOfList [c.outline])
        rw [Outline.spansOfList_singleton]
        exact Outline.sublist_spans_leaf _
  · rw [Outline.spansOfParts_singleton]
    exact Outline.sublist_spansOfList_leaves _ a.exprs

theorem Test.places_sublist (t : Test) : (placesOf t.nodes).Sublist t.outline.spans := by
  apply Outline.sublist_spans_node
  rw [List.append_assoc]
  refine Outline.sublist_spansOfParts_cons
    (Outline.sublist_spansOfList_option Setup.places_sublist t.setup) ?_
  refine Outline.sublist_spansOfParts_cons
    (Outline.sublist_spansOfList_map fun s _ => s.places_sublist) ?_
  rw [Outline.spansOfParts_singleton]
  exact Outline.sublist_spansOfList_map fun a _ => a.places_sublist

mutual

theorem Item.places_sublist : (i : Item) → (placesOf i.nodes).Sublist i.outline.spans
  | test t => by
    rw [nodes, outline]
    exact t.places_sublist
  | group g items => by
    rw [nodes, outline]
    apply Outline.sublist_spans_node
    rw [List.append_assoc]
    refine Outline.sublist_spansOfParts_cons
      (Outline.sublist_spansOfList_option Setup.places_sublist g.setup) ?_
    refine Outline.sublist_spansOfParts_cons
      (Outline.sublist_spansOfList_option Teardown.places_sublist g.teardown) ?_
    rw [Outline.spansOfParts_singleton]
    exact places_sublist_ofList items

theorem Item.places_sublist_ofList : (items : List Item) →
    (placesOf (nodesOfList items)).Sublist (Outline.spansOfList (outlinesOfList items))
  | [] => List.nil_sublist _
  | i :: items => by
    rw [nodesOfList, outlinesOfList, Outline.spansOfList, placesOf_append]
    exact i.places_sublist.append (places_sublist_ofList items)

end

theorem Scope.places_sublist (s : Scope) : (placesOf s.nodes).Sublist s.outline.spans := by
  apply Outline.sublist_spans_node
  rw [List.append_assoc]
  refine Outline.sublist_spansOfParts_cons
    (Outline.sublist_spansOfList_option Setup.places_sublist s.setup) ?_
  refine Outline.sublist_spansOfParts_cons
    (Outline.sublist_spansOfList_option Teardown.places_sublist s.teardown) ?_
  rw [Outline.spansOfParts_singleton, ← Item.outlinesOfList_eq]
  exact Item.places_sublist_ofList s.items

/-- The outline of a suite leaves out no node. -/
theorem Suite.spans_sublist_outline (s : Suite) : s.spans.Sublist s.outline.spans := by
  show (placesOf s.nodes).Sublist s.outline.spans
  apply Outline.sublist_spans_node
  rw [children, List.append_assoc, List.append_assoc, List.append_assoc]
  refine Outline.sublist_spansOfParts_cons (Outline.sublist_spansOfList_leaves _ s.imports) ?_
  refine Outline.sublist_spansOfParts_cons (Outline.sublist_spansOfList_leaves _ s.queries) ?_
  refine Outline.sublist_spansOfParts_cons
    (Outline.sublist_spansOfList_option Setup.places_sublist s.setup) ?_
  refine Outline.sublist_spansOfParts_cons
    (Outline.sublist_spansOfList_option Teardown.places_sublist s.teardown) ?_
  rw [Outline.spansOfParts_singleton]
  exact Outline.sublist_spansOfList_map fun c _ => c.places_sublist

/-! ## Filled stretches -/

namespace Outline

/-- The node lies between `p` and `q`, and is tidy. -/
structure Between (p q : Position) (o : Outline) : Prop where
  tidy : o.Tidy
  start : p.AtOrBefore o.span.start
  stop : o.span.stop.AtOrBefore q

/-- The parts fill the stretch from `lo` to `hi`: they lie in it, no two overlap, and each list is
in order. -/
structure Filled (lo hi : Position) (parts : List (List Outline)) : Prop where
  order : lo.AtOrBefore hi
  between : ∀ part ∈ parts, ∀ o ∈ part, o.Between lo hi
  sorted : ∀ part ∈ parts, part.Pairwise Before
  apart : parts.flatten.Pairwise fun a b => a.Before b ∨ b.Before a

/-- The part `o` is added at the end of one of the lists. -/
def Added (o : Outline) (parts parts' : List (List Outline)) : Prop :=
  ∃ before part after, parts = before ++ part :: after ∧
    parts' = before ++ (part ++ [o]) :: after

theorem Tidy.order {o : Outline} (h : o.Tidy) : o.span.start.AtOrBefore o.span.stop := by
  cases h with
  | node order _ _ _ _ => exact order

theorem Between.mono {p p' q q' : Position} {o : Outline} (h : o.Between p q)
    (hp : p'.AtOrBefore p) (hq : q.AtOrBefore q') : o.Between p' q' :=
  ⟨h.tidy, hp.trans h.start, h.stop.trans hq⟩

theorem mem_spansOfList {span : Span} {part : List Outline} :
    span ∈ spansOfList part ↔ ∃ o ∈ part, span ∈ o.spans := by
  induction part with
  | nil => simp [spansOfList]
  | cons o part ih =>
    rw [spansOfList, List.mem_append, ih]
    simp

theorem mem_spansOfParts {span : Span} {parts : List (List Outline)} :
    span ∈ spansOfParts parts ↔ ∃ part ∈ parts, ∃ o ∈ part, span ∈ o.spans := by
  induction parts with
  | nil => simp [spansOfParts]
  | cons part parts ih =>
    rw [spansOfParts, List.mem_append, ih, mem_spansOfList]
    simp

/-- Every node of a tidy outline ends no earlier than it starts. -/
theorem Tidy.forall_spans {o : Outline} (h : o.Tidy) :
    ∀ span ∈ o.spans, span.start.AtOrBefore span.stop := by
  induction h with
  | node order _ _ _ _ ih =>
    intro span hspan
    rw [spans, List.mem_cons, mem_spansOfParts] at hspan
    rcases hspan with rfl | ⟨part, hpart, o, ho, hspan⟩
    · exact order
    · exact ih part hpart o ho span hspan

namespace Filled

variable {lo hi : Position} {parts parts' : List (List Outline)} {o : Outline}

/-- Lists without parts fill any stretch. -/
theorem empty (h : lo.AtOrBefore hi) (hparts : ∀ part ∈ parts, part = []) :
    Filled lo hi parts where
  order := h
  between part hpart o ho := by
    rw [hparts part hpart] at ho
    cases ho
  sorted part hpart := by
    rw [hparts part hpart]
    exact .nil
  apart := by
    rw [List.flatten_eq_nil_iff.2 hparts]
    exact .nil

/-- A single part fills a stretch around it. -/
theorem single (h : o.Between lo hi) : Filled lo hi [[o]] where
  order := (h.start.trans h.tidy.order).trans h.stop
  between := by simpa using h
  sorted := by simp
  apart := by simp

theorem mono (h : Filled lo hi parts) {lo' hi' : Position} (hlo : lo'.AtOrBefore lo)
    (hhi : hi.AtOrBefore hi') : Filled lo' hi' parts where
  order := (hlo.trans h.order).trans hhi
  between part hpart o ho := (h.between part hpart o ho).mono hlo hhi
  sorted := h.sorted
  apart := h.apart

/-- A part that stands behind the others is added to a list. -/
theorem add (h : Filled lo hi parts) {hi' : Position} (ho : o.Between hi hi')
    (hadd : Added o parts parts') : Filled lo hi' parts' := by
  obtain ⟨before, part, after, rfl, rfl⟩ := hadd
  have hhi : hi.AtOrBefore hi' := (ho.start.trans ho.tidy.order).trans ho.stop
  -- Whatever was there before ends where the new part starts, or before.
  have hbefore : ∀ x ∈ (before ++ part :: after).flatten, x.Before o := by
    intro x hx
    obtain ⟨part', hpart', hx⟩ := List.mem_flatten.1 hx
    exact (h.between part' hpart' x hx).stop.trans ho.start
  have hpart : part ∈ before ++ part :: after := by simp
  constructor
  · exact h.order.trans hhi
  · intro part' hpart' x hx
    have old {x : Outline} {part' : List Outline} (hpart' : part' ∈ before ++ part :: after)
        (hx : x ∈ part') : x.Between lo hi' :=
      (h.between part' hpart' x hx).mono (.refl lo) hhi
    simp only [List.mem_append, List.mem_cons] at hpart'
    rcases hpart' with hpart' | rfl | hpart'
    · exact old (by simp [hpart']) hx
    · rcases List.mem_append.1 hx with hx | hx
      · exact old hpart hx
      · rw [List.mem_singleton.1 hx]
        exact ho.mono h.order (.refl hi')
    · exact old (by simp [hpart']) hx
  · intro part' hpart'
    simp only [List.mem_append, List.mem_cons] at hpart'
    rcases hpart' with hpart' | rfl | hpart'
    · exact h.sorted part' (by simp [hpart'])
    · rw [List.pairwise_append]
      refine ⟨h.sorted part hpart, List.pairwise_singleton _ _, fun x hx y hy => ?_⟩
      rw [List.mem_singleton.1 hy]
      exact hbefore x (List.mem_flatten.2 ⟨part, hpart, hx⟩)
    · exact h.sorted part' (by simp [hpart'])
  · have hperm : (before ++ (part ++ [o]) :: after).flatten.Perm
        ((before ++ part :: after).flatten ++ [o]) := by
      simp only [List.flatten_append, List.flatten_cons, List.append_assoc]
      refine List.Perm.append_left _ (List.Perm.append_left _ ?_)
      exact List.perm_append_comm
    have hsymm {a b : Outline} (h : a.Before b ∨ b.Before a) : b.Before a ∨ a.Before b := h.symm
    refine (hperm.pairwise_iff hsymm).2 ?_
    rw [List.pairwise_append]
    refine ⟨h.apart, List.pairwise_singleton _ _, fun x hx y hy => ?_⟩
    rw [List.mem_singleton.1 hy]
    exact .inl (hbefore x hx)

/-- A list without parts can be added. -/
theorem concat_nil (h : Filled lo hi parts) : Filled lo hi (parts ++ [[]]) where
  order := h.order
  between part hpart o ho := by
    rcases List.mem_append.1 hpart with hpart | hpart
    · exact h.between part hpart o ho
    · rw [List.mem_singleton.1 hpart] at ho
      cases ho
  sorted part hpart := by
    rcases List.mem_append.1 hpart with hpart | hpart
    · exact h.sorted part hpart
    · rw [List.mem_singleton.1 hpart]
      exact .nil
  apart := by
    rw [List.flatten_append, List.flatten_singleton, List.append_nil]
    exact h.apart

/-- A part that stands before the others is put in front of them. -/
theorem cons {m : Position} {part : List Outline} (ho : o.Between lo m)
    (h : Filled m hi [part]) : Filled lo hi [o :: part] := by
  have hm : lo.AtOrBefore m := (ho.start.trans ho.tidy.order).trans ho.stop
  have hbetween : ∀ x ∈ part, x.Between m hi := h.between part (by simp)
  have hbefore : ∀ x ∈ part, o.Before x := fun x hx => ho.stop.trans (hbetween x hx).start
  have hsorted : (o :: part).Pairwise Before :=
    List.pairwise_cons.2 ⟨hbefore, h.sorted part (by simp)⟩
  constructor
  · exact hm.trans h.order
  · intro part' hpart' x hx
    rw [List.mem_singleton.1 hpart'] at hx
    rcases List.mem_cons.1 hx with rfl | hx
    · exact ho.mono (.refl lo) h.order
    · exact (hbetween x hx).mono hm (.refl hi)
  · intro part' hpart'
    rw [List.mem_singleton.1 hpart']
    exact hsorted
  · rw [List.flatten_singleton]
    exact hsorted.imp .inl

/-- A node around a stretch that its parts fill is tidy. -/
theorem tidy (h : Filled lo hi parts) : (node ⟨lo, hi⟩ parts).Tidy := by
  refine .node h.order ?_ ?_ h.sorted h.apart
  · intro part hpart o ho
    exact (h.between part hpart o ho).tidy
  · intro part hpart o ho
    have hb := h.between part hpart o ho
    exact Span.encloses_of_atOrBefore hb.start hb.tidy.order hb.stop

/-- So it lies in that stretch. -/
theorem node_between (h : Filled lo hi parts) : (node ⟨lo, hi⟩ parts).Between lo hi :=
  ⟨h.tidy, .refl lo, .refl hi⟩

end Filled

theorem leaf_between {p q : Position} (h : p.AtOrBefore q) : (leaf ⟨p, q⟩).Between p q :=
  (Filled.empty h (by simp)).node_between

end Outline

end QuerySuite
