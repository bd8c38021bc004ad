import QuerySuite.Completion.Recovered
import QuerySuite.Parse
import QuerySuite.Proofs.Gathering

/-!
# The deepest node at a place

The node that a completion looks at is the last one, in the order of the walk, whose record holds
the cursor. The search for it goes through a suite in a way of its own and leaves out values and
expressions. It finds the deepest of all nodes that hold the cursor: nothing is recorded for a value
or an expression, and the nodes that hold the cursor stand on one way down.

Results:

* `Suite.map_mark_sites`: the sites of a suite are its nodes without values and expressions.
* `Recovery.isSome_partAt`: a record has a part at a place if and only if it holds the place.
* `siteAt_deepest`: the site that is found is the deepest node that holds the place.
-/

namespace QuerySuite

/-! ## Sites and nodes -/

/-- A node of this kind is a site. -/
def NodeKind.isSite : NodeKind → Bool
  | value => false
  | expr => false
  | _ => true

/-- What is no site is read as a whole. -/
theorem NodeKind.isWhole_of_not_isSite {kind : NodeKind} (h : kind.isSite = false) :
    kind.isWhole = true := by
  cases kind with
  | value => rfl
  | expr => rfl
  | _ => cases h

/-- What a site and a node have in common. -/
def Site.mark (s : Site) : NodeKind × Recovery := (s.kind, s.recovery)

/-- The kinds and the records of those of the nodes that are sites. -/
def marks (nodes : List Node) : List (NodeKind × Recovery) :=
  (nodes.filter (·.kind.isSite)).map fun n => (n.kind, n.info.recovery)

@[simp]
theorem marks_append (nodes more : List Node) :
    marks (nodes ++ more) = marks nodes ++ marks more := by
  simp [marks]

theorem marks_cons_of_isSite {n : Node} (h : n.kind.isSite = true) (nodes : List Node) :
    marks (n :: nodes) = (n.kind, n.info.recovery) :: marks nodes := by
  simp [marks, h]

/-- Nodes that are all sites. -/
theorem marks_eq_map {nodes : List Node} (h : ∀ n ∈ nodes, n.kind.isSite = true) :
    marks nodes = nodes.map fun n => (n.kind, n.info.recovery) := by
  rw [marks, List.filter_eq_self.2 h]

/-- Nodes of which none is a site. -/
theorem marks_eq_nil {nodes : List Node} (h : ∀ n ∈ nodes, n.kind.isSite = false) :
    marks nodes = [] := by
  rw [marks, List.map_eq_nil_iff, List.filter_eq_nil_iff]
  intro n hn
  simp [h n hn]

theorem marks_flatMap {α : Type} (f : α → List Node) (l : List α) :
    marks (l.flatMap f) = l.flatMap fun a => marks (f a) := by
  induction l with
  | nil => rfl
  | cons a l ih => rw [List.flatMap_cons, marks_append, ih, List.flatMap_cons]

/-- The sites of parts, one after another. -/
theorem map_mark_flatMap {α : Type} {sites : α → List Site} {nodes : α → List Node}
    (h : ∀ a, (sites a).map Site.mark = marks (nodes a)) (l : List α) :
    (l.flatMap sites).map Site.mark = marks (l.flatMap nodes) := by
  rw [List.map_flatMap, marks_flatMap]
  exact congrArg (l.flatMap ·) (funext h)

theorem SetupItem.map_mark_sites (w : Surroundings) (i : SetupItem) :
    (i.sites w).map Site.mark = marks i.nodes := by
  rw [sites, nodes, List.map_cons, marks_cons_of_isSite rfl]
  rcases i.task with _ | _ | c <;> rfl

theorem Setup.map_mark_sites (w : Surroundings) (s : Setup) :
    (s.sites w).map Site.mark = marks s.nodes := by
  rw [sites, nodes, List.map_cons, marks_cons_of_isSite rfl]
  rcases s.body with _ | _ | _ | c | items
  case some.block =>
    exact congrArg (_ :: ·) (map_mark_flatMap (SetupItem.map_mark_sites w.setup) items)
  all_goals rfl

theorem Setup.map_mark_sites? (w : Surroundings) (s : Option Setup) :
    (sites? w s).map Site.mark = marks ((s.map Setup.nodes).getD []) := by
  cases s with
  | none => rfl
  | some s => exact s.map_mark_sites w

theorem Teardown.map_mark_sites? (w : Surroundings) (t : Option Teardown) :
    (sites? w t).map Site.mark = marks ((t.map Teardown.nodes).getD []) := by
  cases t <;> rfl

/-- Values are no sites. -/
theorem Value.marks_nodes (v : Value) : marks v.nodes = [] := by
  refine marks_eq_nil fun n hn => ?_
  rw [← v.nodes_tree] at hn
  obtain ⟨e, he, rfl⟩ := List.mem_map.1 hn
  obtain ⟨w, rfl⟩ := v.forall_mem_elements e he
  rfl

theorem Statement.marks_nodes (s : Statement) : marks s.nodes = [(.statement, s.recovery)] := by
  rw [nodes, marks_cons_of_isSite rfl]
  cases s.value with
  | none => rfl
  | some v => exact congrArg (_ :: ·) v.marks_nodes

theorem Assertion.map_mark_sites (w : Surroundings) (a : Assertion) :
    (a.sites w).map Site.mark = marks a.nodes := by
  have hexprs : marks (a.exprs.map fun e => ⟨.expr, e.toNodeInfo⟩) = [] := by
    refine marks_eq_nil fun n hn => ?_
    obtain ⟨e, -, rfl⟩ := List.mem_map.1 hn
    rfl
  rw [sites, nodes, List.map_cons, marks_cons_of_isSite rfl, marks_append, hexprs, List.append_nil]
  rcases a.query with _ | _ | c <;> rfl

theorem Test.map_mark_sites (w : Surroundings) (t : Test) :
    (t.sites w).map Site.mark = marks t.nodes := by
  have hstatements : (t.statements.map fun s => (⟨.statement, s.recovery, w.test⟩ : Site)).map
      Site.mark = marks (t.statements.flatMap Statement.nodes) := by
    rw [marks_flatMap, List.map_map, List.map_eq_flatMap]
    exact congrArg (t.statements.flatMap ·) (funext fun s => s.marks_nodes.symm)
  rw [sites, nodes, List.map_cons, marks_cons_of_isSite rfl]
  simp only [List.map_append, marks_append, Setup.map_mark_sites?, hstatements,
    map_mark_flatMap (Assertion.map_mark_sites w.test)]
  rfl

mutual

theorem Item.map_mark_sites (w : Surroundings) (i : Item) :
    (i.sites w).map Site.mark = marks i.nodes := by
  cases i with
  | test t =>
    rw [sites, nodes]
    exact t.map_mark_sites w
  | group g items =>
    rw [sites, nodes, List.map_cons, marks_cons_of_isSite rfl]
    simp only [List.map_append, marks_append, Setup.map_mark_sites?, Teardown.map_mark_sites?,
      map_mark_sitesOfList w items]
    rfl

theorem Item.map_mark_sitesOfList (w : Surroundings) (items : List Item) :
    (sitesOfList w items).map Site.mark = marks (nodesOfList items) := by
  cases items with
  | nil => rfl
  | cons i items =>
    rw [sitesOfList, nodesOfList, List.map_append, marks_append, map_mark_sites w i,
      map_mark_sitesOfList w items]

end

theorem Scope.map_mark_sites (w : Surroundings) (s : Scope) :
    (s.sites w).map Site.mark = marks s.nodes := by
  rw [sites, nodes, List.map_cons, marks_cons_of_isSite rfl]
  simp only [List.map_append, marks_append, Setup.map_mark_sites?, Teardown.map_mark_sites?,
    Item.map_mark_sitesOfList]
  rfl

/-- The sites of a suite are its nodes without values and expressions, in the same order. -/
theorem Suite.map_mark_sites (s : Suite) : s.sites.map Site.mark = marks s.nodes := by
  have himports : (s.imports.map fun i => (⟨.importClause, i.recovery, {}⟩ : Site)).map Site.mark =
      marks (s.imports.map fun i => ⟨.importClause, i.toNodeInfo⟩) := by
    rw [marks_eq_map (by simp [NodeKind.isSite]), List.map_map, List.map_map]
    rfl
  have hqueries : (s.queries.map fun q => (⟨.query, q.recovery, {}⟩ : Site)).map Site.mark =
      marks (s.queries.map fun q => ⟨.query, q.toNodeInfo⟩) := by
    rw [marks_eq_map (by simp [NodeKind.isSite]), List.map_map, List.map_map]
    rfl
  rw [sites, nodes, List.map_cons, marks_cons_of_isSite rfl, children]
  simp only [List.map_append, marks_append, Setup.map_mark_sites?, Teardown.map_mark_sites?,
    himports, hqueries, map_mark_flatMap (Scope.map_mark_sites {})]
  rfl

/-! ## The part of a record at a place -/

/-- A record has a part at a place if and only if it holds the place. -/
theorem Recovery.isSome_partAt (r : Recovery) (p : Position) :
    (r.partAt p).isSome = r.contains p := by
  have hcontains : r.contains p = !(r.parts.filter (·.1.holds p)).isEmpty := by
    rw [contains, ← map_fst_parts, List.any_map, Bool.eq_iff_iff, List.any_eq_true]
    simp [List.filter_eq_nil_iff]
  rw [hcontains, partAt]
  split
  · next part hpart =>
    have hmem := List.mem_reverse.1 (List.mem_of_find?_eq_some hpart)
    simp [List.ne_nil_of_mem hmem]
  · cases r.parts.filter (·.1.holds p) <;> rfl

/-! ## The last site -/

/-- The first result of a function that gives one exactly where `q` holds. -/
theorem findSome?_eq_bind_find? {α β : Type} {f : α → Option β} {q : α → Bool}
    (h : ∀ a, (f a).isSome = q a) (l : List α) : l.findSome? f = (l.find? q).bind f := by
  induction l with
  | nil => rfl
  | cons a l ih =>
    rw [List.findSome?_cons, List.find?_cons, ← h a]
    cases hf : f a with
    | none => simpa using ih
    | some b => simp [hf]

/-- What the search finds, told by nodes: the last node that holds the place. -/
theorem map_siteAt_of_marks {nodes : List Node} {sites : List Site} (p : Position)
    (hsites : sites.map Site.mark = marks nodes)
    (hclean : ∀ n ∈ nodes, n.kind.isSite = false → n.info.recovery = .clean) :
    (siteAt p sites).map (fun x => (x.1.mark, x.2)) =
      (nodes.filter (·.info.recovery.contains p)).getLast?.bind fun n =>
        (n.info.recovery.partAt p).map ((n.kind, n.info.recovery), ·) := by
  have hnode (n : Node) : ((n.info.recovery.partAt p).map ((n.kind, n.info.recovery), ·)).isSome =
      n.info.recovery.contains p := by
    rw [Option.isSome_map, Recovery.isSome_partAt]
  have hskip : (nodes.filter (·.kind.isSite)).filterMap (fun n =>
        (n.info.recovery.partAt p).map ((n.kind, n.info.recovery), ·)) =
      nodes.filterMap fun n => (n.info.recovery.partAt p).map ((n.kind, n.info.recovery), ·) := by
    rw [List.filterMap_filter]
    refine List.filterMap_congr fun n hn => ?_
    split_ifs with hkind
    · rfl
    · rw [hclean n hn (Bool.not_eq_true _ ▸ hkind)]
      rfl
  calc (siteAt p sites).map (fun x => (x.1.mark, x.2))
      = (sites.filterMap fun s => (s.recovery.partAt p).map (s.mark, ·)).getLast? := by
        rw [siteAt, ← List.getLast?_filterMap, ← List.getLast?_map, List.map_filterMap]
        simp only [Option.map_map, Function.comp_def]
    _ = ((sites.map Site.mark).filterMap fun m => (m.2.partAt p).map (m, ·)).getLast? := by
        rw [List.filterMap_map]
        rfl
    _ = (nodes.filterMap fun n =>
          (n.info.recovery.partAt p).map ((n.kind, n.info.recovery), ·)).getLast? := by
        rw [hsites, marks, List.filterMap_map, ← hskip]
        rfl
    _ = _ := by
        rw [List.getLast?_filterMap, findSome?_eq_bind_find? hnode, List.getLast?_filter]

/-! ## The deepest node -/

/-- The elements whose records hold the place, with the ways to them, in the order of the walk. -/
def Suite.holding (s : Suite) (p : Position) : List (List Nat × Element) :=
  s.tree.places.filter fun y => y.2.recovery.contains p

theorem Suite.map_node_places (s : Suite) : s.tree.places.map (fun y => y.2.node) = s.nodes := by
  rw [← s.map_node_elements, Suite.elements, ← ElementTree.map_snd_places, List.map_map]
  rfl

/-- The nodes that hold the place. -/
theorem Suite.map_node_holding (s : Suite) (p : Position) :
    (s.holding p).map (fun y => y.2.node) =
      s.nodes.filter (·.info.recovery.contains p) := by
  rw [← s.map_node_places, List.filter_map]
  rfl

/-- The search finds the last of the elements that hold the place, and nothing if there is none. -/
theorem Suite.map_siteAt (s : Suite) (p : Position)
    (hclean : ∀ n ∈ s.nodes, n.kind.isSite = false → n.info.recovery = .clean) :
    (siteAt p s.sites).map (fun x => (x.1.mark, x.2)) =
      (s.holding p).getLast?.bind fun y =>
        (y.2.recovery.partAt p).map ((y.2.node.kind, y.2.recovery), ·) := by
  rw [map_siteAt_of_marks p s.map_mark_sites hclean, ← s.map_node_holding, List.getLast?_map,
    Option.bind_map]
  rfl

theorem Suite.siteAt_eq_none_iff (s : Suite) (p : Position)
    (hclean : ∀ n ∈ s.nodes, n.kind.isSite = false → n.info.recovery = .clean) :
    siteAt p s.sites = none ↔ ∀ n ∈ s.nodes, n.info.recovery.contains p = false := by
  have hnone : siteAt p s.sites = none ↔ s.holding p = [] := by
    rw [← Option.map_eq_none_iff, s.map_siteAt p hclean]
    cases hlast : (s.holding p).getLast? with
    | none => simpa using List.getLast?_eq_none_iff.1 hlast
    | some y =>
      have hmem := List.mem_of_getLast? hlast
      have hpart : (y.2.recovery.partAt p).isSome = true := by
        rw [Recovery.isSome_partAt]
        exact (List.mem_filter.1 hmem).2
      obtain ⟨part, hpart⟩ := Option.isSome_iff_exists.1 hpart
      simp [hpart, List.ne_nil_of_mem hmem]
  rw [hnone, ← List.map_eq_nil_iff, s.map_node_holding, List.filter_eq_nil_iff]
  simp only [Bool.not_eq_true]

/-- In every source that is read with recovery, and for every place: the nodes whose records hold
the place, in the order of the walk, are each an ancestor of those behind it. The search for the
place ends at the last of them, which is the deepest, and is also the last node that has a part at
the place. It finds nothing if and only if no node holds the place. -/
theorem siteAt_deepest (source : String) (p : Position) :
    ∃ suite, (parse .recovery source).suite = some suite ∧
      suite.tree.places.map (fun y => y.2.node) = suite.nodes ∧
      (suite.holding p).Pairwise ElementTree.Leads ∧
      (siteAt p suite.sites = none ↔ ∀ n ∈ suite.nodes, n.info.recovery.contains p = false) ∧
      ∀ site part, siteAt p suite.sites = some (site, part) →
        ∃ way e, (suite.holding p).getLast? = some (way, e) ∧
          (∀ y ∈ suite.holding p, y.1 <+: way) ∧
          (suite.nodes.filter fun n => (n.info.recovery.partAt p).isSome).getLast? = some e.node ∧
          e.node.kind = site.kind ∧ e.recovery = site.recovery ∧
          e.recovery.partAt p = some part := by
  obtain ⟨suite, met, hrun, hway, hplain⟩ := Grammar.parse_recovery_gathered source p
  have hsuite : (parse .recovery source).suite = some suite := by
    unfold parse
    dsimp only
    rw [hrun]
  have hclean : ∀ n ∈ suite.nodes, n.kind.isSite = false → n.info.recovery = .clean := by
    intro n hn hkind
    rw [← suite.map_node_elements] at hn
    obtain ⟨e, he, rfl⟩ := List.mem_map.1 hn
    exact (hplain e he).whole (NodeKind.isWhole_of_not_isSite hkind)
  have hpairwise : (suite.holding p).Pairwise ElementTree.Leads := hway.pairwise
  refine ⟨suite, hsuite, suite.map_node_places, hpairwise, suite.siteAt_eq_none_iff p hclean, ?_⟩
  intro site part hsite
  have hfound := suite.map_siteAt p hclean
  rw [hsite, Option.map_some] at hfound
  obtain ⟨⟨way, e⟩, hlast, hmarked⟩ := Option.bind_eq_some_iff.1 hfound.symm
  obtain ⟨part', hpart, heq⟩ := Option.map_eq_some_iff.1 hmarked
  obtain ⟨hmark, rfl⟩ := Prod.mk.inj heq
  obtain ⟨hkind, hrecovery⟩ := Prod.mk.inj hmark
  refine ⟨way, e, hlast, ?_, ?_, hkind, hrecovery, hpart⟩
  · -- All but the last one lead to the last one.
    obtain ⟨before, hbefore⟩ := List.getLast?_eq_some_iff.1 hlast
    rw [hbefore] at hpairwise ⊢
    intro y hy
    rcases List.mem_append.1 hy with hy | hy
    · exact ((List.pairwise_append.1 hpairwise).2.2 y hy (way, e) (List.mem_singleton_self _)).1
    · obtain rfl := List.mem_singleton.1 hy
      exact List.prefix_refl way
  · simp only [Recovery.isSome_partAt]
    rw [← suite.map_node_holding, List.getLast?_map, hlast]
    rfl

end QuerySuite
