import Mathlib.Data.List.Forall2
import QuerySuite.Proofs.EnclosedTests
import QuerySuite.Proofs.Nesting
import QuerySuite.Proofs.SourceRanges

/-!
# Elements nest or stand apart

In the tree of a suite that was read, an element lies within the elements around it, and elements
that stand beside each other do not overlap. So of two elements, the one that comes first in the
order of the tree holds the other, or they stand apart. No element is empty, and those that stand
apart have different places.

Results:

* `Outline.Shows`: what a tidy outline says of a tree.
* `ElementTree.Nested.pairwise_elements`: elements in the order of the tree.
* `parse_nested`, `parse_nonempty`: the elements of a suite that was read.
* `nodup_spans_imports`, `nodup_spans_queries`, `nodup_spans_tests`: clauses and tests have
  different places.
-/

namespace QuerySuite

/-! ## Places beside and within each other -/

namespace Span

/-- `b` lies within `a`. -/
structure Within (b a : Span) : Prop where
  start : a.start.AtOrBefore b.start
  stop : b.stop.AtOrBefore a.stop

/-- One of the two ends where the other starts, or before. -/
def Apart (a b : Span) : Prop := a.stop.AtOrBefore b.start ∨ b.stop.AtOrBefore a.start

theorem Within.refl (a : Span) : a.Within a := ⟨.refl _, .refl _⟩

theorem Within.trans {a b c : Span} (h : a.Within b) (h' : b.Within c) : a.Within c :=
  ⟨h'.start.trans h.start, h.stop.trans h'.stop⟩

/-- What lies within places that stand apart stands apart. -/
theorem Apart.mono {a b c d : Span} (h : a.Apart b) (hc : c.Within a) (hd : d.Within b) :
    c.Apart d := by
  rcases h with h | h
  · exact .inl ((hc.stop.trans h).trans hd.start)
  · exact .inr ((hd.stop.trans h).trans hc.start)

/-- Places that stand apart differ, unless they are empty. -/
theorem Apart.ne {a b : Span} (h : a.Apart b) (ha : a.start.isBefore a.stop = true) : a ≠ b := by
  rintro rfl
  rcases h with h | h <;> rw [Position.atOrBefore_iff, ha] at h <;> cases h

theorem within_of_encloses {a b : Span} (h : a.encloses b = true) : b.Within a := by
  simp only [encloses, contains, Bool.and_eq_true, Bool.not_eq_true'] at h
  obtain ⟨⟨hstart, -⟩, -, hstop⟩ := h
  refine ⟨(Position.atOrBefore_iff _ _).2 hstart, ?_⟩
  rw [← Bool.not_eq_true, Position.isAfter_iff] at hstop
  unfold Position.AtOrBefore
  omega

end Span

/-! ## Nested trees -/

namespace ElementTree

/-- The place of the element at the root. -/
def span : ElementTree → Span
  | node e _ => e.span

/-- The parts of every element lie within it and stand apart. -/
inductive Nested : ElementTree → Prop where
  | node {e : Element} {branches : List ElementTree} (below : ∀ t ∈ branches, Nested t)
      (inside : ∀ t ∈ branches, t.span.Within e.span)
      (apart : branches.Pairwise fun a b => a.span.Apart b.span) : Nested (node e branches)

theorem Nested.within {t : ElementTree} (h : t.Nested) :
    ∀ e ∈ t.elements, e.span.Within t.span := by
  induction h with
  | @node e branches below inside apart ih =>
    rw [elements_node]
    refine List.forall_mem_cons.2 ⟨.refl _, fun e' he' => ?_⟩
    obtain ⟨t, ht, he'⟩ := List.mem_flatMap.1 he'
    exact (ih t ht e' he').trans (inside t ht)

/-- Of two elements in the order of the tree, the second lies within the first, or they stand
apart. -/
theorem Nested.pairwise_elements {t : ElementTree} (h : t.Nested) :
    t.elements.Pairwise fun a b => b.span.Within a.span ∨ a.span.Apart b.span := by
  induction h with
  | @node e branches below inside apart ih =>
    rw [elements_node, List.pairwise_cons, List.pairwise_flatMap]
    refine ⟨fun e' he' => .inl ?_, ih, ?_⟩
    · obtain ⟨t, ht, he'⟩ := List.mem_flatMap.1 he'
      exact ((below t ht).within e' he').trans (inside t ht)
    · refine apart.imp_of_mem fun {t u} ht hu hapart a ha b hb => .inr ?_
      exact hapart.mono ((below t ht).within a ha) ((below u hu).within b hb)

end ElementTree

/-! ## Outlines and trees -/

namespace Outline

/-- If the outline is tidy, the tree is nested and lies within it. -/
def Shows (o : Outline) (t : ElementTree) : Prop := o.Tidy → t.Nested ∧ t.span.Within o.span

theorem exists_shows_of_mem {all : List Outline} {branches : List ElementTree}
    (h : List.Forall₂ Shows all branches) {u : ElementTree} (hu : u ∈ branches) :
    ∃ o ∈ all, o.Shows u := by
  induction h with
  | nil => cases hu
  | @cons o _ _ _ hshow _ ih =>
    rcases List.mem_cons.1 hu with rfl | hu
    · exact ⟨o, List.mem_cons_self, hshow⟩
    · obtain ⟨o', ho', hshow⟩ := ih hu
      exact ⟨o', List.mem_cons_of_mem _ ho', hshow⟩

/-- Branches that are shown by the parts of a tidy outline. -/
theorem nested_of_forall₂_shows {all : List Outline} {branches : List ElementTree}
    (h : List.Forall₂ Shows all branches) {span : Span}
    (htidy : ∀ o ∈ all, o.Tidy ∧ span.encloses o.span = true)
    (hapart : all.Pairwise fun a b => a.span.Apart b.span) :
    (∀ t ∈ branches, t.Nested ∧ t.span.Within span) ∧
      branches.Pairwise fun a b => a.span.Apart b.span := by
  induction h with
  | nil => exact ⟨List.forall_mem_nil _, .nil⟩
  | @cons o t all branches hshow hrest ih =>
    obtain ⟨ho, htidy⟩ := List.forall_mem_cons.1 htidy
    obtain ⟨hbeside, hapart⟩ := List.pairwise_cons.1 hapart
    obtain ⟨hnested, hwithin⟩ := hshow ho.1
    obtain ⟨hbranches, hpairwise⟩ := ih htidy hapart
    refine ⟨List.forall_mem_cons.2 ⟨⟨hnested, ?_⟩, hbranches⟩,
      List.pairwise_cons.2 ⟨fun u hu => ?_, hpairwise⟩⟩
    · exact hwithin.trans (Span.within_of_encloses ho.2)
    · -- The two lie within parts of the outline, and those stand apart.
      obtain ⟨o', ho', hshow'⟩ := exists_shows_of_mem hrest hu
      exact (hbeside o' ho').mono hwithin (hshow' (htidy o' ho').1).2

/-- An element whose parts are shown by those of the outline. -/
theorem Shows.node {e : Element} {parts : List (List Outline)} {branches : List ElementTree}
    (h : List.Forall₂ Shows parts.flatten branches) :
    (Outline.node e.span parts).Shows (.node e branches) := by
  intro htidy
  cases htidy with
  | node order below inside sorted apart =>
    have hparts : ∀ o ∈ parts.flatten, o.Tidy ∧ e.span.encloses o.span = true := by
      intro o ho
      obtain ⟨part, hpart, ho⟩ := List.mem_flatten.1 ho
      exact ⟨below part hpart o ho, inside part hpart o ho⟩
    obtain ⟨hbranches, hpairwise⟩ := nested_of_forall₂_shows h hparts apart
    refine ⟨.node (fun t ht => ?_) (fun t ht => ?_) hpairwise, .refl _⟩
    · exact (hbranches t ht).1
    · exact (hbranches t ht).2

theorem shows_leaf (e : Element) : (leaf e.span).Shows (.node e []) := .node .nil

/-- An element with one list of parts. -/
theorem Shows.single {e : Element} {part : List Outline} {branches : List ElementTree}
    (h : List.Forall₂ Shows part branches) :
    (Outline.node e.span [part]).Shows (.node e branches) := by
  refine .node ?_
  rwa [List.flatten_singleton]

/-- Parts that are shown one by one. -/
theorem forall₂_map_shows {α : Type} {outline : α → Outline} {tree : α → ElementTree}
    {as : List α} (h : ∀ a ∈ as, (outline a).Shows (tree a)) :
    List.Forall₂ Shows (as.map outline) (as.map tree) := by
  rw [List.forall₂_map_left_iff, List.forall₂_map_right_iff, List.forall₂_same]
  exact h

/-- A part that may be missing. -/
theorem forall₂_option_shows {α : Type} {outline : α → Outline} {tree : α → ElementTree}
    (h : ∀ a, (outline a).Shows (tree a)) (o : Option α) :
    List.Forall₂ Shows (o.map outline).toList (o.map tree).toList := by
  rw [Option.toList_map, Option.toList_map]
  exact forall₂_map_shows fun a _ => h a

end Outline

open Outline (Shows forall₂_map_shows forall₂_option_shows)

theorem Call.shows (c : Call) : c.outline.Shows c.tree := Outline.shows_leaf (.call c)

theorem SetupItem.shows (i : SetupItem) : i.outline.Shows i.tree := by
  refine .single (e := .setupItem i) ?_
  rcases i.task with _ | _ | c
  · exact .nil
  · exact .nil
  · exact .cons c.shows .nil

theorem Setup.shows (s : Setup) : s.outline.Shows s.tree := by
  refine .single (e := .setup s) ?_
  rcases s.body with _ | _ | _ | c | items
  · exact .nil
  · exact .nil
  · exact .nil
  · exact .cons c.shows .nil
  · exact forall₂_map_shows fun i _ => i.shows

theorem Teardown.shows (t : Teardown) : t.outline.Shows t.tree := Outline.shows_leaf (.teardown t)

/-- An entry of a map shows its value. -/
theorem Entry.shows {span : Span} {v : Value} (h : v.outline.Shows v.tree) :
    (Outline.node span [[v.outline]]).Shows v.tree := by
  intro htidy
  cases htidy with
  | node order below inside sorted apart =>
    obtain ⟨hnested, hwithin⟩ :=
      h (below [v.outline] List.mem_cons_self v.outline List.mem_cons_self)
    have hinside := inside [v.outline] List.mem_cons_self v.outline List.mem_cons_self
    exact ⟨hnested, hwithin.trans (Span.within_of_encloses hinside)⟩

mutual

theorem Value.shows (v : Value) : v.outline.Shows v.tree := by
  cases v with
  | literal info l =>
    rw [outline, tree]
    exact Outline.shows_leaf (.value (.literal info l))
  | list info values =>
    rw [outline, tree]
    exact .single (e := .value (.list info values)) (shows_ofList values)
  | map info entries =>
    rw [outline, tree]
    exact .single (e := .value (.map info entries)) (shows_ofEntries entries)

theorem Value.shows_ofList (values : List Value) :
    List.Forall₂ Shows (outlinesOfList values) (treesOfList values) := by
  cases values with
  | nil => exact .nil
  | cons v values => exact .cons v.shows (shows_ofList values)

theorem Value.shows_ofEntries (entries : List (Entry Value)) :
    List.Forall₂ Shows (outlinesOfEntries entries) (treesOfEntries entries) := by
  match entries with
  | [] => exact .nil
  | ⟨_, v, _⟩ :: entries => exact .cons (Entry.shows v.shows) (shows_ofEntries entries)

end

theorem Statement.shows (s : Statement) : s.outline.Shows s.tree :=
  .single (e := .statement s) (forall₂_option_shows Value.shows s.value)

theorem Assertion.shows (a : Assertion) : a.outline.Shows a.tree := by
  refine .node (e := .assertion a) ?_
  rw [parts, List.flatten_cons, List.flatten_singleton, branches]
  refine List.rel_append ?_ (forall₂_map_shows fun e _ => Outline.shows_leaf (.expr e))
  rcases a.query with _ | _ | c
  · exact .nil
  · exact .nil
  · exact .cons c.shows .nil

theorem Test.shows (t : Test) : t.outline.Shows t.tree := by
  refine .node (e := .test t) ?_
  rw [parts, List.flatten_cons, List.flatten_cons, List.flatten_singleton, branches,
    List.append_assoc]
  exact List.rel_append (forall₂_option_shows Setup.shows _) (List.rel_append
    (forall₂_map_shows fun s _ => s.shows) (forall₂_map_shows fun a _ => a.shows))

theorem shows_bodyParts {items : List Item} (h : ∀ i ∈ items, i.outline.Shows i.tree)
    (setup : Option Setup) (teardown : Option Teardown) :
    List.Forall₂ Shows (bodyParts setup teardown items).flatten
      (bodyBranches setup teardown items) := by
  rw [bodyParts, List.flatten_cons, List.flatten_cons, List.flatten_singleton, bodyBranches,
    List.append_assoc]
  exact List.rel_append (forall₂_option_shows Setup.shows _)
    (List.rel_append (forall₂_option_shows Teardown.shows _) (forall₂_map_shows h))

mutual

theorem Item.shows (i : Item) : i.outline.Shows i.tree := by
  cases i with
  | test t =>
    rw [outline, tree]
    exact t.shows
  | group g items =>
    rw [outline_group, tree_group]
    exact .node (e := .group g items) (shows_bodyParts (forall_shows items) g.setup g.teardown)

theorem Item.forall_shows (items : List Item) : ∀ i ∈ items, i.outline.Shows i.tree := by
  cases items with
  | nil => exact List.forall_mem_nil _
  | cons i items => exact List.forall_mem_cons.2 ⟨i.shows, forall_shows items⟩

end

theorem Scope.shows (s : Scope) : s.outline.Shows s.tree :=
  .node (e := .scope s) (shows_bodyParts (fun i _ => i.shows) s.setup s.teardown)

theorem Suite.shows (s : Suite) : s.outline.Shows s.tree := by
  refine .node (e := .suite s) ?_
  rw [parts, List.flatten_cons, List.flatten_cons, List.flatten_cons, List.flatten_cons,
    List.flatten_singleton, branches, List.append_assoc, List.append_assoc, List.append_assoc]
  refine List.rel_append (forall₂_map_shows fun i _ => Outline.shows_leaf (.importClause i)) ?_
  refine List.rel_append (forall₂_map_shows fun q _ => Outline.shows_leaf (.query q)) ?_
  refine List.rel_append (forall₂_option_shows Setup.shows _) ?_
  refine List.rel_append (forall₂_option_shows Teardown.shows _) ?_
  exact forall₂_map_shows fun c _ => c.shows

/-! ## Suites that were read -/

/-- The tree of a suite that was read is nested. -/
theorem parse_nested {mode : Grammar.Mode} {source : String} {suite : Suite}
    (h : (parse mode source).suite = some suite) : suite.tree.Nested := by
  obtain ⟨met, hrecovery, -⟩ := Grammar.exists_parse_recovery h
  obtain ⟨suite', met', hrun, htidy⟩ := Grammar.parse_recovery_tidy source
  rw [hrecovery] at hrun
  cases hrun
  exact (suite.shows htidy).1

/-- An element that was read, or that stands for a skipped member, is not empty. -/
theorem Grammar.Origin.isBefore {eof : Token} {source : String} {e : Element}
    (h : Origin eof (Stream.ofSource source).pieces e) :
    e.span.start.isBefore e.span.stop = true := by
  -- The first token is not empty, and what is used up behind it ends no earlier.
  obtain ⟨p, rest, used, stop, c, suffix, reads, hspan⟩ := h.exists_reads
  have hmem : p ∈ (Stream.ofSource source).pieces := suffix.subset List.mem_cons_self
  obtain ⟨m, -, laid⟩ := (Stream.laid_ofSource source).exists_of_append
  have htoken : p.token.start.isBefore p.token.stop = true :=
    (laid.bounds (List.mem_flatMap.2 ⟨p, hmem, List.mem_cons_self⟩)).2.1
  obtain ⟨stop', hahead⟩ := Stream.exists_ahead suffix
  have hordered : (⟨p :: rest, stop'⟩ : Cursor eof).Ordered := hahead
  have hreads : (.after p rest : Cursor eof).Reads used c :=
    ⟨(List.cons.inj reads.rest_eq).2, reads.stop_eq⟩
  rw [hspan]
  exact Position.isBefore_of_isBefore_of_atOrBefore htoken (hordered.after.reads hreads).1

/-- No element below a suite that was read is empty. -/
theorem parse_nonempty {mode : Grammar.Mode} {source : String} {suite : Suite}
    (h : (parse mode source).suite = some suite) {e : Element} (he : e ∈ suite.elements)
    (hne : e ≠ .suite suite) : e.span.start.isBefore e.span.stop = true :=
  ((Grammar.parse_traced h e he).resolve_left hne).isBefore

/-! ## Places of clauses and tests -/

/-- What stands apart and is not empty has different places. -/
theorem nodup_map_of_pairwise_apart {α : Type} {span : α → Span} {l : List α}
    (hapart : l.Pairwise fun a b => (span a).Apart (span b))
    (hfull : ∀ a ∈ l, (span a).start.isBefore (span a).stop = true) : (l.map span).Nodup := by
  rw [List.Nodup, List.pairwise_map]
  exact hapart.imp_of_mem fun ha _ hab => hab.ne (hfull _ ha)

theorem pairwise_apart_of_sublist {α : Type} {tree : α → ElementTree} {as : List α}
    {branches : List ElementTree} (hsub : (as.map tree).Sublist branches)
    (h : branches.Pairwise fun a b => a.span.Apart b.span) :
    as.Pairwise fun a b => (tree a).span.Apart (tree b).span := by
  have hmap := h.sublist hsub
  rwa [List.pairwise_map] at hmap

/-- The members of a nested scope or group. -/
theorem ElementTree.Nested.items {e : Element} {setup : Option Setup} {teardown : Option Teardown}
    {items : List Item} (h : (ElementTree.node e (bodyBranches setup teardown items)).Nested) :
    (∀ i ∈ items, i.tree.Nested ∧ i.tree.span.Within e.span) ∧
      items.Pairwise fun a b => a.tree.span.Apart b.tree.span := by
  have hsub : (items.map Item.tree).Sublist (bodyBranches setup teardown items) :=
    List.sublist_append_right _ _
  cases h with
  | node below inside apart =>
    refine ⟨fun i hi => ?_, pairwise_apart_of_sublist hsub apart⟩
    have hmem := hsub.subset (List.mem_map_of_mem hi)
    exact ⟨below _ hmem, inside _ hmem⟩

mutual

/-- The tests of a member lie within it and stand apart. -/
theorem Item.tests_apart (scope : String) (groups : List String) (i : Item)
    (h : i.tree.Nested) :
    (∀ s ∈ i.tests scope groups, s.span.Within i.tree.span) ∧
      (i.tests scope groups).Pairwise fun a b => a.span.Apart b.span := by
  cases i with
  | test t =>
    rw [tests]
    exact ⟨List.forall_mem_singleton.2 (.refl _), List.pairwise_singleton _ _⟩
  | group g items =>
    rw [tree_group] at h ⊢
    rw [tests]
    obtain ⟨hitems, hapart⟩ := h.items
    obtain ⟨hmem, hpairwise⟩ := testsOfList_apart scope (groups ++ [g.name]) items
      (fun i hi => (hitems i hi).1) hapart
    refine ⟨fun s hs => ?_, hpairwise⟩
    obtain ⟨i, hi, hwithin⟩ := hmem s hs
    exact hwithin.trans (hitems i hi).2

theorem Item.testsOfList_apart (scope : String) (groups : List String) (items : List Item)
    (h : ∀ i ∈ items, i.tree.Nested)
    (hapart : items.Pairwise fun a b => a.tree.span.Apart b.tree.span) :
    (∀ s ∈ testsOfList scope groups items, ∃ i ∈ items, s.span.Within i.tree.span) ∧
      (testsOfList scope groups items).Pairwise fun a b => a.span.Apart b.span := by
  cases items with
  | nil => exact ⟨List.forall_mem_nil _, .nil⟩
  | cons i items =>
    obtain ⟨hi, h⟩ := List.forall_mem_cons.1 h
    obtain ⟨hbeside, hapart⟩ := List.pairwise_cons.1 hapart
    obtain ⟨hfirst, hpairwise⟩ := tests_apart scope groups i hi
    obtain ⟨hrest, hpairwise'⟩ := testsOfList_apart scope groups items h hapart
    rw [testsOfList]
    refine ⟨List.forall_mem_append.2 ⟨fun s hs => ?_, fun s hs => ?_⟩,
      List.pairwise_append.2 ⟨hpairwise, hpairwise', fun s hs s' hs' => ?_⟩⟩
    · exact ⟨i, List.mem_cons_self, hfirst s hs⟩
    · obtain ⟨j, hj, hwithin⟩ := hrest s hs
      exact ⟨j, List.mem_cons_of_mem i hj, hwithin⟩
    · obtain ⟨j, hj, hwithin⟩ := hrest s' hs'
      exact (hbeside j hj).mono (hfirst s hs) hwithin

end

/-- The tests of a scope lie within it and stand apart. -/
theorem Scope.tests_apart (c : Scope) (h : c.tree.Nested) :
    (∀ s ∈ Item.testsOfList c.query [] c.items, s.span.Within c.tree.span) ∧
      (Item.testsOfList c.query [] c.items).Pairwise fun a b => a.span.Apart b.span := by
  rw [tree] at h ⊢
  obtain ⟨hitems, hapart⟩ := h.items
  obtain ⟨hmem, hpairwise⟩ :=
    Item.testsOfList_apart c.query [] c.items (fun i hi => (hitems i hi).1) hapart
  refine ⟨fun s hs => ?_, hpairwise⟩
  obtain ⟨i, hi, hwithin⟩ := hmem s hs
  exact hwithin.trans (hitems i hi).2

/-- A test among those of a suite is an element of its tree. -/
theorem Suite.exists_of_mem_tests {s : Suite} {t : TestSymbol} (h : t ∈ s.tests) :
    ∃ u, .test u ∈ s.elements ∧ t.span = u.span := by
  obtain ⟨y, hy, htest⟩ := List.mem_filterMap.1 h
  have hmem : y.2 ∈ s.elements := by
    rw [elements, ← ElementTree.map_snd_places]
    exact List.mem_map_of_mem hy
  generalize y.2 = e at htest hmem
  cases e with
  | test u =>
    obtain ⟨scope, -, rfl⟩ := Option.map_eq_some_iff.1 htest
    exact ⟨u, hmem, rfl⟩
  | _ => cases htest

section Read

variable {mode : Grammar.Mode} {source : String} {suite : Suite}
  (h : (parse mode source).suite = some suite)

include h

/-- The clauses and scopes of a suite that was read stand apart. -/
theorem parse_branches_apart :
    (∀ t ∈ suite.branches, t.Nested) ∧
      suite.branches.Pairwise fun a b => a.span.Apart b.span := by
  have hnested := parse_nested h
  rw [Suite.tree] at hnested
  cases hnested with
  | node below inside apart => exact ⟨below, apart⟩

/-- Clauses without parts have different places. -/
theorem nodup_spans_of_sublist {α : Type} {f : α → Element} {as : List α}
    (hsub : (as.map fun a => ElementTree.node (f a) []).Sublist suite.branches)
    (hne : ∀ a, f a ≠ .suite suite) : (as.map fun a => (f a).span).Nodup := by
  refine nodup_map_of_pairwise_apart ?_ fun a ha => ?_
  · exact pairwise_apart_of_sublist hsub (parse_branches_apart h).2
  · refine parse_nonempty h ?_ (hne a)
    rw [Suite.elements, Suite.tree, ElementTree.elements_node]
    refine List.mem_cons_of_mem _ (List.mem_flatMap.2 ⟨_, hsub.subset (List.mem_map_of_mem ha), ?_⟩)
    exact List.mem_cons_self

/-- The imports of a suite that was read have different places. -/
theorem nodup_spans_imports : (suite.imports.map (·.span)).Nodup := by
  refine nodup_spans_of_sublist h (f := .importClause) ?_ (by simp)
  rw [Suite.branches, List.append_assoc, List.append_assoc, List.append_assoc]
  exact List.sublist_append_left _ _

/-- The queries of a suite that was read have different places. -/
theorem nodup_spans_queries : (suite.queries.map (·.span)).Nodup := by
  refine nodup_spans_of_sublist h (f := .query) ?_ (by simp)
  rw [Suite.branches, List.append_assoc, List.append_assoc]
  exact (List.sublist_append_right _ _).trans (List.sublist_append_left _ _)

/-- The tests of a suite that was read have different places. -/
theorem nodup_spans_tests : (suite.tests.map (·.span)).Nodup := by
  refine nodup_map_of_pairwise_apart ?_ fun t ht => ?_
  · obtain ⟨hnested, hapart⟩ := parse_branches_apart h
    have hsub : (suite.scopes.map Scope.tree).Sublist suite.branches :=
      List.sublist_append_right _ _
    rw [Suite.tests_eq_flatMap, List.pairwise_flatMap]
    have hscope (c : Scope) (hc : c ∈ suite.scopes) :=
      c.tests_apart (hnested _ (hsub.subset (List.mem_map_of_mem hc)))
    refine ⟨fun c hc => (hscope c hc).2, ?_⟩
    refine (pairwise_apart_of_sublist hsub hapart).imp_of_mem ?_
    intro c c' hc hc' hbeside s hs s' hs'
    exact hbeside.mono ((hscope c hc).1 s hs) ((hscope c' hc').1 s' hs')
  · obtain ⟨u, hmem, hspan⟩ := Suite.exists_of_mem_tests ht
    rw [hspan]
    exact parse_nonempty h (e := .test u) hmem (by simp)

end Read

end QuerySuite
