import Mathlib
import QuerySuite.Proofs.Attachment
import QuerySuite.Proofs.Separation

/-!
# The node that a trailing comment goes to

A trailing comment goes to the first node, in the order of the tree, that ends on its line before
it. As nodes nest or stand apart, the others that end there are parts of this node or stand apart
from it. So this node is the nearest one iff no other stands between it and the comment; where
several stand on the line, it need not be.

Results:

* `Trails.within_or_apart`: the nodes that end before a comment on its line.
* `trailing_comment_nearest_iff`: when the nearest node gets the comment.
* `trailing_comment_not_nearest`: a comment that does not go to the nearest node.
-/

namespace QuerySuite

/-! ## The nodes of a suite that was read -/

/-- The nodes below a suite are no suites. -/
theorem Suite.exists_of_mem_places {s : Suite} {p : Span} (h : p ∈ s.places) :
    ∃ e ∈ s.elements, e ≠ .suite s ∧ e.span = p := by
  obtain ⟨n, hn, rfl⟩ := List.mem_map.1 h
  have hmem : n ∈ s.nodes := List.mem_cons_of_mem _ hn
  rw [← s.map_node_elements] at hmem
  obtain ⟨e, he, rfl⟩ := List.mem_map.1 hmem
  refine ⟨e, he, ?_, rfl⟩
  rintro rfl
  exact (s.edits (f := fun n (_ : Unit) => (n.info.comments, ())) ()).2.2.2 _ hn rfl

section Read

variable {mode : Grammar.Mode} {source : String} {suite : Suite}
  (h : (parse mode source).suite = some suite)

include h

theorem parse_places_pairwise :
    suite.places.Pairwise fun a b => b.Within a ∨ a.Apart b := by
  have hpairwise := (parse_nested h).pairwise_elements
  rw [← List.pairwise_map (f := Element.span) (R := fun a b => b.Within a ∨ a.Apart b)] at hpairwise
  have hspans : suite.tree.elements.map Element.span = suite.span :: suite.places :=
    suite.spans_tree
  rw [hspans] at hpairwise
  exact hpairwise.of_cons

theorem parse_places_isRangeOf {p : Span} (hp : p ∈ suite.places) : p.IsRangeOf source :=
  (Grammar.parse_suite_located h).spans p (List.mem_cons_of_mem _ hp)

/-- A node of a document takes up some of its bytes. -/
theorem parse_places_offset_lt {p : Span} (hp : p ∈ suite.places) :
    p.start.offset < p.stop.offset := by
  have hrange := parse_places_isRangeOf h hp
  obtain ⟨e, he, hne, rfl⟩ := Suite.exists_of_mem_places hp
  exact hrange.start.offset_lt hrange.stop (parse_nonempty h he hne)

end Read

/-- A comment stands at a range of the document. -/
theorem isRangeOf_of_isComment {mode : Grammar.Mode} {source : String} {c : Trivia}
    (hc : c ∈ (parse mode source).trivia.filter (·.isComment)) : c.span.IsRangeOf source := by
  have hspan : c.span ∈ ((parse mode source).trivia.filter (·.isComment)).map (·.span) :=
    List.mem_map_of_mem hc
  rw [parse_trivia, Trivia.collect, Trivia.map_span_collectFrom] at hspan
  obtain ⟨t, ht, hspan⟩ := List.mem_map.1 hspan
  rw [← hspan]
  exact Token.isRangeOf_span (List.mem_filter.1 ht).1

/-! ## Nodes beside a comment -/

/-- What ends on the line of a comment before it is part of the place that the comment trails, or
stands apart from it. -/
theorem Trails.within_or_apart {places : List Span} {i : Nat} {c : Trivia} {p q : Span}
    (hplaces : places.Pairwise fun a b => b.Within a ∨ a.Apart b) (h : Trails places i c)
    (hp : places[i]? = some p) (hq : q ∈ places) (hends : q.EndsBefore c) :
    q.Within p ∨ p.Apart q := by
  obtain ⟨j, hj, rfl⟩ := List.getElem_of_mem hq
  obtain ⟨hi, rfl⟩ := List.getElem?_eq_some_iff.1 hp
  rcases Nat.lt_trichotomy j i with hlt | rfl | hlt
  · -- The comment would trail the place at `j`, which comes first.
    have hmem : places[j] ∈ places.take i := by
      rw [List.mem_take_iff_getElem]
      exact ⟨j, by omega, rfl⟩
    exact absurd hends (h.2 _ hmem)
  · exact .inl (.refl _)
  · exact List.pairwise_iff_getElem.1 hplaces i j hi hj hlt

/-- Between an end and a comment on the same line, all places are on that line. -/
theorem Span.EndsBefore.of_le {source : String} {c : Trivia} {p q : Span} (h : p.EndsBefore c)
    (hp : p.stop.IsPlaceOf source) (hq : q.stop.IsPlaceOf source)
    (hc : c.span.start.IsPlaceOf source) (hpq : p.stop.offset ≤ q.stop.offset)
    (hqc : q.stop.offset ≤ c.span.start.offset) : q.EndsBefore c := by
  have hle := hp.atOrBefore_of_offset_le hq hpq
  have hle' := hq.atOrBefore_of_offset_le hc hqc
  unfold Position.AtOrBefore at hle hle'
  obtain ⟨hline, -⟩ := h
  exact ⟨by omega, hqc⟩

/-- The node at `p`, which the comment trails, among the nodes at `places`. -/
structure NearestIff (places : List Span) (c : Trivia) (p : Span) : Prop where
  /-- It ends on the line of the comment, before it. -/
  ends : p.EndsBefore c
  /-- The others that end there are parts of it or stand apart from it. -/
  beside : ∀ q ∈ places, q.EndsBefore c → q.Within p ∨ p.Apart q
  /-- No node ends between it and the comment iff none stands there as a whole. -/
  between : (∀ q ∈ places,
      ¬(p.stop.offset < q.stop.offset ∧ q.stop.offset < c.span.start.offset)) ↔
    ∀ q ∈ places, ¬(p.stop.offset ≤ q.start.offset ∧ q.stop.offset < c.span.start.offset)
  /-- It is the last one to end before the comment iff no other stands behind it on that line. -/
  last : (∀ q ∈ places, q.EndsBefore c → q.stop.offset ≤ p.stop.offset) ↔
    ∀ q ∈ places, q.EndsBefore c → ¬p.stop.offset ≤ q.start.offset

section Read

variable {mode : Grammar.Mode} {source : String} {suite : Suite}
  (h : (parse mode source).suite = some suite)

include h

/-- What ends later than the node that a comment trails, and not behind the start of the comment,
stands between the two. -/
theorem stop_lt_iff_le_start {i : Nat} {c : Trivia} {p q : Span}
    (hc : c ∈ (parse mode source).trivia.filter (·.isComment)) (htrails : Trails suite.places i c)
    (hp : suite.places[i]? = some p) (hends : p.EndsBefore c) (hq : q ∈ suite.places)
    (hle : q.stop.offset ≤ c.span.start.offset) :
    p.stop.offset < q.stop.offset ↔ p.stop.offset ≤ q.start.offset := by
  have hprange := parse_places_isRangeOf h (List.mem_of_getElem? hp)
  have hqrange := parse_places_isRangeOf h hq
  constructor
  · intro hlt
    have hqends := hends.of_le hprange.stop hqrange.stop (isRangeOf_of_isComment hc).start
      (Nat.le_of_lt hlt) hle
    -- A part of `p` or a node before it cannot end behind it.
    rcases htrails.within_or_apart (parse_places_pairwise h) hp hq hqends with
      hwithin | hbehind | hfront
    · have := hqrange.stop.offset_le hprange.stop hwithin.stop
      omega
    · exact hprange.stop.offset_le hqrange.start hbehind
    · have := hqrange.stop.offset_le hprange.start hfront
      have := hprange.le
      omega
  · intro hstart
    have := parse_places_offset_lt h hq
    omega

theorem Trails.nearestIff {i : Nat} {c : Trivia} {p : Span}
    (hc : c ∈ (parse mode source).trivia.filter (·.isComment)) (htrails : Trails suite.places i c)
    (hp : suite.places[i]? = some p) : NearestIff suite.places c p := by
  have hends : p.EndsBefore c := by
    obtain ⟨p', hp', hends⟩ := htrails.1
    rwa [← Option.some_inj.1 (hp.symm.trans hp')] at hends
  refine ⟨hends, fun q hq => htrails.within_or_apart (parse_places_pairwise h) hp hq, ?_, ?_⟩
  · refine forall₂_congr fun q hq => not_congr (and_congr_left fun hlt => ?_)
    exact stop_lt_iff_le_start h hc htrails hp hends hq (Nat.le_of_lt hlt)
  · refine forall₂_congr fun q hq => forall_congr' fun hqends => ?_
    rw [← stop_lt_iff_le_start h hc htrails hp hends hq hqends.2, Nat.not_lt]

/-- Attaching comments leaves the nodes at their places. -/
theorem getElem?_places_of_attachComments {i : Nat} {n : Node} {trivia : List Trivia}
    (hn : (suite.attachComments trivia).children[i]? = some n) :
    suite.places[i]? = some n.info.span := by
  have hnodes := congrArg List.tail (nodes_attachComments (parse_bare h) trivia)
  have hchildren : (suite.attachComments trivia).children.map (·.relabel .bare) = suite.children :=
    hnodes
  rw [Suite.places, ← hchildren, List.getElem?_map, List.getElem?_map, hn]
  rfl

end Read

/-- A comment that a node of the document has behind it is one of the document, and trails the
node. The node is the nearest one iff no other stands between the two. -/
theorem trailing_comment_nearest_iff {mode : Grammar.Mode} {source : String} {suite : Suite}
    (h : (parse mode source).suite = some suite) {i : Nat} {n : Node} {text : String}
    (hn : (suite.attachComments (parse mode source).trivia).children[i]? = some n)
    (htext : n.info.comments.trailing = some text) :
    ∃ c ∈ (parse mode source).trivia, c.isComment = true ∧ c.body = text ∧
      NearestIff suite.places c n.info.span := by
  rw [comments_of_attachComments (parse_bare h) hn] at htext
  obtain ⟨c, hc, hbody⟩ := List.mem_map.1 (List.mem_of_getLast? htext)
  obtain ⟨hc, htrails⟩ := List.mem_filter.1 hc
  refine ⟨c, (List.mem_filter.1 hc).1, (List.mem_filter.1 hc).2, hbody, ?_⟩
  exact (of_decide_eq_true htrails).nearestIff h hc (getElem?_places_of_attachComments h hn)

/-- The setup is the only node before the comment. -/
theorem trailing_comment_nearest_iff_setup :
    ∃ suite n, (parse .strict "setup m // b").suite = some suite ∧
      (suite.attachComments (parse .strict "setup m // b").trivia).children[0]? = some n ∧
      n.info.comments.trailing = some "b" ∧
      ∃ c ∈ (parse .strict "setup m // b").trivia, c.isComment = true ∧ c.body = "b" ∧
        NearestIff suite.places c n.info.span := by
  have hrun : (fun p : Parsed => p.suite.bind fun suite =>
      (suite.attachComments p.trivia).children[0]?.map (·.info.comments.trailing))
        (parse .strict "setup m // b") = some (some "b") := by cbv
  obtain ⟨suite, hsuite, hnode⟩ := Option.bind_eq_some_iff.1 hrun
  obtain ⟨n, hn, htext⟩ := Option.map_eq_some_iff.1 hnode
  exact ⟨suite, n, hsuite, hn, htext, trailing_comment_nearest_iff hsuite hn htext⟩

/-- Two imports stand before a comment on its line. It goes to the first, though the second ends
between the two. -/
theorem trailing_comment_not_nearest :
    ∃ suite n, (parse .strict "import a \"x\" import b \"y\" // c").suite = some suite ∧
      (suite.attachComments
        (parse .strict "import a \"x\" import b \"y\" // c").trivia).children[0]? = some n ∧
      n.info.comments.trailing = some "c" ∧
      ∃ c ∈ (parse .strict "import a \"x\" import b \"y\" // c").trivia,
        c.isComment = true ∧ c.body = "c" ∧ ∃ p ∈ suite.places, p.EndsBefore c ∧
          n.info.span.stop.offset < p.stop.offset ∧ p.stop.offset < c.span.start.offset := by
  have hrun : (fun p : Parsed => p.suite.bind fun suite =>
      (suite.attachComments p.trivia).children[0]?.bind fun n => suite.places[1]?.bind fun q =>
        p.trivia.getLast?.map fun c => (n.info.comments.trailing, n.info.span.stop.offset, q.stop,
          c.isComment, c.body, c.span.start))
      (parse .strict "import a \"x\" import b \"y\" // c") =
        some (some "c", 12, ⟨1, 26, 25⟩, true, "c", ⟨1, 27, 26⟩) := by cbv
  obtain ⟨suite, hsuite, hrun⟩ := Option.bind_eq_some_iff.1 hrun
  obtain ⟨n, hn, hrun⟩ := Option.bind_eq_some_iff.1 hrun
  obtain ⟨q, hq, hrun⟩ := Option.bind_eq_some_iff.1 hrun
  obtain ⟨c, hc, hrun⟩ := Option.map_eq_some_iff.1 hrun
  simp only [Prod.mk.injEq] at hrun
  obtain ⟨htext, hn', hq', hcomment, hbody, hc'⟩ := hrun
  refine ⟨suite, n, hsuite, hn, htext, c, List.mem_of_getLast? hc, hcomment, hbody, q,
    List.mem_of_getElem? hq, ?_⟩
  rw [Span.EndsBefore, hn', hq', hc']
  decide

end QuerySuite
