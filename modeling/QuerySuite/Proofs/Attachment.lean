import Mathlib
import QuerySuite.Proofs.CommentMaps
import QuerySuite.Proofs.Layouts

/-!
# Comments of nodes

Every comment of a document that speaks of a node goes to that node, once, and nothing else changes.
A node has at most one trailing comment, since no two comments stand on one line.

Results:

* `parse_bare`: the nodes that are read have no comments.
* `comments_on_lines_of_parse`: each comment stands on a later line than those before it.
* `map_comments_attachComments`: the comments of each node.
* `length_flatMap_noted`: how many comments are attached.
* `comments_attach_once`: where every comment goes.
-/

namespace QuerySuite

/-! ## Suites without comments -/

/-- Forgets comments and nothing else. -/
def Relabel.bare : Relabel where
  info i := { i with comments := {} }

/-- The suite without its comments. -/
def Suite.withoutComments (s : Suite) : Suite := s.relabel .bare

/-- The nodes of a suite that was read have no comments. -/
theorem parse_bare {mode : Grammar.Mode} {source : String} {suite : Suite}
    (h : (parse mode source).suite = some suite) : ∀ n ∈ suite.nodes, n.info.comments = {} := by
  have hsame := (parse_alike mode (rfl : Token.lineMarks none
    (Token.beforeEnd (Token.scan source)) = _)).1
  rw [h, Option.map_some, Option.map_some, Option.some_inj] at hsame
  have hnodes := congrArg Suite.nodes hsame
  rw [Suite.nodes_relabel, Suite.nodes_relabel] at hnodes
  intro n hn
  have hinfo := congrArg Node.info (List.map_inj_left.1 hnodes n hn)
  exact congrArg NodeInfo.comments hinfo

/-! ## The comments of a source -/

theorem Trivia.map_span_collectFrom (newlines : Nat) (tokens : List Token) :
    ((collectFrom newlines tokens).filter (·.isComment)).map (·.span) =
      (tokens.filter (·.kind == .comment)).map (·.span) := by
  induction tokens generalizing newlines with
  | nil => rfl
  | cons t tokens ih =>
    rcases t with ⟨kind, text, start⟩
    cases kind
    case whitespace => exact ih _
    case comment => exact congrArg (List.cons _) (ih 0)
    all_goals exact ih 0

theorem parse_trivia (mode : Grammar.Mode) (source : String) :
    (parse mode source).trivia = Trivia.collect (Token.scan source) := by
  unfold parse
  dsimp only
  cases Grammar.parse mode (Token.scan source) <;> rfl

/-- Each comment of a document stands on a later line than those before it. -/
theorem comments_on_lines_of_parse (mode : Grammar.Mode) (source : String) :
    ((parse mode source).trivia.filter (·.isComment)).Pairwise
      fun c d => c.span.start.line < d.span.start.line := by
  have hlines := Token.comments_on_lines source
  have hspans := Trivia.map_span_collectFrom 0 (Token.scan source)
  rw [parse_trivia, ← List.pairwise_map (f := Trivia.span)
    (R := fun p q : Span => p.start.line < q.start.line), Trivia.collect, hspans, List.pairwise_map]
  exact hlines

/-- A node has at most one trailing comment. -/
theorem length_filter_trails_le {comments : List Trivia}
    (h : comments.Pairwise fun c d => c.span.start.line < d.span.start.line) (places : List Span)
    (i : Nat) : (comments.filter (Trails places i ·)).length ≤ 1 := by
  have hlines := h.filter (Trails places i ·)
  have htrails : ∀ c ∈ comments.filter (Trails places i ·), Trails places i c := by simp
  generalize comments.filter (Trails places i ·) = trailing at hlines htrails ⊢
  rcases trailing with _ | ⟨c, _ | ⟨d, rest⟩⟩
  · exact Nat.zero_le _
  · exact Nat.le_refl _
  · -- Both stand on the line where the place ends.
    obtain ⟨⟨p, hp, hc, -⟩, -⟩ := htrails c List.mem_cons_self
    obtain ⟨⟨q, hq, hd, -⟩, -⟩ := htrails d (by simp)
    obtain rfl : p = q := Option.some_inj.1 (hp.symm.trans hq)
    have hlt := List.rel_of_pairwise_cons hlines List.mem_cons_self
    omega

theorem toList_getLast?_of_length_le {α : Type} {l : List α} (h : l.length ≤ 1) :
    l.getLast?.toList = l := by
  rcases l with _ | ⟨a, _ | ⟨b, l⟩⟩
  · rfl
  · rfl
  · simp at h

/-! ## Attached comments -/

/-- The places of the nodes below a suite, in the order of the walk. -/
def Suite.places (s : Suite) : List Span := s.children.map (·.info.span)

/-- The node at each index has the comments that speak of it. -/
theorem map_comments_attachComments {suite : Suite}
    (hbare : ∀ n ∈ suite.nodes, n.info.comments = {}) (trivia : List Trivia) :
    (suite.attachComments trivia).children.map (·.info.comments) =
      (List.range suite.children.length).map
        (noted suite.places (trivia.filter (·.isComment))) := by
  obtain ⟨-, hchildren, -, hbelow⟩ :=
    suite.edits (f := takeComments) (commentMap suite.places trivia)
  have hnodes : ∀ n ∈ suite.children, n.kind ≠ .suite ∧ n.info.comments = {} := fun n hn =>
    ⟨hbelow n hn, hbare n (List.mem_cons_of_mem _ hn)⟩
  have hnodup : (commentMap suite.places trivia).places.Nodup :=
    nodup_foldl_noteComment suite.places (trivia.filter (·.isComment))
  unfold Suite.attachComments
  dsimp only
  refine (congrArg (List.map (·.info.comments)) hchildren).trans ?_
  refine (map_comments_editAll hnodup hnodes).trans (List.map_congr_left fun i hi => ?_)
  have hlt : i < suite.places.length := by
    rw [Suite.places, List.length_map]
    exact List.mem_range.1 hi
  have hplace := List.getElem?_eq_getElem hlt
  calc (commentMap suite.places trivia).handed suite.places i
      = if suite.places[i] ∈ suite.places.take i then {}
        else (commentMap suite.places trivia).commentsAt suite.places[i] := by
        rw [CommentMap.handed, hplace, Option.elim_some]
    _ = noted suite.places (trivia.filter (·.isComment)) i :=
        commentsAt_eq_noted suite.places _ hplace

/-! ## How many comments are attached -/

/-- The comments of a node, in a row. -/
def Comments.all (c : Comments) : List String := c.leading ++ c.trailing.toList

/-- The comment speaks of the place at the index `i`. -/
abbrev SpeaksOf (places : List Span) (i : Nat) (c : Trivia) : Prop :=
  Trails places i c ∨ Leads places i c

theorem Trails.not_leads {places : List Span} {i j : Nat} {c : Trivia} (h : Trails places i c) :
    ¬ Leads places j c := by
  obtain ⟨⟨p, hp, hends⟩, -⟩ := h
  exact fun hleads => hleads.1 p (List.mem_of_getElem? hp) hends

theorem SpeaksOf.unique {places : List Span} {i j : Nat} {c : Trivia} (hi : SpeaksOf places i c)
    (hj : SpeaksOf places j c) : i = j := by
  rcases hi with hi | hi <;> rcases hj with hj | hj
  · exact (pointsAt_trailing places c).unique hi hj
  · exact absurd hj hi.not_leads
  · exact absurd hi hj.not_leads
  · exact (pointsAt_leading places c).unique hi hj

theorem exists_speaksOf_iff (places : List Span) (c : Trivia) :
    (∃ i ∈ List.range places.length, SpeaksOf places i c) ↔
      ∃ p ∈ places, p.EndsBefore c ∨ p.StartsAfter c := by
  constructor
  · rintro ⟨i, -, ⟨⟨p, hp, hends⟩, -⟩ | ⟨-, p, hp, hclosest⟩⟩
    · exact ⟨p, List.mem_of_getElem? hp, .inl hends⟩
    · exact ⟨p, List.mem_of_getElem? hp, .inr hclosest.after⟩
  · intro h
    have hrange {i : Nat} (hi : ∃ p, places[i]? = some p) : i ∈ List.range places.length := by
      obtain ⟨p, hp⟩ := hi
      exact List.mem_range.2 (List.getElem?_eq_some_iff.1 hp).1
    by_cases hends : ∃ p ∈ places, p.EndsBefore c
    · have hpoints := pointsAt_trailing places c
      obtain ⟨i, hi, -⟩ := hpoints.existsUnique ((isSome_trailingTarget places c).2 hends)
      exact ⟨i, hrange (hpoints.inside i hi), .inl hi⟩
    · have hopen : ∀ p ∈ places, ¬ p.EndsBefore c := fun p hp hp' => hends ⟨p, hp, hp'⟩
      obtain ⟨p, hp, hafter⟩ := h
      have hafter := hafter.resolve_left (hopen p hp)
      have hpoints := pointsAt_leading places c
      obtain ⟨i, hi, -⟩ :=
        hpoints.existsUnique ((isSome_openTarget places c).2 ⟨hopen, p, hp, hafter⟩)
      exact ⟨i, hrange (hpoints.inside i hi), .inr hi⟩

theorem countP_or_of_disjoint {α : Type} {P Q : α → Prop} [DecidablePred P] [DecidablePred Q]
    (h : ∀ a, P a → ¬ Q a) (l : List α) :
    l.countP (fun a => P a ∨ Q a) = l.countP (P ·) + l.countP (Q ·) := by
  induction l with
  | nil => rfl
  | cons a l ih =>
    rw [List.countP_cons, List.countP_cons, List.countP_cons, ih]
    by_cases hP : P a
    · simp [hP, h a hP]
      omega
    · simp [hP]
      omega

/-- A node has as many comments as speak of it. -/
theorem length_all_noted {comments : List Trivia}
    (h : comments.Pairwise fun c d => c.span.start.line < d.span.start.line) (places : List Span)
    (i : Nat) :
    (noted places comments i).all.length = comments.countP fun c => SpeaksOf places i c := by
  have hone : ((comments.filter (Trails places i ·)).map Trivia.body).length ≤ 1 := by
    rw [List.length_map]
    exact length_filter_trails_le h places i
  have hsplit := countP_or_of_disjoint
    (fun c (hc : Trails places i c) => hc.not_leads (j := i)) comments
  rw [hsplit, Comments.all, noted, toList_getLast?_of_length_le hone, List.length_append,
    List.length_map, List.length_map, List.countP_eq_length_filter, List.countP_eq_length_filter,
    Nat.add_comm]

/-- The nodes at the given indices have as many comments as speak of one of them. -/
theorem length_flatMap_noted {comments : List Trivia}
    (h : comments.Pairwise fun c d => c.span.start.line < d.span.start.line) (places : List Span)
    {is : List Nat} (his : is.Nodup) :
    (is.flatMap fun i => (noted places comments i).all).length =
      comments.countP fun c => ∃ i ∈ is, SpeaksOf places i c := by
  induction is with
  | nil => simp
  | cons i is ih =>
    obtain ⟨hi, his⟩ := List.nodup_cons.1 his
    have hdisjoint (c : Trivia) (hc : SpeaksOf places i c) : ¬ ∃ j ∈ is, SpeaksOf places j c := by
      rintro ⟨j, hj, hc'⟩
      rw [hc.unique hc'] at hi
      exact hi hj
    have hsplit := countP_or_of_disjoint hdisjoint comments
    simp only [List.exists_mem_cons_iff]
    rw [List.flatMap_cons, List.length_append, ih his, hsplit, length_all_noted h]

/-! ## Where comments go -/

/-- The suite `attached` is `suite` with the comments among `trivia`, each at the one node below the
suite that it speaks of. -/
structure AttachesOnce (suite : Suite) (trivia : List Trivia) (attached : Suite) : Prop where
  /-- Nothing but comments changes. -/
  rest : attached.withoutComments = suite
  /-- The suite itself has no comments. -/
  root : attached.comments = {}
  /-- The comments stand on later and later lines, so they are in source order. -/
  ordered : (trivia.filter (·.isComment)).Pairwise fun c d => c.span.start.line < d.span.start.line
  /-- A node has the comments that lead it, in their order. -/
  leading : ∀ i n, attached.children[i]? = some n → n.info.comments.leading =
    ((trivia.filter (·.isComment)).filter (Leads suite.places i ·)).map Trivia.body
  /-- A node has the comment that trails it; there are no two, so none is lost. -/
  trailing : ∀ i n, attached.children[i]? = some n → n.info.comments.trailing.toList =
    ((trivia.filter (·.isComment)).filter (Trails suite.places i ·)).map Trivia.body
  /-- A comment that trails a node trails one node and leads none. -/
  trails : ∀ c ∈ trivia.filter (·.isComment), (∃ p ∈ suite.places, p.EndsBefore c) →
    (∃! i, Trails suite.places i c) ∧ ∀ i, ¬ Leads suite.places i c
  /-- Of the others, one with a node after it leads one node. -/
  leads : ∀ c ∈ trivia.filter (·.isComment), (∀ p ∈ suite.places, ¬ p.EndsBefore c) →
    (∃ p ∈ suite.places, p.StartsAfter c) →
      (∃! i, Leads suite.places i c) ∧ ∀ i, ¬ Trails suite.places i c
  /-- The rest is dropped. -/
  dropped : ∀ c ∈ trivia.filter (·.isComment),
    (∀ p ∈ suite.places, ¬ p.EndsBefore c ∧ ¬ p.StartsAfter c) →
      ∀ i, ¬ Trails suite.places i c ∧ ¬ Leads suite.places i c
  /-- As many comments are attached as have a node to speak of. -/
  total : (attached.children.flatMap (·.info.comments.all)).length =
    ((trivia.filter (·.isComment)).filter fun c =>
      ∃ p ∈ suite.places, p.EndsBefore c ∨ p.StartsAfter c).length

/-- Nothing but comments changes when comments are attached. -/
theorem withoutComments_attachComments {suite : Suite}
    (hbare : ∀ n ∈ suite.nodes, n.info.comments = {}) (trivia : List Trivia) :
    (suite.attachComments trivia).withoutComments = suite := by
  obtain ⟨-, -, hrest, -⟩ := suite.edits (f := takeComments) (commentMap suite.places trivia)
  refine (hrest .bare fun _ _ => rfl).trans (Suite.relabel_eq_self (fun _ => rfl) suite rfl ?_)
  intro n hn
  rw [Relabel.bare, ← hbare n hn]

/-- Up to comments, the nodes are the same when comments are attached. -/
theorem nodes_attachComments {suite : Suite} (hbare : ∀ n ∈ suite.nodes, n.info.comments = {})
    (trivia : List Trivia) :
    (suite.attachComments trivia).nodes.map (·.relabel .bare) = suite.nodes := by
  rw [← Suite.nodes_relabel]
  exact congrArg Suite.nodes (withoutComments_attachComments hbare trivia)

theorem comments_of_attachComments {suite : Suite}
    (hbare : ∀ n ∈ suite.nodes, n.info.comments = {}) {trivia : List Trivia} {i : Nat} {n : Node}
    (hn : (suite.attachComments trivia).children[i]? = some n) :
    n.info.comments = noted suite.places (trivia.filter (·.isComment)) i := by
  have hcomments := congrArg (·[i]?) (map_comments_attachComments hbare trivia)
  rw [List.getElem?_map, List.getElem?_map, hn, Option.map_some] at hcomments
  obtain ⟨j, hj, heq⟩ := Option.map_eq_some_iff.1 hcomments.symm
  obtain ⟨hlt, rfl⟩ := List.getElem?_eq_some_iff.1 hj
  rw [List.getElem_range] at heq
  exact heq.symm

/-- Attaching comments places every comment once and touches nothing else. -/
theorem comments_attach_once {mode : Grammar.Mode} {source : String} {suite : Suite}
    (h : (parse mode source).suite = some suite) :
    AttachesOnce suite (parse mode source).trivia
      (suite.attachComments (parse mode source).trivia) := by
  have hbare := parse_bare h
  have hlines := comments_on_lines_of_parse mode source
  generalize (parse mode source).trivia = trivia at hlines ⊢
  refine ⟨withoutComments_attachComments hbare trivia, ?_, hlines, ?_, ?_, ?_, ?_, ?_, ?_⟩
  · exact (suite.edits (f := takeComments) (commentMap suite.places trivia)).1.trans
      (hbare _ List.mem_cons_self)
  · intro i n hn
    rw [comments_of_attachComments hbare hn]
    rfl
  · intro i n hn
    rw [comments_of_attachComments hbare hn]
    refine toList_getLast?_of_length_le ?_
    rw [List.length_map]
    exact length_filter_trails_le hlines suite.places i
  · intro c _ hends
    obtain ⟨i, hi, hunique⟩ := (pointsAt_trailing suite.places c).existsUnique
      ((isSome_trailingTarget suite.places c).2 hends)
    exact ⟨⟨i, hi, hunique⟩, fun j => hi.not_leads⟩
  · intro c _ hopen hafter
    refine ⟨(pointsAt_leading suite.places c).existsUnique
      ((isSome_openTarget suite.places c).2 ⟨hopen, hafter⟩), ?_⟩
    rintro i ⟨⟨p, hp, hends⟩, -⟩
    exact hopen p (List.mem_of_getElem? hp) hends
  · intro c _ hnone i
    refine ⟨?_, ?_⟩
    · rintro ⟨⟨p, hp, hends⟩, -⟩
      exact (hnone p (List.mem_of_getElem? hp)).1 hends
    · rintro ⟨-, p, hp, hclosest⟩
      exact (hnone p (List.mem_of_getElem? hp)).2 hclosest.after
  · have hcomments := map_comments_attachComments hbare trivia
    have hnodes : suite.children.length = suite.places.length := by
      rw [Suite.places, List.length_map]
    rw [← List.flatMap_map, hcomments, List.flatMap_map, hnodes,
      length_flatMap_noted hlines suite.places List.nodup_range, List.countP_eq_length_filter]
    simp only [exists_speaksOf_iff]

/-- One comment leads the setup, one trails it, and one is dropped. -/
theorem comments_attach_once_setup :
    ∃ suite, (parse .strict "// a\nsetup m // b\n//").suite = some suite ∧
      AttachesOnce suite (parse .strict "// a\nsetup m // b\n//").trivia
        (suite.attachComments (parse .strict "// a\nsetup m // b\n//").trivia) ∧
      (suite.attachComments (parse .strict "// a\nsetup m // b\n//").trivia).children.map
        (·.info.comments) = [⟨["a"], some "b"⟩] := by
  have hattached : (parse .strict "// a\nsetup m // b\n//").suite.map (fun suite =>
      (suite.attachComments (parse .strict "// a\nsetup m // b\n//").trivia).children.map
        (·.info.comments)) = some [⟨["a"], some "b"⟩] := by cbv
  obtain ⟨suite, hsuite, hcomments⟩ := Option.map_eq_some_iff.1 hattached
  exact ⟨suite, hsuite, comments_attach_once hsuite, hcomments⟩

end QuerySuite
