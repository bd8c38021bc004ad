import Mathlib.Tactic.SplitIfs
import QuerySuite.Parse
import QuerySuite.Proofs.Agreement
import QuerySuite.Proofs.Ways

/-!
# What each clause gathers

The clauses from the inside out: what is recorded in the tree of a member holds a place only between
the first token of the member and the token behind it, and the elements that hold it stand on one
way down. What a phrase gives is clean. A clause with a body gathers its members one by one, and
becomes an element above them.

Results:

* `Clause.setup_gathered`, `Clause.assertion_gathered`, `Clause.test_gathered`,
  `Clause.body_gathered`, `Clause.scope_gathered`: the clauses.
* `parse_recovery_gathered`, `parse_gathered`: the suite of every source.
-/

namespace QuerySuite

/-- Nothing is recorded in the tree, and no expression stands in it. -/
structure ElementTree.Untouched (t : ElementTree) : Prop where
  regionsOf_eq : regionsOf t.nodes = []
  noExpr : ∀ e, .expr e ∉ t.elements

theorem Call.untouched {c : Call} (h : c.recovery = .clean) : c.tree.Untouched where
  regionsOf_eq := by simp [h]
  noExpr := by simp [tree, ElementTree.elements_node]

theorem Statement.untouched {s : Statement} (h : regionsOf s.nodes = []) : s.tree.Untouched where
  regionsOf_eq := by rw [s.nodes_tree, h]
  noExpr e he := by
    rw [tree, ElementTree.elements_node] at he
    rcases List.mem_cons.1 he with he | he
    · cases he
    · obtain ⟨t, ht, he⟩ := List.mem_flatMap.1 he
      obtain ⟨v, -, rfl⟩ := Option.map_eq_some_iff.1 (Option.mem_toList.1 ht)
      obtain ⟨w, hw⟩ := v.forall_mem_elements _ he
      cases hw

/-- A node without parts. -/
theorem ElementTree.Untouched.leaf {e : Element} (h : e.recovery = .clean)
    (hkind : e.node.kind.isWhole = false) : (node e []).Untouched where
  regionsOf_eq := by
    rw [nodes_node, regionsOf_cons, List.flatMap_nil, regionsOf_nil, List.append_nil]
    exact congrArg Recovery.regions h
  noExpr y hy := by
    rw [elements_node, List.flatMap_nil, List.mem_singleton] at hy
    subst hy
    cases hkind

namespace Grammar

variable {eof : Token} {pieces : List Piece} {x : Position}

/-- A clause whose trees are untouched gathers nothing. -/
theorem Gathered.of_untouched {s t : State eof} (hs : s.On pieces) (h : s.Onward t)
    {trees : List ElementTree} (htrees : ∀ tree ∈ trees, tree.Untouched) :
    Gathered x pieces s.token.start t.toCursor .clean trees := by
  obtain ⟨used, hr⟩ := h
  refine .of_clean hs hr (fun tree ht => (htrees tree ht).regionsOf_eq) fun tree ht y hy => ?_
  exact absurd hy ((htrees tree ht).noExpr y)

namespace Clause

variable {p : Piece} {rest : List Piece} {stop : Position}

/-- A phrase behind a first token that gives an untouched tree. -/
theorem ofPhrase_gathered {α : Type} {phrase : Phrase eof α} (tree : α → ElementTree)
    (h : (⟨p :: rest, stop⟩ : Cursor eof).On pieces) (met : List ParseError)
    (hphrase : (phrase (.after p rest)).From (.after p rest) fun a _ => (tree a).Untouched) :
    (ofPhrase phrase ⟨.after p rest, met⟩).From (⟨⟨p :: rest, stop⟩, met⟩ : State eof)
      fun a t => Gathered x pieces p.token.start t.toCursor .clean [tree a] := by
  have hclause := Outcome.From.of_phrase (s := ⟨.after p rest, met⟩) (t := ⟨.after p rest, met⟩)
    rfl hphrase
  refine hclause.behind.mono fun a t ht ha => ?_
  exact .of_untouched (s := ⟨⟨p :: rest, stop⟩, met⟩) h ht (List.forall_mem_singleton.2 ha.1)

/-! ## Setups -/

theorem setupItem_gathered (h : (⟨p :: rest, stop⟩ : Cursor eof).On pieces)
    (met : List ParseError) :
    (setupItem p.token ⟨.after p rest, met⟩).From (⟨⟨p :: rest, stop⟩, met⟩ : State eof)
      fun i t => Gathered x pieces p.token.start t.toCursor .clean [i.tree] := by
  have hitem : (setupItem p.token ⟨.after p rest, met⟩).From (⟨⟨p :: rest, stop⟩, met⟩ : State eof)
      fun i _ => i.tree.Untouched := by
    unfold setupItem
    split_ifs
    · exact .behind (.here (.leaf rfl rfl))
    · refine .behind (.phrase_bind (Phrase.call_from p.token _) fun call t _ _ hclean => .here ?_)
      have hcall := Call.untouched hclean
      constructor
      · simp [SetupItem.nodes, SetupTask.nodes, hclean]
      · intro e he
        have hmem : .expr e ∈ call.tree.elements := by
          simpa [SetupItem.tree, SetupTask.branches, ElementTree.elements_node] using he
        exact hcall.noExpr e hmem
    · trivial
  refine hitem.mono fun i t ht hi => .of_untouched (s := ⟨⟨p :: rest, stop⟩, met⟩) h ht ?_
  exact List.forall_mem_singleton.2 hi

theorem setupBlock_gathered {s : State eof} (hs : s.On pieces) :
    (setupBlock .recovery s).From s fun b t =>
      Gathered x pieces s.token.start t.toCursor b.2 b.1.branches := by
  have kept : Kept .setupBlock placeSetupItem (fun _ lead => @setupItem eof lead)
      (fun items u => Gathered x pieces s.token.start u.toCursor .clean
        (items.map SetupItem.tree)) s.size := by
    refine kept_gathered SetupItem.tree (fun _ => .clean) (List.map SetupItem.tree) ?_ ?_
    · intro items p rest stop met _ _ hon
      refine (setupItem_gathered hon met).mono fun i t _ hi => ⟨hi, rfl, ?_⟩
      exact .of_eq (by simp [placeSetupItem])
    · intro items r
      refine .inl ⟨SetupItem.tree { r.placeholder with }, ?_, rfl, ?_⟩
      · rw [SetupItem.nodes_tree]
        exact .of_kind rfl
      · exact .of_eq (by simp [placeSetupItem])
  refine wholeBody_from placeSetupItem _ (fun _ => .clean)
    (fun items recovery _ => (SetupBody.block items, recovery)) kept ?_ ?_
    (.empty hs (.refl _))
  · intro items q rest stop met _ h
    exact h.onward (.after q rest stop)
  · intro items stop met h
    exact h.cut

theorem setupName_gathered (h : (⟨p :: rest, stop⟩ : Cursor eof).On pieces)
    (met : List ParseError) :
    (setupName p.token ⟨.after p rest, met⟩).From (⟨⟨p :: rest, stop⟩, met⟩ : State eof)
      fun b t => Gathered x pieces p.token.start t.toCursor .clean b.branches := by
  have hname : (setupName p.token ⟨.after p rest, met⟩).From
      (⟨⟨p :: rest, stop⟩, met⟩ : State eof) fun b _ => ∀ tree ∈ b.branches, tree.Untouched := by
    unfold setupName
    split_ifs
    · refine .behind (.phrase_andThen (Phrase.call_from p.token _)
        fun call t _ _ _ hclean => .here ?_)
      exact List.forall_mem_singleton.2 (Call.untouched hclean)
    · exact .behind (.here (List.forall_mem_nil _))
  exact hname.mono fun b t ht hb => .of_untouched (s := ⟨⟨p :: rest, stop⟩, met⟩) h ht hb

theorem setupBody_gathered {s : State eof} (hs : s.On pieces) :
    (setupBody .recovery s).From s fun b t =>
      Gathered x pieces s.token.start t.toCursor b.2 b.1.branches := by
  rcases s with ⟨⟨_ | ⟨p, rest⟩, stop⟩, met⟩
  · trivial
  · have h : (⟨p :: rest, stop⟩ : Cursor eof).On pieces := hs
    have hafter : Cursor.Reads (⟨p :: rest, stop⟩ : Cursor eof) [p] (.after p rest) :=
      .after p rest stop
    have hle := h.start_le hafter
    simp only [setupBody]
    split_ifs
    · exact .behind (.here (.empty h.after hle))
    · refine Outcome.From.widen ?_ _
      have hblock := setupBlock_gathered (x := x) (s := ⟨.after p rest, met⟩) h.after
      refine hblock.behind.mono fun b t _ hb => ?_
      exact hb.mono hle
    · refine Outcome.From.widen ?_ _
      exact (setupName_gathered h met).andThen_ok fun b t _ hb => hb
    · trivial

/-- A setup, its reserved word included. -/
theorem setup_gathered (h : (⟨p :: rest, stop⟩ : Cursor eof).On pieces) (met : List ParseError) :
    (setup .recovery p.token ⟨.after p rest, met⟩).From (⟨⟨p :: rest, stop⟩, met⟩ : State eof)
      fun c t => Gathered x pieces p.token.start t.toCursor .clean [c.tree] := by
  have hbody := setupBody_gathered (x := x) (s := ⟨.after p rest, met⟩) h.after
  refine .behind (hbody.andThen_ok (f := fun b t =>
    ({ body := some b.1, span := ⟨p.token.start, t.stop⟩, recovery := b.2 } : Setup))
    fun b t _ hb => ?_)
  have hle := h.start_le (.after p rest stop)
  exact (hb.mono hle).node rfl (.of_not_isWhole rfl)

/-! ## Assertions -/

theorem assertionQuery_untouched (c : Cursor eof) :
    (assertionQuery c).From c fun q _ =>
      ∀ tree ∈ (q.map AssertionQuery.branches).getD [], tree.Untouched := by
  refine (Phrase.next?_from _ c).bind fun t d _ => ?_
  cases t with
  | none => exact .here (List.forall_mem_nil _)
  | some t =>
    dsimp only
    split_ifs
    · exact .here (List.forall_mem_nil _)
    · refine (Phrase.call_from t d).bind fun call e hclean => .here ?_
      exact List.forall_mem_singleton.2 (Call.untouched hclean)

theorem expr_gathered (h : (⟨p :: rest, stop⟩ : Cursor eof).On pieces) (met : List ParseError) :
    (ofPhrase (.expr p.token) ⟨.after p rest, met⟩).From (⟨⟨p :: rest, stop⟩, met⟩ : State eof)
      fun e t => Gathered x pieces p.token.start t.toCursor .clean [e.tree] := by
  refine (Outcome.From.of_phrase (s := ⟨⟨p :: rest, stop⟩, met⟩) (t := ⟨.after p rest, met⟩) rfl
    (Phrase.expr_from p rest stop)).mono fun e t ht he => ?_
  obtain ⟨⟨hclean, htokens⟩, -⟩ := he
  obtain ⟨used, hr⟩ := ht
  refine .of_clean h hr (List.forall_mem_singleton.2 ?_) (List.forall_mem_singleton.2 ?_)
  · simp [hclean]
  · intro y hy u hu
    obtain rfl : y = e := by simpa [Expr.tree, ElementTree.elements_node] using hy
    obtain ⟨q, hq, htoken⟩ := htokens u hu
    exact ⟨q, h.suffix.subset hq, htoken⟩

/-- An assertion, its reserved word included. -/
theorem assertion_gathered (h : (⟨p :: rest, stop⟩ : Cursor eof).On pieces)
    (met : List ParseError) :
    (assertion .recovery p.token ⟨.after p rest, met⟩).From
      (⟨⟨p :: rest, stop⟩, met⟩ : State eof)
      fun a t => Gathered x pieces p.token.start t.toCursor .clean [a.tree] := by
  refine .behind (.phrase_bind (assertionQuery_untouched _) fun query t ht _ hquery => ?_)
  refine .phrase_bind (Phrase.ofKind_from .lbrace _ _) fun _ u hu _ _ => ?_
  have hstart : Gathered x pieces p.token.start u.toCursor .clean
      ((query.map AssertionQuery.branches).getD []) :=
    .of_untouched (s := ⟨⟨p :: rest, stop⟩, met⟩) h
      ((State.Onward.after p rest stop met met).trans (ht.trans hu)) hquery
  have kept : Kept .assertBody placeExpr (fun _ lead => @ofPhrase eof Expr (.expr lead))
      (fun a v => Gathered x pieces p.token.start v.toCursor a.recovery a.branches) u.size := by
    refine kept_gathered Expr.tree (fun a => a.recovery) Assertion.branches ?_ ?_
    · intro a q rest stop met _ _ hon
      refine (expr_gathered hon met).mono fun e v _ he => ⟨he, rfl, ?_⟩
      exact .of_eq (by simp [placeExpr, Assertion.branches])
    · intro a r
      exact .inr ⟨rfl, rfl⟩
  refine wholeBody_from placeExpr _ (fun a => a.recovery)
    (fun a recovery v => { a with recovery, span := ⟨p.token.start, v.stop⟩ }) kept ?_ ?_ ?_
  · intro a q rest stop met _ h
    exact (h.onward (.after q rest stop)).node rfl (.of_not_isWhole rfl)
  · intro a stop met h
    exact h.cut.node rfl (.of_not_isWhole rfl)
  · simpa [Assertion.branches] using hstart

/-! ## Tests -/

/-- The tree of a member of a test. -/
def TestMember.tree : TestMember → ElementTree
  | setup s => s.tree
  | statement s => s.tree
  | assertion a => a.tree

theorem TestMember.nodes_tree (m : TestMember) : m.tree.nodes = m.nodes := by
  cases m <;> simp [tree, nodes]

/-- A test takes a member beside the others. -/
theorem takes_placeTestMember (t : Test) (m : TestMember) (h : m.Fits t) :
    Takes (fun t => t.recovery) Test.branches m.tree t (placeTestMember t (.parsed m)) := by
  cases m with
  | setup s =>
    have hs : t.setup = none := h
    exact .of_eq rfl [] (t.statements.map Statement.tree ++ t.asserts.map Assertion.tree)
      (by simp [Test.branches, hs]) (by simp [Test.branches, placeTestMember, TestMember.tree])
  | statement s =>
    exact .of_eq rfl ((t.setup.map Setup.tree).toList ++ t.statements.map Statement.tree)
      (t.asserts.map Assertion.tree) rfl
      (by simp [Test.branches, placeTestMember, TestMember.tree])
  | assertion a =>
    exact .of_eq rfl t.branches [] (List.append_nil _).symm
      (by simp [Test.branches, placeTestMember, TestMember.tree])

theorem takesSkipped_skipInTest (t : Test) (r : Region) :
    TakesSkipped (fun t => t.recovery) Test.branches r t (skipInTest t r) := by
  rcases skipInTest_cases t r with ⟨m, h, hstands, fits⟩ | h
  · rw [← m.nodes_tree] at hstands
    rw [h]
    exact .inl ⟨m.tree, hstands, takes_placeTestMember t m fits⟩
  · rw [h]
    exact .inr ⟨rfl, rfl⟩

theorem testMember_gathered (t : Test) (h : (⟨p :: rest, stop⟩ : Cursor eof).On pieces)
    (met : List ParseError) :
    (testMember .recovery t p.token ⟨.after p rest, met⟩).From
      (⟨⟨p :: rest, stop⟩, met⟩ : State eof)
      fun m u => Gathered x pieces p.token.start u.toCursor .clean [m.tree] ∧ m.Fits t := by
  unfold testMember
  split_ifs with _ hsome
  · trivial
  · refine (setup_gathered h met).andThen_ok fun s u _ hs => ⟨hs, ?_⟩
    show t.setup = none
    simpa using hsome
  · exact (assertion_gathered h met).andThen_ok fun a u _ ha => ⟨ha, trivial⟩
  · have hphrase := (Phrase.statement_from p.token (.after p rest : Cursor eof)).mono
      fun s _ hs => Statement.untouched hs
    exact (ofPhrase_gathered Statement.tree h met hphrase).andThen_ok fun s u _ hs => ⟨hs, trivial⟩
  · trivial

/-- A test, its reserved word included. -/
theorem test_gathered (h : (⟨p :: rest, stop⟩ : Cursor eof).On pieces) (met : List ParseError) :
    (test .recovery p.token ⟨.after p rest, met⟩).From (⟨⟨p :: rest, stop⟩, met⟩ : State eof)
      fun t u => Gathered x pieces p.token.start u.toCursor .clean [t.tree] := by
  refine .behind (.phrase_bind (Phrase.label_from _ _) fun name t ht _ _ => ?_)
  refine .phrase_bind (Phrase.ofKind_from .lbrace _ _) fun _ u hu _ _ => ?_
  have hstart : Gathered x pieces p.token.start u.toCursor .clean [] :=
    .of_untouched (s := ⟨⟨p :: rest, stop⟩, met⟩) h
      ((State.Onward.after p rest stop met met).trans (ht.trans hu)) (List.forall_mem_nil _)
  have kept : Kept .testBody placeTestMember (@testMember eof .recovery)
      (fun t v => Gathered x pieces p.token.start v.toCursor t.recovery t.branches) u.size := by
    refine kept_gathered TestMember.tree (fun t => t.recovery) Test.branches ?_ ?_
    · intro t q rest stop met _ _ hon
      refine (testMember_gathered t hon met).mono fun m v _ hm => ⟨hm.1, ?_⟩
      exact takes_placeTestMember t m hm.2
    · exact takesSkipped_skipInTest
  refine wholeBody_from placeTestMember _ (fun t => t.recovery)
    (fun t recovery v => { t with recovery, span := ⟨p.token.start, v.stop⟩ }) kept ?_ ?_ ?_
  · intro t q rest stop met _ h
    exact (h.onward (.after q rest stop)).node rfl (.of_not_isWhole rfl)
  · intro t stop met h
    exact h.cut.node rfl (.of_not_isWhole rfl)
  · exact hstart

/-! ## Scopes and groups -/

/-- The tree of a member of a scope or a group. -/
def BodyMember.tree : BodyMember → ElementTree
  | setup s => s.tree
  | teardown t => t.tree
  | item i => i.tree

theorem BodyMember.nodes_tree (m : BodyMember) : m.tree.nodes = m.nodes := by
  cases m <;> simp [tree, nodes]

/-- The trees of the members of a body. -/
def Body.branches (b : Body) : List ElementTree := bodyBranches b.setup b.teardown b.items

/-- A body takes a member beside the others. -/
theorem takes_placeBodyMember (b : Body) (m : BodyMember) (h : m.Fits b) :
    Takes (fun b => b.recovery) Body.branches m.tree b (placeBodyMember b (.parsed m)) := by
  cases m with
  | setup s =>
    have hs : b.setup = none := h
    exact .of_eq rfl [] ((b.teardown.map Teardown.tree).toList ++ b.items.map Item.tree)
      (by simp [Body.branches, bodyBranches, hs])
      (by simp [Body.branches, bodyBranches, placeBodyMember, BodyMember.tree])
  | teardown t =>
    have ht : b.teardown = none := h
    exact .of_eq rfl (b.setup.map Setup.tree).toList (b.items.map Item.tree)
      (by simp [Body.branches, bodyBranches, ht])
      (by simp [Body.branches, bodyBranches, placeBodyMember, BodyMember.tree])
  | item i =>
    exact .of_eq rfl b.branches [] (List.append_nil _).symm
      (by simp [Body.branches, bodyBranches, placeBodyMember, BodyMember.tree])

theorem takesSkipped_skipInBody (b : Body) (r : Region) :
    TakesSkipped (fun b => b.recovery) Body.branches r b (skipInBody b r) := by
  rcases skipInBody_cases b r with ⟨m, h, hstands, fits⟩ | h
  · rw [← m.nodes_tree] at hstands
    rw [h]
    exact .inl ⟨m.tree, hstands, takes_placeBodyMember b m fits⟩
  · rw [h]
    exact .inr ⟨rfl, rfl⟩

theorem teardown_gathered (h : (⟨p :: rest, stop⟩ : Cursor eof).On pieces)
    (met : List ParseError) :
    (ofPhrase (.teardownClause p.token) ⟨.after p rest, met⟩).From
      (⟨⟨p :: rest, stop⟩, met⟩ : State eof)
      fun t u => Gathered x pieces p.token.start u.toCursor .clean [t.tree] := by
  have hphrase := (Phrase.teardownClause_from p.token (.after p rest : Cursor eof)).mono
    fun t _ ht => (.leaf ht.1 rfl : t.tree.Untouched)
  exact ofPhrase_gathered Teardown.tree h met hphrase

/-- A group, given what the bodies within it gather. -/
theorem group_gathered (h : (⟨p :: rest, stop⟩ : Cursor eof).On pieces) (met : List ParseError)
    (hbody : ∀ v : State eof, v.size ≤ rest.length → v.On pieces →
      (body .recovery v).From v fun b u =>
        Gathered x pieces v.token.start u.toCursor b.recovery b.branches) :
    (group p.token ⟨.after p rest, met⟩ fun v _ => body .recovery v).From
      (⟨⟨p :: rest, stop⟩, met⟩ : State eof)
      fun i u => Gathered x pieces p.token.start u.toCursor .clean [i.tree] := by
  unfold group
  refine .behind (.phrase_andThen (Phrase.label_from _ _) fun name t hsize ht _ _ => ?_)
  obtain ⟨used, hr⟩ := (State.Onward.after p rest stop met met).trans ht
  refine (hbody t hsize (h.reads hr)).andThen_ok fun b u _ hb => ?_
  rw [Item.tree_group]
  exact (hb.mono (h.start_le hr)).node rfl (.of_not_isWhole rfl)

theorem bodyMember_gathered (b : Body) (h : (⟨p :: rest, stop⟩ : Cursor eof).On pieces)
    (met : List ParseError)
    (hbody : ∀ v : State eof, v.size ≤ rest.length → v.On pieces →
      (body .recovery v).From v fun b u =>
        Gathered x pieces v.token.start u.toCursor b.recovery b.branches) :
    (bodyMember .recovery b p.token ⟨.after p rest, met⟩ fun v _ => body .recovery v).From
      (⟨⟨p :: rest, stop⟩, met⟩ : State eof)
      fun m u => Gathered x pieces p.token.start u.toCursor .clean [m.tree] ∧ m.Fits b := by
  unfold bodyMember
  split_ifs with _ hs _ ht
  · trivial
  · refine (setup_gathered h met).andThen_ok fun s u _ hx => ⟨hx, ?_⟩
    show b.setup = none
    simpa using hs
  · trivial
  · refine (teardown_gathered h met).andThen_ok fun t u _ hx => ⟨hx, ?_⟩
    show b.teardown = none
    simpa using ht
  · refine (test_gathered (x := x) h met).andThen_ok fun t u _ ht => ⟨?_, trivial⟩
    rw [BodyMember.tree, Item.tree]
    exact ht
  · exact (group_gathered h met hbody).andThen_ok fun i u _ hi => ⟨hi, trivial⟩
  · trivial

theorem body_gathered_of_lt :
    ∀ (n : Nat) (s : State eof), s.size < n → s.On pieces →
      (body .recovery s).From s fun b u =>
        Gathered x pieces s.token.start u.toCursor b.recovery b.branches := by
  intro n
  induction n with
  | zero => intro s hn; omega
  | succ n ih =>
    intro s hn hs
    rw [body_eq]
    refine .phrase_andThen (Phrase.ofKind_from .lbrace _ _) fun _ t hsize ht _ _ => ?_
    have hstart : Gathered x pieces s.token.start t.toCursor .clean [] :=
      .of_untouched hs ht (List.forall_mem_nil _)
    have kept : Kept .scopeBody placeBodyMember
        (fun b lead (u : State eof) => bodyMember .recovery b lead u fun v _ => body .recovery v)
        (fun b v => Gathered x pieces s.token.start v.toCursor b.recovery b.branches) t.size := by
      refine kept_gathered BodyMember.tree (fun b => b.recovery) Body.branches ?_ ?_
      · intro b q rest stop met hlt _ hon
        -- A group within the body is shorter than the body.
        have hinner (v : State eof) (hv : v.size ≤ rest.length) (hvo : v.On pieces) :
            (body .recovery v).From v fun b u =>
              Gathered x pieces v.token.start u.toCursor b.recovery b.branches :=
          ih v (by omega) hvo
        refine (bodyMember_gathered b hon met hinner).mono fun m v _ hm => ⟨hm.1, ?_⟩
        exact takes_placeBodyMember b m hm.2
      · exact takesSkipped_skipInBody
    refine wholeBody_from placeBodyMember _ (fun b => b.recovery)
      (fun b recovery _ => { b with recovery }) kept ?_ ?_ ?_
    · intro b q rest stop met _ h
      exact h.onward (.after q rest stop)
    · intro b stop met h
      exact h.cut
    · exact hstart

/-- The body of a scope or a group. -/
theorem body_gathered {s : State eof} (hs : s.On pieces) :
    (body .recovery s).From s fun b u =>
      Gathered x pieces s.token.start u.toCursor b.recovery b.branches :=
  body_gathered_of_lt (s.size + 1) s (Nat.lt_succ_self _) hs

/-- A scope, the name of its query included. -/
theorem scope_gathered (h : (⟨p :: rest, stop⟩ : Cursor eof).On pieces) (met : List ParseError) :
    (scope .recovery p.token ⟨.after p rest, met⟩).From (⟨⟨p :: rest, stop⟩, met⟩ : State eof)
      fun c t => Gathered x pieces p.token.start t.toCursor .clean [c.tree] := by
  have hbody := body_gathered (x := x) (s := ⟨.after p rest, met⟩) h.after
  refine .behind (hbody.andThen_ok (f := fun b t =>
    ({ query := p.token.text, setup := b.setup, teardown := b.teardown, items := b.items,
       span := ⟨p.token.start, t.stop⟩, recovery := b.recovery } : Scope)) fun b t _ hb => ?_)
  exact (hb.mono (h.start_le (.after p rest stop))).node rfl (.of_not_isWhole rfl)

end Clause

/-! ## Documents -/

/-- The tree of a member of a document. -/
def TopMember.tree : TopMember → ElementTree
  | importClause i => i.tree
  | query q => q.tree
  | setup s => s.tree
  | teardown t => t.tree
  | scope s => s.tree

theorem TopMember.nodes_tree (m : TopMember) : m.tree.nodes = m.nodes := by
  cases m <;> simp [tree, nodes, Import.tree, Query.tree, Element.node]

/-- A suite takes a member beside the others. -/
theorem takes_placeTopMember (s : Suite) (m : TopMember) (h : m.Fits s) :
    Takes (fun s => s.recovery) Suite.branches m.tree s (placeTopMember s (.parsed m)) := by
  cases m with
  | importClause i =>
    exact .of_eq rfl (s.imports.map Import.tree)
      (s.queries.map Query.tree ++ ((s.setup.map Setup.tree).toList ++
        ((s.teardown.map Teardown.tree).toList ++ s.scopes.map Scope.tree)))
      (by simp [Suite.branches]) (by simp [Suite.branches, placeTopMember, TopMember.tree])
  | query q =>
    exact .of_eq rfl (s.imports.map Import.tree ++ s.queries.map Query.tree)
      ((s.setup.map Setup.tree).toList ++ ((s.teardown.map Teardown.tree).toList ++
        s.scopes.map Scope.tree))
      (by simp [Suite.branches]) (by simp [Suite.branches, placeTopMember, TopMember.tree])
  | setup c =>
    have hs : s.setup = none := h
    exact .of_eq rfl (s.imports.map Import.tree ++ s.queries.map Query.tree)
      ((s.teardown.map Teardown.tree).toList ++ s.scopes.map Scope.tree)
      (by simp [Suite.branches, hs]) (by simp [Suite.branches, placeTopMember, TopMember.tree])
  | teardown t =>
    have ht : s.teardown = none := h
    exact .of_eq rfl (s.imports.map Import.tree ++ s.queries.map Query.tree ++
      (s.setup.map Setup.tree).toList) (s.scopes.map Scope.tree)
      (by simp [Suite.branches, ht]) (by simp [Suite.branches, placeTopMember, TopMember.tree])
  | scope c =>
    exact .of_eq rfl s.branches [] (List.append_nil _).symm
      (by simp [Suite.branches, placeTopMember, TopMember.tree])

theorem takesSkipped_skipInSuite (s : Suite) (r : Region) :
    TakesSkipped (fun s => s.recovery) Suite.branches r s (skipInSuite s r) := by
  rcases skipInSuite_cases s r with ⟨m, h, hstands, fits⟩ | h
  · rw [← m.nodes_tree] at hstands
    rw [h]
    exact .inl ⟨m.tree, hstands, takes_placeTopMember s m fits⟩
  · rw [h]
    exact .inr ⟨rfl, rfl⟩

theorem topMember_gathered {p : Piece} {rest : List Piece} {stop : Position} (suite : Suite)
    (h : (⟨p :: rest, stop⟩ : Cursor eof).On pieces) (met : List ParseError) :
    (topMember .recovery suite p.token ⟨.after p rest, met⟩).From
      (⟨⟨p :: rest, stop⟩, met⟩ : State eof)
      fun m t => Gathered x pieces p.token.start t.toCursor .clean [m.tree] ∧ m.Fits suite := by
  unfold topMember
  split_ifs with _ _ _ hs _ ht
  · have hphrase := (Phrase.importClause_from p.token (.after p rest : Cursor eof)).mono
      fun i _ hi => (.leaf hi.1 rfl : i.tree.Untouched)
    exact (Clause.ofPhrase_gathered Import.tree h met hphrase).andThen_ok
      fun i t _ hi => ⟨hi, trivial⟩
  · have hphrase := (Phrase.queryClause_from p.token (.after p rest : Cursor eof)).mono
      fun q _ hq => (.leaf hq.1 rfl : q.tree.Untouched)
    exact (Clause.ofPhrase_gathered Query.tree h met hphrase).andThen_ok
      fun q t _ hq => ⟨hq, trivial⟩
  · trivial
  · refine (Clause.setup_gathered h met).andThen_ok fun c u _ hc => ⟨hc, ?_⟩
    show suite.setup = none
    simpa using hs
  · trivial
  · refine (Clause.teardown_gathered h met).andThen_ok fun t u _ hx => ⟨hx, ?_⟩
    show suite.teardown = none
    simpa using ht
  · exact (Clause.scope_gathered h met).andThen_ok fun c u _ hc => ⟨hc, trivial⟩
  · trivial

/-- A document. -/
theorem document_gathered {s : State eof} (hs : s.On pieces) :
    (document .recovery s).Gives fun suite u =>
      Gathered x pieces s.token.start u.toCursor suite.recovery suite.branches := by
  have kept : Kept .topLevel placeTopMember (@topMember eof .recovery)
      (fun suite u => Gathered x pieces s.token.start u.toCursor suite.recovery suite.branches)
      s.size := by
    refine kept_gathered TopMember.tree (fun s => s.recovery) Suite.branches ?_ ?_
    · intro suite p rest stop met _ _ hon
      refine (topMember_gathered suite hon met).mono fun m t _ hm => ⟨hm.1, ?_⟩
      exact takes_placeTopMember suite m hm.2
    · exact takesSkipped_skipInSuite
  have hstart : Gathered x pieces s.token.start s.toCursor ({} : Suite).recovery
      ({} : Suite).branches := .empty hs (.refl _)
  exact (members_from kept s.le_refl hstart).mono fun suite u h => h.1.2

/-- The suite of a source that is read with recovery: what holds a place stands on one way down from
the suite. -/
theorem parse_recovery_gathered (source : String) (x : Position) :
    ∃ suite met, parse .recovery (Token.scan source) = .suite suite met ∧
      suite.tree.OneWay (holdsAt x) ∧
      ∀ e ∈ suite.elements, Plain (Stream.ofSource source).pieces e := by
  obtain ⟨m, -, laid⟩ := (Stream.laid_ofSource source).exists_of_append
  have hon : (initial (Token.scan source)).On (Stream.ofSource source).pieces :=
    ⟨⟨m, laid⟩, List.suffix_refl _⟩
  obtain ⟨suite, u, hrun, h⟩ := parse_of_gives (document_gathered (x := x) hon)
  refine ⟨complete (Token.scan source) suite, u.met, hrun, ?_⟩
  have hsuite : Gathered x (Stream.ofSource source).pieces (initial (Token.scan source)).token.start
      u.toCursor .clean [(complete (Token.scan source) suite).tree] :=
    h.node rfl (.of_not_isWhole rfl)
  exact ⟨hsuite.each _ (List.mem_singleton_self _), hsuite.plain _ (List.mem_singleton_self _)⟩

/-- The suite of a source, in both ways to read it. -/
theorem parse_gathered {mode : Mode} {source : String} {suite : Suite}
    (h : (QuerySuite.parse mode source).suite = some suite) (x : Position) :
    suite.tree.OneWay (holdsAt x) ∧
      ∀ e ∈ suite.elements, Plain (Stream.ofSource source).pieces e := by
  obtain ⟨suite', met, hrun, hsuite⟩ := parse_recovery_gathered source x
  obtain ⟨met', hrecovery, -⟩ := exists_parse_recovery h
  rw [hrun] at hrecovery
  cases hrecovery
  exact hsuite

end Grammar

end QuerySuite
