import QuerySuite.Parse
import QuerySuite.Proofs.Accounts
import QuerySuite.Proofs.Phrases

/-!
# The account of each clause

Every clause that is read with recovery accounts for the pieces it used up, and the regions recorded
in the nodes it gives are those of its account: none is lost and none is recorded twice, wherever a
body keeps it.

Results:

* `Clause.setup_accounts`, `Clause.assertion_accounts`, `Clause.test_accounts`,
  `Clause.body_accounts`, `Clause.scope_accounts`: the clauses, from the inside out.
* `document_accounts`: the account of a document.
* `parse_recovery`: reading with recovery always gives a suite.
-/

namespace QuerySuite

theorem Item.nodesOfList_append (items more : List Item) :
    nodesOfList (items ++ more) = nodesOfList items ++ nodesOfList more := by
  induction items with
  | nil => rfl
  | cons i items ih => simp [nodesOfList, ih]

/-- Nodes of this kind are read as a whole or not at all. -/
def NodeKind.isWhole : NodeKind → Bool
  | call => true
  | value => true
  | expr => true
  | _ => false

namespace Grammar

variable {eof : Token}

/-- The nodes of a member are those of a placeholder for the region. -/
inductive StandsFor (r : Region) : List Node → Prop where
  | of_kind {kind : NodeKind} (h : kind.isWhole = false) : StandsFor r [⟨kind, r.placeholder⟩]

theorem StandsFor.regionsOf_eq {r : Region} {nodes : List Node} (h : StandsFor r nodes) :
    regionsOf nodes = [r] := by
  cases h
  rfl

namespace Clause

/-! ## Setups -/

theorem setupItem_accounts (p : Piece) (rest : List Piece) (stop : Position)
    (met : List ParseError) :
    (setupItem p.token ⟨.after p rest, met⟩).Accounts (⟨⟨p :: rest, stop⟩, met⟩ : State eof)
      (fun i => regionsOf i.nodes) fun _ _ => True := by
  unfold setupItem
  split_ifs
  · exact .behind (.here rfl trivial)
  · refine .behind (.phrase_bind (Phrase.call_from p.token _) fun call t hc => ?_)
    refine .here ?_ trivial
    simp [SetupItem.nodes, SetupTask.nodes, hc]
  · exact ⟨rfl, .unexpected List.mem_cons_self "setup item"⟩

/-- The items of a setup block add their regions to it. -/
theorem setupItem_ruleAccounts (n : Nat) :
    RuleAccounts .setupBlock placeSetupItem (fun _ lead => @setupItem eof lead)
      (fun i => regionsOf i.nodes) (fun items => regionsOf (items.flatMap SetupItem.nodes)) n := by
  intro items p rest stop met _ _
  refine (setupItem_accounts p rest stop met).mono fun i _ _ => ?_
  simp [placeSetupItem]

/-- A setup block keeps the region of an item that was skipped. -/
theorem regionsOf_skipSetupItem (items : List SetupItem) (r : Region) :
    (regionsOf ((placeSetupItem items (.skipped r)).flatMap SetupItem.nodes)).Perm
      (regionsOf (items.flatMap SetupItem.nodes) ++ [r]) := by
  simp [placeSetupItem, SetupItem.nodes, Region.placeholder]

/-- The record of a setup block is put beside its items. -/
theorem regionsOf_setupBlock (items : List SetupItem) {recovery : Recovery} {marks : List Region}
    (h : recovery.regions = Recovery.clean.regions ++ marks) :
    (regionsOf (items.flatMap SetupItem.nodes) ++ marks).Perm
      (recovery.regions ++ regionsOf (SetupBody.block items).nodes) := by
  rw [Recovery.regions_clean, List.nil_append] at h
  rw [h]
  exact List.perm_append_comm

theorem setupBlock_accounts (s : State eof) :
    (setupBlock .recovery s).Accounts s (fun b => b.2.regions ++ regionsOf b.1.nodes)
      fun _ _ => True :=
  wholeBody_accounts placeSetupItem (fun _ lead => setupItem lead)
    (fun i => regionsOf i.nodes) (fun items => regionsOf (items.flatMap SetupItem.nodes))
    (fun _ => .clean) (fun items recovery _ => (SetupBody.block items, recovery))
    (setupItem_ruleAccounts _) regionsOf_skipSetupItem (by simp)
    (fun items _ _ _ h => ⟨regionsOf_setupBlock items h, trivial⟩) rfl

theorem setupName_accounts (first : Token) (s : State eof) :
    (setupName first s).Accounts s (fun b => regionsOf b.nodes) fun _ _ => True := by
  unfold setupName
  split_ifs
  · refine Outcome.Accounts.phrase_andThen (Phrase.call_from first _) fun call t _ hc => ?_
    refine .here ?_ trivial
    simp [SetupBody.nodes, hc]
  · exact .here rfl trivial

theorem setupBody_accounts (s : State eof) :
    (setupBody .recovery s).Accounts s (fun b => b.2.regions ++ regionsOf b.1.nodes)
      fun _ _ => True := by
  rcases s with ⟨⟨_ | ⟨p, rest⟩, stop⟩, met⟩
  · exact ⟨rfl, .unexpected List.mem_cons_self "setup body"⟩
  · simp only [setupBody]
    split_ifs
    · exact .behind (.here rfl trivial)
    · exact (setupBlock_accounts _).behind.widen _
    · refine ((setupName_accounts p.token _).andThen_ok fun b t _ => ?_).behind.widen _
      exact ⟨by simp, trivial⟩
    · exact ⟨rfl, .unexpected List.mem_cons_self "setup body"⟩

/-- A setup, its reserved word included. -/
theorem setup_accounts (p : Piece) (rest : List Piece) (stop : Position) (met : List ParseError) :
    (setup .recovery p.token ⟨.after p rest, met⟩).Accounts (⟨⟨p :: rest, stop⟩, met⟩ : State eof)
      (fun x => regionsOf x.nodes) fun x t => x.span = ⟨p.token.start, t.stop⟩ := by
  refine .behind ((setupBody_accounts _).andThen_ok (f := fun b t =>
    ({ body := some b.1, span := ⟨p.token.start, t.stop⟩, recovery := b.2 } : Setup))
    fun b t _ => ?_)
  exact ⟨.refl _, rfl⟩

/-! ## Assertions -/

theorem expr_accounts (p : Piece) (rest : List Piece) (stop : Position) (met : List ParseError) :
    (ofPhrase (.expr p.token) ⟨.after p rest, met⟩).Accounts (⟨⟨p :: rest, stop⟩, met⟩ : State eof)
      (fun e => e.recovery.regions) fun _ _ => True := by
  refine (Outcome.Accounts.of_phrase (s := ⟨⟨p :: rest, stop⟩, met⟩) (t := ⟨.after p rest, met⟩)
    rfl (Phrase.expr_from p rest stop) ?_).mono fun _ _ _ => trivial
  intro e d he
  rw [he.1, Recovery.regions_clean]

/-- The expressions of an assertion add their regions to it. -/
theorem expr_ruleAccounts (n : Nat) :
    RuleAccounts .assertBody placeExpr (fun _ lead => @ofPhrase eof Expr (.expr lead))
      (fun e => e.recovery.regions) (fun a => regionsOf a.nodes) n := by
  intro a p rest stop met _ _
  refine (expr_accounts p rest stop met).mono fun e _ _ => ?_
  simp [placeExpr, Assertion.nodes]

/-- An assertion keeps the region of an expression that was skipped. -/
theorem regionsOf_skipExpr (a : Assertion) (r : Region) :
    (regionsOf (placeExpr a (.skipped r)).nodes).Perm (regionsOf a.nodes ++ [r]) := by
  rw [List.perm_iff_count]
  intro x
  simp only [placeExpr, Assertion.nodes, regionsOf_cons, regionsOf_append,
    Recovery.regions_absorb, Recovery.regions_ofRegion, List.count_append]
  omega

/-- What the record of an assertion is extended by. -/
theorem regionsOf_assertion (a : Assertion) {recovery : Recovery} {marks : List Region}
    (h : recovery.regions = a.recovery.regions ++ marks) (span : Span) :
    (regionsOf a.nodes ++ marks).Perm (regionsOf { a with recovery, span }.nodes) := by
  rw [List.perm_iff_count]
  intro x
  simp only [Assertion.nodes, regionsOf_cons, regionsOf_append, h, List.count_append]
  omega

/-- An assertion, its reserved word included. -/
theorem assertion_accounts (p : Piece) (rest : List Piece) (stop : Position)
    (met : List ParseError) :
    (assertion .recovery p.token ⟨.after p rest, met⟩).Accounts
      (⟨⟨p :: rest, stop⟩, met⟩ : State eof) (fun a => regionsOf a.nodes) fun _ _ => True := by
  refine .behind (.phrase_bind (assertionQuery_from _) fun query t hq => ?_)
  refine .phrase_bind (Phrase.ofKind_from .lbrace _ _) fun _ u _ => ?_
  refine wholeBody_accounts placeExpr (fun _ lead => ofPhrase (.expr lead))
    (fun e => e.recovery.regions) (fun a => regionsOf a.nodes) (fun a => a.recovery)
    (fun a recovery v => { a with recovery, span := ⟨p.token.start, v.stop⟩ })
    (expr_ruleAccounts _) regionsOf_skipExpr ?_ ?_ ?_
  · intro a r hr
    simp [Assertion.nodes, hr]
  · intro a recovery v marks h
    exact ⟨regionsOf_assertion a h _, trivial⟩
  · simp [Assertion.nodes, hq]

/-! ## Tests -/

/-- The nodes of a member of a test. -/
def TestMember.nodes : TestMember → List Node
  | setup s => s.nodes
  | statement s => s.nodes
  | assertion a => a.nodes

/-- The member does not stand in the place of another one: a test has at most one setup. -/
def TestMember.Fits (t : Test) : TestMember → Prop
  | setup _ => t.setup = none
  | _ => True

/-- A test keeps the regions of a member that was read. -/
theorem regionsOf_placeTestMember (t : Test) (m : TestMember) (h : m.Fits t) :
    (regionsOf (placeTestMember t (.parsed m)).nodes).Perm
      (regionsOf t.nodes ++ regionsOf m.nodes) := by
  rw [List.perm_iff_count]
  intro x
  cases m with
  | setup s =>
    have hs : t.setup = none := h
    simp only [placeTestMember, Test.nodes, TestMember.nodes, hs, regionsOf_cons,
      regionsOf_append, Option.map_some, Option.map_none, Option.getD_some, Option.getD_none,
      regionsOf_nil, List.count_append, List.count_nil]
    omega
  | statement s =>
    simp only [placeTestMember, Test.nodes, TestMember.nodes, regionsOf_cons, regionsOf_append,
      List.flatMap_append, List.flatMap_singleton, List.count_append]
    omega
  | assertion a =>
    simp only [placeTestMember, Test.nodes, TestMember.nodes, regionsOf_cons, regionsOf_append,
      List.flatMap_append, List.flatMap_singleton, List.count_append]
    omega

/-- A member that was skipped in a test stands there as a placeholder, like a member that was read,
or is recorded by the test itself. -/
theorem skipInTest_cases (t : Test) (r : Region) :
    (∃ m : TestMember, skipInTest t r = placeTestMember t (.parsed m) ∧ StandsFor r m.nodes ∧
      m.Fits t) ∨
    skipInTest t r = { t with recovery := t.recovery.absorb (.ofRegion r) } := by
  unfold skipInTest
  split
  · split_ifs with h
    · exact .inl ⟨.setup { r.placeholder with }, rfl, .of_kind rfl, Option.isNone_iff_eq_none.1 h⟩
    · exact .inr rfl
  · exact .inl ⟨.assertion { r.placeholder with }, rfl, .of_kind rfl, trivial⟩
  · exact .inl ⟨.statement { r.placeholder with }, rfl, .of_kind rfl, trivial⟩
  · exact .inr rfl

/-- A test keeps the region of a member that was skipped. -/
theorem regionsOf_skipInTest (t : Test) (r : Region) :
    (regionsOf (skipInTest t r).nodes).Perm (regionsOf t.nodes ++ [r]) := by
  rcases skipInTest_cases t r with ⟨m, h, hr, fits⟩ | h
  · rw [h, ← hr.regionsOf_eq]
    exact regionsOf_placeTestMember t m fits
  · rw [h, List.perm_iff_count]
    intro x
    simp only [Test.nodes, regionsOf_cons, Recovery.regions_absorb, Recovery.regions_ofRegion,
      List.count_append]
    omega

theorem testMember_accounts (t : Test) (p : Piece) (rest : List Piece) (stop : Position)
    (met : List ParseError) :
    (testMember .recovery t p.token ⟨.after p rest, met⟩).Accounts
      (⟨⟨p :: rest, stop⟩, met⟩ : State eof) (fun m => regionsOf m.nodes)
      fun m _ => (regionsOf (placeTestMember t (.parsed m)).nodes).Perm
        (regionsOf t.nodes ++ regionsOf m.nodes) := by
  unfold testMember
  split_ifs with _ hsome
  · exact ⟨rfl, p.token, List.mem_cons_self, .inr ⟨_, rfl⟩⟩
  · refine (setup_accounts p rest stop met).andThen_ok fun s u _ => ⟨.refl _, ?_⟩
    apply regionsOf_placeTestMember
    show t.setup = none
    simpa using hsome
  · refine (assertion_accounts p rest stop met).andThen_ok fun a u _ => ⟨.refl _, ?_⟩
    exact regionsOf_placeTestMember t _ trivial
  · refine .behind (.phrase_bind (Phrase.statement_from p.token _) fun s u hs => .here hs ?_)
    exact regionsOf_placeTestMember t _ trivial
  · exact ⟨rfl, .unexpected List.mem_cons_self _⟩

/-- What the record of a test is extended by. -/
theorem regionsOf_test (t : Test) {recovery : Recovery} {marks : List Region}
    (h : recovery.regions = t.recovery.regions ++ marks) (span : Span) :
    (regionsOf t.nodes ++ marks).Perm (regionsOf { t with recovery, span }.nodes) := by
  rw [List.perm_iff_count]
  intro x
  simp only [Test.nodes, regionsOf_cons, h, List.count_append]
  omega

/-- A test, its reserved word included. -/
theorem test_accounts (p : Piece) (rest : List Piece) (stop : Position) (met : List ParseError) :
    (test .recovery p.token ⟨.after p rest, met⟩).Accounts (⟨⟨p :: rest, stop⟩, met⟩ : State eof)
      (fun t => regionsOf t.nodes) fun _ _ => True := by
  refine .behind (.phrase_bind (Phrase.label_from _ _) fun name t _ => ?_)
  refine .phrase_bind (Phrase.ofKind_from .lbrace _ _) fun _ u _ => ?_
  refine wholeBody_accounts placeTestMember (testMember .recovery) (fun m => regionsOf m.nodes)
    (fun t => regionsOf t.nodes) (fun t => t.recovery)
    (fun t recovery v => { t with recovery, span := ⟨p.token.start, v.stop⟩ })
    ?_ regionsOf_skipInTest ?_ ?_ ?_
  · intro t p rest stop met _ _
    exact testMember_accounts t p rest stop met
  · intro t r hr
    simp [Test.nodes, hr]
  · intro t recovery v marks h
    exact ⟨regionsOf_test t h _, trivial⟩
  · rfl

/-! ## Scopes and groups -/

/-- The nodes of a member of a scope or a group. -/
def BodyMember.nodes : BodyMember → List Node
  | setup s => s.nodes
  | teardown t => t.nodes
  | item i => i.nodes

/-- The regions that are recorded in a body and in its members. -/
def Body.regions (b : Body) : List Region :=
  b.recovery.regions ++ regionsOf ((b.setup.map Setup.nodes).getD [] ++
    (b.teardown.map Teardown.nodes).getD [] ++ Item.nodesOfList b.items)

/-- The member does not stand in the place of another one: the body has at most one setup and one
teardown. -/
def BodyMember.Fits (b : Body) : BodyMember → Prop
  | setup _ => b.setup = none
  | teardown _ => b.teardown = none
  | item _ => True

/-- A body keeps the regions of a member that was read. -/
theorem regions_placeBodyMember (b : Body) (m : BodyMember) (h : m.Fits b) :
    (placeBodyMember b (.parsed m)).regions.Perm (b.regions ++ regionsOf m.nodes) := by
  rw [List.perm_iff_count]
  intro x
  cases m with
  | setup s =>
    have hs : b.setup = none := h
    simp only [placeBodyMember, Body.regions, BodyMember.nodes, hs, regionsOf_append,
      Option.map_some, Option.map_none, Option.getD_some, Option.getD_none, regionsOf_nil,
      List.count_append, List.count_nil]
    omega
  | teardown t =>
    have ht : b.teardown = none := h
    simp only [placeBodyMember, Body.regions, BodyMember.nodes, ht, regionsOf_append,
      Option.map_some, Option.map_none, Option.getD_some, Option.getD_none, regionsOf_nil,
      List.count_append, List.count_nil]
    omega
  | item i =>
    simp only [placeBodyMember, Body.regions, BodyMember.nodes, Item.nodesOfList_append,
      Item.nodesOfList, regionsOf_append, List.append_nil, List.count_append]
    omega

/-- A member that was skipped in a body stands there as a placeholder, like a member that was read,
or is recorded by the body itself. -/
theorem skipInBody_cases (b : Body) (r : Region) :
    (∃ m : BodyMember, skipInBody b r = placeBodyMember b (.parsed m) ∧ StandsFor r m.nodes ∧
      m.Fits b) ∨
    skipInBody b r = { b with recovery := b.recovery.absorb (.ofRegion r) } := by
  unfold skipInBody
  split
  · split_ifs with h
    · exact .inl ⟨.setup { r.placeholder with }, rfl, .of_kind rfl, Option.isNone_iff_eq_none.1 h⟩
    · exact .inr rfl
  · split_ifs with h
    · exact .inl ⟨.teardown { r.placeholder with }, rfl, .of_kind rfl,
        Option.isNone_iff_eq_none.1 h⟩
    · exact .inr rfl
  · exact .inl ⟨.item (.test { r.placeholder with }), rfl, .of_kind rfl, trivial⟩
  · exact .inl ⟨.item (.group { r.placeholder with } []), rfl, .of_kind rfl, trivial⟩
  · exact .inr rfl

/-- A body keeps the region of a member that was skipped. -/
theorem regions_skipInBody (b : Body) (r : Region) :
    (skipInBody b r).regions.Perm (b.regions ++ [r]) := by
  rcases skipInBody_cases b r with ⟨m, h, hr, fits⟩ | h
  · rw [h, ← hr.regionsOf_eq]
    exact regions_placeBodyMember b m fits
  · rw [h, List.perm_iff_count]
    intro x
    simp only [Body.regions, Recovery.regions_absorb, Recovery.regions_ofRegion, List.count_append]
    omega

/-- A group, its reserved word included, if its body accounts for its pieces. -/
theorem group_accounts (p : Piece) (rest : List Piece) (stop : Position) (met : List ParseError)
    (hbody : ∀ v : State eof, v.size ≤ rest.length →
      (body .recovery v).Accounts v Body.regions fun _ _ => True) :
    (group p.token ⟨.after p rest, met⟩ fun v _ => body .recovery v).Accounts
      (⟨⟨p :: rest, stop⟩, met⟩ : State eof) (fun i => regionsOf i.nodes) fun _ _ => True := by
  unfold group
  refine .behind (.phrase_andThen (Phrase.label_from _ _) fun name t ht _ => ?_)
  refine (hbody t ht).andThen_ok fun b u _ => ⟨.of_eq ?_, trivial⟩
  simp [Body.regions, Item.nodes]

theorem bodyMember_accounts (b : Body) (p : Piece) (rest : List Piece) (stop : Position)
    (met : List ParseError)
    (hbody : ∀ v : State eof, v.size ≤ rest.length →
      (body .recovery v).Accounts v Body.regions fun _ _ => True) :
    (bodyMember .recovery b p.token ⟨.after p rest, met⟩ fun v _ => body .recovery v).Accounts
      (⟨⟨p :: rest, stop⟩, met⟩ : State eof) (fun m => regionsOf m.nodes)
      fun m _ => (placeBodyMember b (.parsed m)).regions.Perm (b.regions ++ regionsOf m.nodes) := by
  suffices h : (bodyMember .recovery b p.token ⟨.after p rest, met⟩
      fun v _ => body .recovery v).Accounts (⟨⟨p :: rest, stop⟩, met⟩ : State eof)
      (fun m => regionsOf m.nodes) fun m _ => m.Fits b from
    h.mono fun m _ fits => regions_placeBodyMember b m fits
  unfold bodyMember
  split_ifs with _ hs _ ht
  · exact ⟨rfl, p.token, List.mem_cons_self, .inr ⟨_, rfl⟩⟩
  · refine (setup_accounts p rest stop met).andThen_ok fun s u _ => ⟨.refl _, ?_⟩
    show b.setup = none
    simpa using hs
  · exact ⟨rfl, p.token, List.mem_cons_self, .inr ⟨_, rfl⟩⟩
  · refine .behind (.phrase_andThen (Phrase.teardownClause_from p.token _) fun t u _ hc => ?_)
    refine .here ?_ ?_
    · simp [BodyMember.nodes, Teardown.nodes, hc.1]
    · show b.teardown = none
      simpa using ht
  · exact (test_accounts p rest stop met).andThen_ok fun t u _ => ⟨.refl _, trivial⟩
  · exact (group_accounts p rest stop met hbody).andThen_ok fun i u _ => ⟨.refl _, trivial⟩
  · exact ⟨rfl, .unexpected List.mem_cons_self _⟩

/-- What the record of a body is extended by. -/
theorem regions_body (b : Body) {recovery : Recovery} {marks : List Region}
    (h : recovery.regions = b.recovery.regions ++ marks) :
    (b.regions ++ marks).Perm { b with recovery }.regions := by
  rw [List.perm_iff_count]
  intro x
  simp only [Body.regions, h, List.count_append]
  omega

/-- The body of a scope or a group. -/
theorem body_accounts_of_lt :
    ∀ (n : Nat) (s : State eof), s.size < n →
      (body .recovery s).Accounts s Body.regions fun _ _ => True := by
  intro n
  induction n with
  | zero => intro s hn; omega
  | succ n ih =>
    intro s hn
    rw [body_eq]
    refine .phrase_andThen (Phrase.ofKind_from .lbrace _ _) fun _ t ht _ => ?_
    refine wholeBody_accounts placeBodyMember
      (fun b lead u => bodyMember .recovery b lead u fun v _ => body .recovery v)
      (fun m => regionsOf m.nodes) Body.regions (fun b => b.recovery)
      (fun b recovery _ => { b with recovery }) ?_ regions_skipInBody ?_ ?_ ?_
    · -- A group within the body is shorter than the body.
      intro b p rest stop met hrest _
      exact bodyMember_accounts b p rest stop met fun v hv => ih v (by omega)
    · intro b r hr
      simp [Body.regions, hr]
    · intro b recovery v marks h
      exact ⟨regions_body b h, trivial⟩
    · rfl

/-- The body of a scope or a group. -/
theorem body_accounts (s : State eof) :
    (body .recovery s).Accounts s Body.regions fun _ _ => True :=
  body_accounts_of_lt (s.size + 1) s (Nat.lt_succ_self _)

/-- A scope, the name of its query included. -/
theorem scope_accounts (p : Piece) (rest : List Piece) (stop : Position) (met : List ParseError) :
    (scope .recovery p.token ⟨.after p rest, met⟩).Accounts (⟨⟨p :: rest, stop⟩, met⟩ : State eof)
      (fun x => regionsOf x.nodes) fun x t => x.span = ⟨p.token.start, t.stop⟩ := by
  refine .behind ((body_accounts _).andThen_ok (f := fun b t =>
    ({ query := p.token.text, setup := b.setup, teardown := b.teardown, items := b.items,
       span := ⟨p.token.start, t.stop⟩, recovery := b.recovery } : Scope)) fun b t _ => ?_)
  exact ⟨.of_eq (by simp [Body.regions, Scope.nodes]), rfl⟩

end Clause

/-! ## Documents -/

/-- The nodes of a member of a document. -/
def TopMember.nodes : TopMember → List Node
  | importClause i => [⟨.importClause, i.toNodeInfo⟩]
  | query q => [⟨.query, q.toNodeInfo⟩]
  | setup s => s.nodes
  | teardown t => t.nodes
  | scope s => s.nodes

/-- What a member of a document is in the suite, without the nodes below it. -/
def TopMember.node : TopMember → Node
  | importClause i => ⟨.importClause, i.toNodeInfo⟩
  | query q => ⟨.query, q.toNodeInfo⟩
  | setup s => ⟨.setup, s.toNodeInfo⟩
  | teardown t => ⟨.teardown, t.toNodeInfo⟩
  | scope s => ⟨.scope, s.toNodeInfo⟩

/-- The member does not stand in the place of another one: a document has at most one setup and one
teardown. -/
def TopMember.Fits (s : Suite) : TopMember → Prop
  | setup _ => s.setup = none
  | teardown _ => s.teardown = none
  | _ => True

/-- A suite keeps the regions of a member that was read. -/
theorem regionsOf_placeTopMember (s : Suite) (m : TopMember) (h : m.Fits s) :
    (regionsOf (placeTopMember s (.parsed m)).nodes).Perm
      (regionsOf s.nodes ++ regionsOf m.nodes) := by
  rw [List.perm_iff_count]
  intro x
  cases m with
  | importClause i =>
    simp only [placeTopMember, Suite.nodes, Suite.children, TopMember.nodes, regionsOf_cons,
      regionsOf_append, List.map_append, List.map_cons, List.map_nil, List.count_append]
    omega
  | query q =>
    simp only [placeTopMember, Suite.nodes, Suite.children, TopMember.nodes, regionsOf_cons,
      regionsOf_append, List.map_append, List.map_cons, List.map_nil, List.count_append]
    omega
  | setup c =>
    have hs : s.setup = none := h
    simp only [placeTopMember, Suite.nodes, Suite.children, TopMember.nodes, hs, regionsOf_cons,
      regionsOf_append, Option.map_some, Option.map_none, Option.getD_some, Option.getD_none,
      regionsOf_nil, List.count_append, List.count_nil]
    omega
  | teardown t =>
    have ht : s.teardown = none := h
    simp only [placeTopMember, Suite.nodes, Suite.children, TopMember.nodes, ht, regionsOf_cons,
      regionsOf_append, Option.map_some, Option.map_none, Option.getD_some, Option.getD_none,
      regionsOf_nil, List.count_append, List.count_nil]
    omega
  | scope c =>
    simp only [placeTopMember, Suite.nodes, Suite.children, TopMember.nodes, regionsOf_cons,
      regionsOf_append, List.flatMap_append, List.flatMap_singleton, List.count_append]
    omega

/-- A member that was skipped in a document stands in the suite as a placeholder, like a member that
was read, or is recorded by the suite itself. -/
theorem skipInSuite_cases (s : Suite) (r : Region) :
    (∃ m : TopMember, skipInSuite s r = placeTopMember s (.parsed m) ∧ StandsFor r m.nodes ∧
      m.Fits s) ∨
    skipInSuite s r = { s with recovery := s.recovery.absorb (.ofRegion r) } := by
  unfold skipInSuite
  split
  · exact .inl ⟨.importClause { r.placeholder with }, rfl, .of_kind rfl, trivial⟩
  · exact .inl ⟨.query { r.placeholder with }, rfl, .of_kind rfl, trivial⟩
  · split_ifs with h
    · exact .inl ⟨.setup { r.placeholder with }, rfl, .of_kind rfl, Option.isNone_iff_eq_none.1 h⟩
    · exact .inr rfl
  · split_ifs with h
    · exact .inl ⟨.teardown { r.placeholder with }, rfl, .of_kind rfl,
        Option.isNone_iff_eq_none.1 h⟩
    · exact .inr rfl
  · exact .inr rfl

/-- A suite keeps the region of a member that was skipped. -/
theorem regionsOf_skipInSuite (s : Suite) (r : Region) :
    (regionsOf (skipInSuite s r).nodes).Perm (regionsOf s.nodes ++ [r]) := by
  rcases skipInSuite_cases s r with ⟨m, h, hr, fits⟩ | h
  · rw [h, ← hr.regionsOf_eq]
    exact regionsOf_placeTopMember s m fits
  · rw [h, List.perm_iff_count]
    intro x
    simp only [Suite.nodes, Suite.children, regionsOf_cons, Recovery.regions_absorb,
      Recovery.regions_ofRegion, List.count_append]
    omega

/-- A member of a document, its first token included. It reaches from that token to the last one
read. -/
theorem topMember_accounts (suite : Suite) (p : Piece) (rest : List Piece) (stop : Position)
    (met : List ParseError) :
    (topMember .recovery suite p.token ⟨.after p rest, met⟩).Accounts
      (⟨⟨p :: rest, stop⟩, met⟩ : State eof) (fun m => regionsOf m.nodes)
      fun m t => m.Fits suite ∧ m.node.info.span = ⟨p.token.start, t.stop⟩ := by
  unfold topMember
  split_ifs with _ _ _ hs _ ht
  · refine .behind (.phrase_bind (Phrase.importClause_from p.token _) fun i u h => .here ?_ ?_)
    · simp [TopMember.nodes, h.1]
    · exact ⟨trivial, h.2⟩
  · refine .behind (.phrase_bind (Phrase.queryClause_from p.token _) fun i u h => .here ?_ ?_)
    · simp [TopMember.nodes, h.1]
    · exact ⟨trivial, h.2⟩
  · exact ⟨rfl, p.token, List.mem_cons_self, .inr ⟨_, rfl⟩⟩
  · refine (Clause.setup_accounts p rest stop met).andThen_ok fun c u h => ⟨.refl _, ?_, h⟩
    show suite.setup = none
    simpa using hs
  · exact ⟨rfl, p.token, List.mem_cons_self, .inr ⟨_, rfl⟩⟩
  · refine .behind (.phrase_bind (Phrase.teardownClause_from p.token _) fun i u h => .here ?_ ?_)
    · simp [TopMember.nodes, Teardown.nodes, h.1]
    · refine ⟨?_, h.2⟩
      show suite.teardown = none
      simpa using ht
  · exact (Clause.scope_accounts p rest stop met).andThen_ok fun c u h => ⟨.refl _, trivial, h⟩
  · exact ⟨rfl, .unexpected List.mem_cons_self _⟩

/-- The members of a document add their regions to the suite. -/
theorem topMember_ruleAccounts (n : Nat) :
    RuleAccounts .topLevel placeTopMember
      (topMember .recovery : Suite → Token → Clause eof TopMember) (fun m => regionsOf m.nodes)
      (fun s => regionsOf s.nodes) n := by
  intro suite p rest stop met _ _
  exact (topMember_accounts suite p rest stop met).mono fun m _ h =>
    regionsOf_placeTopMember suite m h.1

/-- The account of a document: it is read to its end, and the regions of the suite are those of the
members that were skipped. -/
theorem document_accounts (s : State eof) :
    (document .recovery s).Gives fun suite u =>
      Accounted s (regionsOf suite.nodes) u ∧ u.rest = [] := by
  refine (members_accounts (topMember_ruleAccounts s.size) regionsOf_skipInSuite {} s
    s.le_refl).mono fun suite u h => ?_
  obtain ⟨⟨added, hacc, hperm⟩, ends⟩ := h
  refine ⟨hacc.perm hperm.symm, ?_⟩
  -- The end of the document is all that closes it.
  cases hrest : u.rest with
  | nil => rfl
  | cons p rest =>
    have closes := ends p (by simp [hrest])
    simp [Context.closes] at closes

/-- The end token that reading a list of tokens stops at. -/
abbrev endToken (tokens : List Token) : Token := (Stream.ofTokens (withEnd tokens)).eof

/-- Where reading a list of tokens begins. -/
def initial (tokens : List Token) : State (endToken tokens) :=
  ⟨⟨(Stream.ofTokens (withEnd tokens)).pieces, .start⟩, []⟩

/-- The suite of a document: it reaches over the whole of it and holds its tokens. -/
def complete (tokens : List Token) (suite : Suite) : Suite :=
  { suite with
    span := ⟨.start, (endToken tokens).start⟩
    tokens := withEnd tokens }

theorem parse_eq (mode : Mode) (tokens : List Token) :
    parse mode tokens =
      match document mode (initial tokens) with
      | .ok suite s _ => .suite (complete tokens suite) s.met
      | .fail e met => .failed e met := by
  unfold parse initial
  dsimp only
  generalize document mode _ = outcome
  cases outcome <;> rfl

/-- What holds of the document that is read holds of the suite. -/
theorem parse_of_gives {tokens : List Token} {P : Suite → State (endToken tokens) → Prop}
    (h : (document .recovery (initial tokens)).Gives P) :
    ∃ suite u, parse .recovery tokens = .suite (complete tokens suite) u.met ∧ P suite u := by
  obtain ⟨suite, u, hu, hrun, hP⟩ := h.exists_eq
  exact ⟨suite, u, by rw [parse_eq, hrun], hP⟩

/-- Reading with recovery always gives a suite, and the whole document is accounted for. -/
theorem parse_recovery (tokens : List Token) :
    ∃ suite u, parse .recovery tokens = .suite suite u.met ∧ suite.tokens = withEnd tokens ∧
      Accounted (initial tokens) (regionsOf suite.nodes) u ∧ u.rest = [] := by
  obtain ⟨suite, u, hrun, hacc, hrest⟩ := parse_of_gives (document_accounts (initial tokens))
  exact ⟨complete tokens suite, u, hrun, rfl, hacc, hrest⟩

end Grammar

end QuerySuite
