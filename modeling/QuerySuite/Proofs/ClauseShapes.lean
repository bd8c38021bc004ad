import QuerySuite.Parse
import QuerySuite.Proofs.BodyShapes

/-!
# Clauses in documents of the same shape

From a setup to a whole document, each clause reads alike where two documents look the same. What a
body gathers is compared member by member: the parts say the same, and the records of what was
skipped have one shape.

Results:

* `Clause.setup_alike`, `Clause.assertion_alike`, `Clause.test_alike`: clauses without nesting.
* `Clause.body_alike`: the bodies of scopes and groups.
* `document_alike`: a whole document, in either way to read.
-/

namespace QuerySuite

namespace Grammar

variable {eof eof' : Token} {α : Type}

/-! ## What nodes carry -/

/-- What two nodes carry is alike: the first has no comments, and the records have one shape. -/
structure InfoAlike (i i' : NodeInfo) : Prop where
  bare : i.comments = {}
  recovery : i.recovery.shape = i'.recovery.shape

theorem infoAlike_iff {i i' : NodeInfo} :
    Relabel.unplaced.info i = Relabel.shape.info i' ↔ InfoAlike i i' := by
  constructor
  · intro h
    obtain ⟨-, hbare, hrecovery⟩ := NodeInfo.mk.inj h
    exact ⟨hbare, hrecovery⟩
  · rintro ⟨hbare, hrecovery⟩
    simp only [Relabel.unplaced, Relabel.shape, hbare, hrecovery]

/-- The placeholders of skipped members say the same, whatever nodes they are. -/
theorem RegionAlike.says_placeholder {r r' : Region} (h : RegionAlike eof eof' r r')
    {relabel : Relabel → α → α} (node : NodeInfo → α)
    (hnode : ∀ x i, relabel x (node i) = node (x.info i)) :
    Says relabel (node r.placeholder) (node r'.placeholder) := by
  have hinfo : InfoAlike r.placeholder r'.placeholder :=
    ⟨rfl, congrArg Recovery.ofRegion h.same⟩
  rw [Says, hnode, hnode, infoAlike_iff.2 hinfo]

/-- The parts of two lists say the same, one by one. -/
abbrev SaysEach (relabel : Relabel → α → α) : List α → List α → Prop :=
  Says fun r => List.map (relabel r)

/-- Two parts that may be missing say the same, or both are missing. -/
abbrev SaysOption (relabel : Relabel → α → α) : Option α → Option α → Prop :=
  Says fun r => Option.map (relabel r)

theorem SaysEach.concat {relabel : Relabel → α → α} {as as' : List α} {a a' : α}
    (h : SaysEach relabel as as') (ha : Says relabel a a') :
    SaysEach relabel (as ++ [a]) (as' ++ [a']) := by
  have h : as.map (relabel .unplaced) = as'.map (relabel .shape) := h
  rw [SaysEach, Says, List.map_append, List.map_append, h, List.map_singleton,
    List.map_singleton, ha]

theorem Says.some {relabel : Relabel → α → α} {a a' : α} (h : Says relabel a a') :
    SaysOption relabel (some a) (some a') := congrArg Option.some h

theorem SaysOption.isSome_eq {relabel : Relabel → α → α} {a a' : Option α}
    (h : SaysOption relabel a a') : a.isSome = a'.isSome :=
  calc a.isSome = (a.map (relabel .unplaced)).isSome := Option.isSome_map.symm
    _ = (a'.map (relabel .shape)).isSome := congrArg Option.isSome h
    _ = a'.isSome := Option.isSome_map

theorem SaysOption.isNone_eq {relabel : Relabel → α → α} {a a' : Option α}
    (h : SaysOption relabel a a') : a.isNone = a'.isNone := by
  rw [← Option.not_isSome, ← Option.not_isSome, h.isSome_eq]

theorem SetupItem.says_iff {i i' : SetupItem} : Says SetupItem.relabel i i' ↔
    InfoAlike i.toNodeInfo i'.toNodeInfo ∧ SaysOption SetupTask.relabel i.task i'.task := by
  rw [Says, SetupItem.relabel, SetupItem.relabel, SetupItem.mk.injEq, infoAlike_iff]
  rfl

theorem Setup.says_iff {s s' : Setup} : Says Setup.relabel s s' ↔
    InfoAlike s.toNodeInfo s'.toNodeInfo ∧ SaysOption SetupBody.relabel s.body s'.body := by
  rw [Says, Setup.relabel, Setup.relabel, Setup.mk.injEq, infoAlike_iff]
  rfl

theorem Assertion.says_iff {a a' : Assertion} : Says Assertion.relabel a a' ↔
    InfoAlike a.toNodeInfo a'.toNodeInfo ∧ SaysOption AssertionQuery.relabel a.query a'.query ∧
      SaysEach Expr.relabel a.exprs a'.exprs := by
  rw [Says, Assertion.relabel, Assertion.relabel, Assertion.mk.injEq, infoAlike_iff]
  rfl

theorem Test.says_iff {t t' : Test} : Says Test.relabel t t' ↔
    InfoAlike t.toNodeInfo t'.toNodeInfo ∧ t.name = t'.name ∧
      SaysOption Setup.relabel t.setup t'.setup ∧
      SaysEach Statement.relabel t.statements t'.statements ∧
      SaysEach Assertion.relabel t.asserts t'.asserts := by
  rw [Says, Test.relabel, Test.relabel, Test.mk.injEq, infoAlike_iff]
  rfl

theorem Group.says_iff {g g' : Group} : Says Group.relabel g g' ↔
    InfoAlike g.toNodeInfo g'.toNodeInfo ∧ g.name = g'.name ∧
      SaysOption Setup.relabel g.setup g'.setup ∧
      SaysOption Teardown.relabel g.teardown g'.teardown := by
  rw [Says, Group.relabel, Group.relabel, Group.mk.injEq, infoAlike_iff]
  rfl

theorem Item.says_group {g g' : Group} {items items' : List Item} (hg : Says Group.relabel g g')
    (hitems : SaysEach Item.relabel items items') :
    Says Item.relabel (.group g items) (.group g' items') := by
  have hg : g.relabel .unplaced = g'.relabel .shape := hg
  have hitems : items.map (·.relabel .unplaced) = items'.map (·.relabel .shape) := hitems
  rw [Says, Item.relabel, Item.relabel, Item.relabelList_eq, Item.relabelList_eq, hg, hitems]

theorem Scope.says_iff {s s' : Scope} : Says Scope.relabel s s' ↔
    InfoAlike s.toNodeInfo s'.toNodeInfo ∧ s.query = s'.query ∧
      SaysOption Setup.relabel s.setup s'.setup ∧
      SaysOption Teardown.relabel s.teardown s'.teardown ∧
      SaysEach Item.relabel s.items s'.items := by
  rw [Says, Scope.relabel, Scope.relabel, Scope.mk.injEq, infoAlike_iff, Item.relabelList_eq,
    Item.relabelList_eq]
  rfl

theorem Suite.says_iff {s s' : Suite} : Says Suite.relabel s s' ↔
    InfoAlike s.toNodeInfo s'.toNodeInfo ∧ SaysEach Import.relabel s.imports s'.imports ∧
      SaysEach Query.relabel s.queries s'.queries ∧ SaysOption Setup.relabel s.setup s'.setup ∧
      SaysOption Teardown.relabel s.teardown s'.teardown ∧
      SaysEach Scope.relabel s.scopes s'.scopes ∧
      Relabel.unplaced.tokens s.tokens = Relabel.shape.tokens s'.tokens := by
  rw [Says, Suite.relabel, Suite.relabel, Suite.mk.injEq, infoAlike_iff]
  rfl

/-! ## Setups -/

namespace Clause

variable {s : State eof} {s' : State eof'} {lead lead' : Token}

theorem setupItem_alike (hlead : TokenAlike eof eof' lead lead') (h : s.Alike s') :
    (setupItem lead s).Alike (Says SetupItem.relabel) (setupItem lead' s') := by
  unfold setupItem
  rw [hlead.kind_eq, hlead.text_eq, hlead.isName_eq]
  split_ifs
  · exact .here rfl h
  · refine Outcome.Alike.bind (.of_phrase h (Phrase.call_alike hlead h.cursor))
      fun call call' t t' hcall ht => .here ?_ ht
    exact SetupItem.says_iff.2 ⟨⟨rfl, rfl⟩, Says.some (congrArg SetupTask.call hcall)⟩
  · exact .fail (hlead.unexpected _) h

theorem placeSetupItem_alike {items items' : List SetupItem} {m m' : Member SetupItem}
    (h : SaysEach SetupItem.relabel items items')
    (hm : MemberAlike eof eof' (Says SetupItem.relabel) m m') :
    SaysEach SetupItem.relabel (placeSetupItem items m) (placeSetupItem items' m') := by
  cases hm with
  | parsed hitem => exact h.concat hitem
  | skipped hregion =>
    exact h.concat
      (hregion.says_placeholder (fun i => ({ i with } : SetupItem)) fun _ _ => rfl)

/-- What a setup runs and its record are alike. -/
def SetupAlike (eof eof' : Token) (b b' : SetupBody × Recovery) : Prop :=
  Says SetupBody.relabel b.1 b'.1 ∧ RecoveryAlike eof eof' b.2 b'.2

theorem setupBlock_alike (mode : Mode) (h : s.Alike s') :
    (setupBlock mode s).Alike (SetupAlike eof eof') (setupBlock mode s') := by
  refine wholeBody_alike placeSetupItem (fun _ lead => setupItem lead)
    (fun _ lead => setupItem lead) (SaysEach SetupItem.relabel) (Says SetupItem.relabel)
    (fun _ => .clean) (fun items recovery _ => (SetupBody.block items, recovery))
    (fun items recovery _ => (SetupBody.block items, recovery)) ⟨?_, ?_⟩ ?_ ?_ rfl h
  · intro items items' m m' hitems hm
    exact placeSetupItem_alike hitems hm
  · intro _ _ p p' rest rest' met met' _ _ hall hmet
    exact setupItem_alike hall.token ⟨hall.tail, hmet⟩
  · intro _ _ _
    exact .clean
  · intro items items' recovery recovery' _ _ hitems hrecovery
    exact ⟨congrArg SetupBody.block hitems, hrecovery⟩

theorem setupName_alike {first first' : Token} (hfirst : TokenAlike eof eof' first first')
    (h : s.Alike s') :
    (setupName first s).Alike (Says SetupBody.relabel) (setupName first' s') := by
  unfold setupName
  rw [h.cursor.token.kind_eq]
  split_ifs
  · refine Outcome.Alike.andThen_ok (.of_phrase h (Phrase.call_alike hfirst h.cursor))
      fun call call' _ _ hcall => ?_
    exact congrArg SetupBody.call hcall
  · rw [hfirst.text_eq]
    exact .here rfl h

theorem setupBody_alike (mode : Mode) (h : s.Alike s') :
    (setupBody mode s).Alike (SetupAlike eof eof') (setupBody mode s') := by
  rcases s with ⟨⟨_ | ⟨p, rest⟩, stop⟩, met⟩ <;> rcases s' with ⟨⟨_ | ⟨p', rest'⟩, stop'⟩, met'⟩
  · exact ⟨h.cursor.token.unexpected _, h.met⟩
  · cases h.cursor
  · cases h.cursor
  · have hall : Grammar.Alike eof eof' (p :: rest) (p' :: rest') := h.cursor
    have hrest : (⟨.after p rest, met⟩ : State eof).Alike (⟨.after p' rest', met'⟩ : State eof') :=
      ⟨hall.tail, h.met⟩
    simp only [setupBody]
    rw [hall.token.kind_eq, hall.token.text_eq, hall.token.isName_eq]
    split_ifs
    · exact .here ⟨rfl, .clean⟩ hrest
    · exact Outcome.Alike.widen (setupBlock_alike mode hrest) _ _
    · refine Outcome.Alike.widen (Outcome.Alike.andThen_ok (setupName_alike hall.token hrest)
        fun body body' _ _ hbody => ?_) _ _
      exact ⟨hbody, .clean⟩
    · exact ⟨hall.token.unexpected _, h.met⟩

theorem setup_alike (mode : Mode) (h : s.Alike s') :
    (setup mode lead s).Alike (Says Setup.relabel) (setup mode lead' s') := by
  refine Outcome.Alike.bind (setupBody_alike mode h) fun b b' t t' hb ht => .here ?_ ht
  exact Setup.says_iff.2 ⟨⟨rfl, hb.2.same⟩, Says.some hb.1⟩

/-! ## Assertions -/

theorem assertionQuery_alike {c : Cursor eof} {c' : Cursor eof'} (h : c.Alike c') :
    (assertionQuery c).Alike (SaysOption AssertionQuery.relabel) (assertionQuery c') := by
  refine (Phrase.next?_alike h fun _ => rfl).bind fun t t' d d' ht hd => ?_
  cases ht with
  | none => exact .here rfl hd
  | some ht =>
    dsimp only
    rw [ht.kind_eq, ht.text_eq]
    split_ifs
    · exact .here rfl hd
    · refine (Phrase.call_alike ht hd).bind fun call call' e e' hcall he => .here ?_ he
      exact Says.some (congrArg AssertionQuery.call hcall)

/-- Gathered assertions say the same, and their records are alike. -/
def AssertionAlike (eof eof' : Token) (a a' : Assertion) : Prop :=
  Says Assertion.relabel a a' ∧ RecoveryAlike eof eof' a.recovery a'.recovery

theorem placeExpr_alike {a a' : Assertion} {m m' : Member Expr} (h : AssertionAlike eof eof' a a')
    (hm : MemberAlike eof eof' (Says Expr.relabel) m m') :
    AssertionAlike eof eof' (placeExpr a m) (placeExpr a' m') := by
  obtain ⟨hsame, hrecovery⟩ := h
  obtain ⟨hinfo, hquery, hexprs⟩ := Assertion.says_iff.1 hsame
  cases hm with
  | parsed hexpr =>
    exact ⟨Assertion.says_iff.2 ⟨hinfo, hquery, hexprs.concat hexpr⟩, hrecovery⟩
  | skipped hregion =>
    have habsorb := hrecovery.absorb hregion
    exact ⟨Assertion.says_iff.2 ⟨⟨hinfo.bare, habsorb.same⟩, hquery, hexprs⟩, habsorb⟩

theorem assertion_alike (mode : Mode) (h : s.Alike s') :
    (assertion mode lead s).Alike (Says Assertion.relabel) (assertion mode lead' s') := by
  refine Outcome.Alike.bind (.of_phrase h (assertionQuery_alike h.cursor))
    fun query query' t t' hquery ht => ?_
  refine Outcome.Alike.bind (.of_phrase ht (Phrase.ofKind_alike ht.cursor .lbrace _))
    fun _ _ u u' _ hu => ?_
  refine wholeBody_alike placeExpr (fun _ lead => ofPhrase (.expr lead))
    (fun _ lead => ofPhrase (.expr lead)) (AssertionAlike eof eof') (Says Expr.relabel)
    (fun a => a.recovery) (fun a recovery v => { a with recovery, span := ⟨lead.start, v.stop⟩ })
    (fun a recovery v => { a with recovery, span := ⟨lead'.start, v.stop⟩ })
    ⟨?_, ?_⟩ ?_ ?_ ⟨?_, ?_⟩ hu
  · intro a a' m m' ha hm
    exact placeExpr_alike ha hm
  · intro _ _ p p' rest rest' met met' _ _ hall hmet
    exact .of_phrase ⟨hall.tail, hmet⟩ (Phrase.expr_alike hall)
  · intro _ _ ha
    exact ha.2
  · intro a a' recovery recovery' _ _ ha hrecovery
    obtain ⟨hinfo, hquery, hexprs⟩ := Assertion.says_iff.1 ha.1
    exact Assertion.says_iff.2 ⟨⟨hinfo.bare, hrecovery.same⟩, hquery, hexprs⟩
  · exact Assertion.says_iff.2 ⟨⟨rfl, rfl⟩, hquery, rfl⟩
  · exact .clean

/-! ## Tests -/

/-- Members of a test that say the same. -/
inductive TestMemberAlike : TestMember → TestMember → Prop where
  | setup {s s' : Setup} (h : Says Setup.relabel s s') : TestMemberAlike (.setup s) (.setup s')
  | statement {s s' : Statement} (h : Says Statement.relabel s s') :
      TestMemberAlike (.statement s) (.statement s')
  | assertion {a a' : Assertion} (h : Says Assertion.relabel a a') :
      TestMemberAlike (.assertion a) (.assertion a')

/-- Gathered tests say the same, and their records are alike. -/
def TestAlike (eof eof' : Token) (t t' : Test) : Prop :=
  Says Test.relabel t t' ∧ RecoveryAlike eof eof' t.recovery t'.recovery

theorem testMember_alike (mode : Mode) {g g' : Test} (hg : TestAlike eof eof' g g')
    (hlead : TokenAlike eof eof' lead lead') (h : s.Alike s') :
    (testMember mode g lead s).Alike TestMemberAlike (testMember mode g' lead' s') := by
  obtain ⟨-, -, hsetup, -, -⟩ := Test.says_iff.1 hg.1
  unfold testMember
  rw [hlead.isKeyword_eq "setup",
    hlead.isKeyword_eq "assert", hlead.kind_eq, hsetup.isSome_eq]
  split_ifs
  · exact .fail (hlead.duplicate _) h
  · exact Outcome.Alike.bind (setup_alike mode h) fun _ _ _ _ hs ht => .here (.setup hs) ht
  · exact Outcome.Alike.bind (assertion_alike mode h) fun _ _ _ _ ha ht => .here (.assertion ha) ht
  · exact Outcome.Alike.bind (.of_phrase h (Phrase.statement_alike hlead h.cursor))
      fun _ _ _ _ hs ht => .here (.statement hs) ht
  · exact .fail (hlead.unexpected _) h

theorem skipInTest_alike {t t' : Test} {r r' : Region} (h : TestAlike eof eof' t t')
    (hr : RegionAlike eof eof' r r') : TestAlike eof eof' (skipInTest t r) (skipInTest t' r') := by
  obtain ⟨hsame, hrecovery⟩ := h
  obtain ⟨hinfo, hname, hsetup, hstatements, hasserts⟩ := Test.says_iff.1 hsame
  -- A region that goes to the test itself.
  have habsorb := hrecovery.absorb hr
  have hown : TestAlike eof eof' { t with recovery := t.recovery.absorb (.ofRegion r) }
      { t' with recovery := t'.recovery.absorb (.ofRegion r') } :=
    ⟨Test.says_iff.2 ⟨⟨hinfo.bare, habsorb.same⟩, hname, hsetup, hstatements, hasserts⟩, habsorb⟩
  unfold skipInTest
  rw [hr.lead_eq, hsetup.isNone_eq]
  split
  · split_ifs
    · refine ⟨Test.says_iff.2 ⟨hinfo, hname, Says.some ?_, hstatements, hasserts⟩, hrecovery⟩
      exact hr.says_placeholder (fun i => ({ i with } : Setup)) fun _ _ => rfl
    · exact hown
  · refine ⟨Test.says_iff.2 ⟨hinfo, hname, hsetup, hstatements, hasserts.concat ?_⟩, hrecovery⟩
    exact hr.says_placeholder (fun i => ({ i with } : Assertion)) fun _ _ => rfl
  · refine ⟨Test.says_iff.2 ⟨hinfo, hname, hsetup, hstatements.concat ?_, hasserts⟩, hrecovery⟩
    exact hr.says_placeholder (fun i => ({ i with } : Statement)) fun _ _ => rfl
  · exact hown

theorem placeTestMember_alike {t t' : Test} {m m' : Member TestMember}
    (h : TestAlike eof eof' t t') (hm : MemberAlike eof eof' TestMemberAlike m m') :
    TestAlike eof eof' (placeTestMember t m) (placeTestMember t' m') := by
  obtain ⟨hinfo, hname, hsetup, hstatements, hasserts⟩ := Test.says_iff.1 h.1
  cases hm with
  | skipped hregion => exact skipInTest_alike h hregion
  | parsed hmember =>
    refine ⟨?_, ?_⟩
    · cases hmember with
      | setup hs =>
        exact Test.says_iff.2 ⟨hinfo, hname, Says.some hs, hstatements, hasserts⟩
      | statement hs =>
        exact Test.says_iff.2 ⟨hinfo, hname, hsetup, hstatements.concat hs, hasserts⟩
      | assertion ha =>
        exact Test.says_iff.2 ⟨hinfo, hname, hsetup, hstatements, hasserts.concat ha⟩
    · cases hmember <;> exact h.2

theorem test_alike (mode : Mode) (h : s.Alike s') :
    (test mode lead s).Alike (Says Test.relabel) (test mode lead' s') := by
  refine Outcome.Alike.bind (.of_phrase h (Phrase.label_alike h.cursor _))
    fun name name' t t' hname ht => ?_
  refine Outcome.Alike.bind (.of_phrase ht (Phrase.ofKind_alike ht.cursor .lbrace _))
    fun _ _ u u' _ hu => ?_
  refine wholeBody_alike placeTestMember (testMember mode) (testMember mode)
    (TestAlike eof eof') TestMemberAlike (fun t => t.recovery)
    (fun t recovery v => { t with recovery, span := ⟨lead.start, v.stop⟩ })
    (fun t recovery v => { t with recovery, span := ⟨lead'.start, v.stop⟩ })
    ⟨?_, ?_⟩ ?_ ?_ ⟨?_, ?_⟩ hu
  · intro t t' m m' ht hm
    exact placeTestMember_alike ht hm
  · intro t t' p p' rest rest' met met' ht _ hall hmet
    exact testMember_alike mode ht hall.token ⟨hall.tail, hmet⟩
  · intro _ _ ht
    exact ht.2
  · intro t t' recovery recovery' _ _ ht hrecovery
    obtain ⟨hinfo, hname, hsetup, hstatements, hasserts⟩ := Test.says_iff.1 ht.1
    exact Test.says_iff.2 ⟨⟨hinfo.bare, hrecovery.same⟩, hname, hsetup, hstatements, hasserts⟩
  · exact Test.says_iff.2 ⟨⟨rfl, rfl⟩, hname, rfl, rfl, rfl⟩
  · exact .clean

/-! ## Scopes and groups -/

/-- Gathered bodies say the same, and their records are alike. -/
structure BodyAlike (eof eof' : Token) (b b' : Body) : Prop where
  setup : SaysOption Setup.relabel b.setup b'.setup
  teardown : SaysOption Teardown.relabel b.teardown b'.teardown
  items : SaysEach Item.relabel b.items b'.items
  recovery : RecoveryAlike eof eof' b.recovery b'.recovery

/-- Members of a scope or a group that say the same. -/
inductive BodyMemberAlike : BodyMember → BodyMember → Prop where
  | setup {s s' : Setup} (h : Says Setup.relabel s s') : BodyMemberAlike (.setup s) (.setup s')
  | teardown {t t' : Teardown} (h : Says Teardown.relabel t t') :
      BodyMemberAlike (.teardown t) (.teardown t')
  | item {i i' : Item} (h : Says Item.relabel i i') : BodyMemberAlike (.item i) (.item i')

theorem skipInBody_alike {b b' : Body} {r r' : Region} (h : BodyAlike eof eof' b b')
    (hr : RegionAlike eof eof' r r') : BodyAlike eof eof' (skipInBody b r) (skipInBody b' r') := by
  -- A region that goes to the body itself.
  have hown : BodyAlike eof eof' { b with recovery := b.recovery.absorb (.ofRegion r) }
      { b' with recovery := b'.recovery.absorb (.ofRegion r') } :=
    ⟨h.setup, h.teardown, h.items, h.recovery.absorb hr⟩
  unfold skipInBody
  rw [hr.lead_eq, h.setup.isNone_eq, h.teardown.isNone_eq]
  split
  · split_ifs
    · refine ⟨Says.some ?_, h.teardown, h.items, h.recovery⟩
      exact hr.says_placeholder (fun i => ({ i with } : Setup)) fun _ _ => rfl
    · exact hown
  · split_ifs
    · refine ⟨h.setup, Says.some ?_, h.items, h.recovery⟩
      exact hr.says_placeholder (fun i => ({ i with } : Teardown)) fun _ _ => rfl
    · exact hown
  · refine ⟨h.setup, h.teardown, h.items.concat ?_, h.recovery⟩
    exact hr.says_placeholder (fun i => Item.test { i with }) fun _ _ => rfl
  · refine ⟨h.setup, h.teardown, h.items.concat ?_, h.recovery⟩
    exact hr.says_placeholder (fun i => Item.group { i with } []) fun _ _ => rfl
  · exact hown

theorem placeBodyMember_alike {b b' : Body} {m m' : Member BodyMember}
    (h : BodyAlike eof eof' b b') (hm : MemberAlike eof eof' BodyMemberAlike m m') :
    BodyAlike eof eof' (placeBodyMember b m) (placeBodyMember b' m') := by
  cases hm with
  | skipped hregion => exact skipInBody_alike h hregion
  | parsed hmember =>
    cases hmember with
    | setup hs => exact ⟨Says.some hs, h.teardown, h.items, h.recovery⟩
    | teardown ht => exact ⟨h.setup, Says.some ht, h.items, h.recovery⟩
    | item hi => exact ⟨h.setup, h.teardown, h.items.concat hi, h.recovery⟩

/-- A member of a scope or a group, if the bodies within it are alike. -/
theorem bodyMember_alike (mode : Mode) {b b' : Body} (hb : BodyAlike eof eof' b b')
    (hlead : TokenAlike eof eof' lead lead') (h : s.Alike s')
    (hbody : ∀ (v : State eof) (v' : State eof'), v.size ≤ s.size → v.Alike v' →
      (body mode v).Alike (BodyAlike eof eof') (body mode v')) :
    (bodyMember mode b lead s fun v _ => body mode v).Alike BodyMemberAlike
      (bodyMember mode b' lead' s' fun v _ => body mode v) := by
  unfold bodyMember
  rw [hlead.isKeyword_eq "setup",
    hlead.isKeyword_eq "teardown",
    hlead.isKeyword_eq "test",
    hlead.isKeyword_eq "group", hb.setup.isSome_eq,
    hb.teardown.isSome_eq]
  split_ifs
  · exact .fail (hlead.duplicate _) h
  · exact (setup_alike mode h).andThen_ok fun _ _ _ _ hs => .setup hs
  · exact .fail (hlead.duplicate _) h
  · exact Outcome.Alike.andThen_ok (.of_phrase h (Phrase.teardownClause_alike h.cursor))
      fun _ _ _ _ ht => .teardown ht
  · exact (test_alike mode h).andThen_ok fun _ _ _ _ ht => .item (congrArg Item.test ht)
  · refine Outcome.Alike.andThen_ok (Outcome.Alike.andThen
      (.of_phrase h (Phrase.label_alike h.cursor _)) fun name name' t t' ht _ hname htt => ?_)
      fun _ _ _ _ hi => .item hi
    refine (hbody t t' ht htt).andThen_ok fun c c' _ _ hc => Item.says_group ?_ hc.items
    exact Group.says_iff.2 ⟨⟨rfl, hc.recovery.same⟩, hname, hc.setup, hc.teardown⟩
  · exact .fail (hlead.unexpected _) h

theorem body_alike_of_lt (mode : Mode) :
    ∀ (n : Nat) (s : State eof) (s' : State eof'), s.size < n → s.Alike s' →
      (body mode s).Alike (BodyAlike eof eof') (body mode s') := by
  intro n
  induction n with
  | zero => intro s s' hn; omega
  | succ n ih =>
    intro s s' hn h
    have hstart : BodyAlike eof eof' {} {} := ⟨rfl, rfl, rfl, .clean⟩
    rw [body_eq, body_eq]
    refine Outcome.Alike.andThen (.of_phrase h (Phrase.ofKind_alike h.cursor .lbrace _))
      fun _ _ t t' ht _ _ htt => ?_
    refine wholeBody_alike placeBodyMember
      (fun b lead u => bodyMember mode b lead u fun v _ => body mode v)
      (fun b lead u => bodyMember mode b lead u fun v _ => body mode v)
      (BodyAlike eof eof') BodyMemberAlike (fun b => b.recovery)
      (fun b recovery _ => { b with recovery }) (fun b recovery _ => { b with recovery })
      ⟨?_, ?_⟩ ?_ ?_ hstart htt
    · intro b b' m m' hb hm
      exact placeBodyMember_alike hb hm
    · intro b b' p p' rest rest' met met' hb hrest hall hmet
      refine bodyMember_alike mode hb hall.token ⟨hall.tail, hmet⟩ fun v v' hv hvv => ih v v' ?_ hvv
      have hv : v.size ≤ rest.length := hv
      omega
    · intro _ _ hb
      exact hb.recovery
    · intro b b' recovery recovery' _ _ hb hrecovery
      exact ⟨hb.setup, hb.teardown, hb.items, hrecovery⟩

/-- The body of a scope or a group. -/
theorem body_alike (mode : Mode) (h : s.Alike s') :
    (body mode s).Alike (BodyAlike eof eof') (body mode s') :=
  body_alike_of_lt mode (s.size + 1) s s' (Nat.lt_succ_self _) h

theorem scope_alike (mode : Mode) (hlead : TokenAlike eof eof' lead lead') (h : s.Alike s') :
    (scope mode lead s).Alike (Says Scope.relabel) (scope mode lead' s') := by
  refine Outcome.Alike.bind (body_alike mode h) fun b b' t t' hb ht => .here ?_ ht
  exact Scope.says_iff.2
    ⟨⟨rfl, hb.recovery.same⟩, hlead.text_eq, hb.setup, hb.teardown, hb.items⟩

end Clause

/-! ## Documents -/

/-- Members of a document that say the same. -/
inductive TopMemberAlike : TopMember → TopMember → Prop where
  | importClause {i i' : Import} (h : Says Import.relabel i i') :
      TopMemberAlike (.importClause i) (.importClause i')
  | query {q q' : Query} (h : Says Query.relabel q q') : TopMemberAlike (.query q) (.query q')
  | setup {s s' : Setup} (h : Says Setup.relabel s s') : TopMemberAlike (.setup s) (.setup s')
  | teardown {t t' : Teardown} (h : Says Teardown.relabel t t') :
      TopMemberAlike (.teardown t) (.teardown t')
  | scope {s s' : Scope} (h : Says Scope.relabel s s') : TopMemberAlike (.scope s) (.scope s')

/-- Gathered suites say the same, and their records are alike. -/
def SuiteAlike (eof eof' : Token) (s s' : Suite) : Prop :=
  Says Suite.relabel s s' ∧ RecoveryAlike eof eof' s.recovery s'.recovery

theorem topMember_alike (mode : Mode) {suite suite' : Suite} {s : State eof} {s' : State eof'}
    {lead lead' : Token} (hsuite : SuiteAlike eof eof' suite suite')
    (hlead : TokenAlike eof eof' lead lead') (h : s.Alike s') :
    (topMember mode suite lead s).Alike TopMemberAlike (topMember mode suite' lead' s') := by
  obtain ⟨-, -, -, hsetup, hteardown, -, -⟩ := Suite.says_iff.1 hsuite.1
  unfold topMember
  rw [hlead.isKeyword_eq "import",
    hlead.isKeyword_eq "query",
    hlead.isKeyword_eq "setup",
    hlead.isKeyword_eq "teardown",
    hlead.isName_eq, hsetup.isSome_eq, hteardown.isSome_eq]
  split_ifs
  · exact Outcome.Alike.bind (.of_phrase h (Phrase.importClause_alike h.cursor))
      fun _ _ _ _ hi ht => .here (.importClause hi) ht
  · exact Outcome.Alike.bind (.of_phrase h (Phrase.queryClause_alike h.cursor))
      fun _ _ _ _ hq ht => .here (.query hq) ht
  · exact .fail (hlead.duplicate _) h
  · exact Outcome.Alike.bind (Clause.setup_alike mode h) fun _ _ _ _ hs ht => .here (.setup hs) ht
  · exact .fail (hlead.duplicate _) h
  · exact Outcome.Alike.bind (.of_phrase h (Phrase.teardownClause_alike h.cursor))
      fun _ _ _ _ ht hu => .here (.teardown ht) hu
  · exact Outcome.Alike.bind (Clause.scope_alike mode hlead h)
      fun _ _ _ _ hs ht => .here (.scope hs) ht
  · exact .fail (hlead.unexpected _) h

theorem skipInSuite_alike {s s' : Suite} {r r' : Region} (h : SuiteAlike eof eof' s s')
    (hr : RegionAlike eof eof' r r') :
    SuiteAlike eof eof' (skipInSuite s r) (skipInSuite s' r') := by
  obtain ⟨hsame, hrecovery⟩ := h
  obtain ⟨hinfo, himports, hqueries, hsetup, hteardown, hscopes, htokens⟩ := Suite.says_iff.1 hsame
  -- A region that goes to the suite itself.
  have habsorb := hrecovery.absorb hr
  have hown : SuiteAlike eof eof' { s with recovery := s.recovery.absorb (.ofRegion r) }
      { s' with recovery := s'.recovery.absorb (.ofRegion r') } :=
    ⟨Suite.says_iff.2 ⟨⟨hinfo.bare, habsorb.same⟩, himports, hqueries, hsetup, hteardown, hscopes,
      htokens⟩, habsorb⟩
  unfold skipInSuite
  rw [hr.lead_eq, hsetup.isNone_eq, hteardown.isNone_eq]
  split
  · refine ⟨Suite.says_iff.2 ⟨hinfo, himports.concat ?_, hqueries, hsetup, hteardown, hscopes,
      htokens⟩, hrecovery⟩
    exact hr.says_placeholder (fun i => ({ i with } : Import)) fun _ _ => rfl
  · refine ⟨Suite.says_iff.2 ⟨hinfo, himports, hqueries.concat ?_, hsetup, hteardown, hscopes,
      htokens⟩, hrecovery⟩
    exact hr.says_placeholder (fun i => ({ i with } : Query)) fun _ _ => rfl
  · split_ifs
    · refine ⟨Suite.says_iff.2 ⟨hinfo, himports, hqueries, Says.some ?_, hteardown, hscopes,
        htokens⟩, hrecovery⟩
      exact hr.says_placeholder (fun i => ({ i with } : Setup)) fun _ _ => rfl
    · exact hown
  · split_ifs
    · refine ⟨Suite.says_iff.2 ⟨hinfo, himports, hqueries, hsetup, Says.some ?_, hscopes,
        htokens⟩, hrecovery⟩
      exact hr.says_placeholder (fun i => ({ i with } : Teardown)) fun _ _ => rfl
    · exact hown
  · exact hown

theorem placeTopMember_alike {s s' : Suite} {m m' : Member TopMember}
    (h : SuiteAlike eof eof' s s') (hm : MemberAlike eof eof' TopMemberAlike m m') :
    SuiteAlike eof eof' (placeTopMember s m) (placeTopMember s' m') := by
  obtain ⟨hinfo, himports, hqueries, hsetup, hteardown, hscopes, htokens⟩ := Suite.says_iff.1 h.1
  cases hm with
  | skipped hregion => exact skipInSuite_alike h hregion
  | parsed hmember =>
    refine ⟨Suite.says_iff.2 ?_, ?_⟩
    · cases hmember with
      | importClause hi =>
        exact ⟨hinfo, himports.concat hi, hqueries, hsetup, hteardown, hscopes, htokens⟩
      | query hq =>
        exact ⟨hinfo, himports, hqueries.concat hq, hsetup, hteardown, hscopes, htokens⟩
      | setup hs => exact ⟨hinfo, himports, hqueries, Says.some hs, hteardown, hscopes, htokens⟩
      | teardown ht => exact ⟨hinfo, himports, hqueries, hsetup, Says.some ht, hscopes, htokens⟩
      | scope hs =>
        exact ⟨hinfo, himports, hqueries, hsetup, hteardown, hscopes.concat hs, htokens⟩
    · cases hmember <;> exact h.2

/-- A whole document, in either way to read. -/
theorem document_alike (mode : Mode) {s : State eof} {s' : State eof'} (h : s.Alike s') :
    (document mode s).Alike (Says Suite.relabel) (document mode s') := by
  have hrules : RulesAlike placeTopMember (topMember mode : Suite → Token → Clause eof TopMember)
      (topMember mode : Suite → Token → Clause eof' TopMember) (SuiteAlike eof eof')
      TopMemberAlike s.size := by
    refine ⟨?_, ?_⟩
    · intro _ _ _ _ hsuite hm
      exact placeTopMember_alike hsuite hm
    · intro _ _ p p' rest rest' met met' hsuite _ hall hmet
      exact topMember_alike mode hsuite hall.token ⟨hall.tail, hmet⟩
  have hstart : SuiteAlike eof eof' {} {} := ⟨rfl, .clean⟩
  exact (members_alike hrules s.le_refl s'.le_refl hstart h).mono fun _ _ hsuite => hsuite.1

end Grammar

end QuerySuite
