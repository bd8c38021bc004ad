import QuerySuite.Proofs.PhraseGrammar
import QuerySuite.Proofs.Series

/-!
# The grammar of clauses

A strict reading of a clause that yields a value has read tokens that spell it, and tokens that
spell a clause are read, in either mode. The two directions are stated apart: reading with recovery
also yields values where a member was skipped.

Only a setup looks at the token behind it, to tell a module from a call. In every body the token
behind a member is one that a member begins with, a separator or the closing brace, none of which
goes on with a call.

Results:

* `Clause.isSetup_of_yields`, `Clause.isAssertion_of_yields`, `Clause.isTest_of_yields`: what a
  strict reading has read.
* `Clause.setup_yields`, `Clause.assertion_yields`, `Clause.test_yields`: what is read in either
  mode.
-/

namespace QuerySuite.Grammar

variable {eof : Token} {α : Type}

open Phrase (EndsCall)

/-! ## Layouts of bodies -/

/-- A body whose members begin with a word, a name or a query body: none of these goes on with a
call. -/
theorem layout_of_begins {ctx : Context} {separates : Token → Prop} {P : List Token → α → Prop}
    (hsep : ∀ t, separates t ↔ ctx.separates t = true)
    (hP : ∀ ts a, P ts a →
      ∃ t us, ts = t :: us ∧ t.kind ∈ [Token.Kind.keyword, .ident, .rawString]) :
    Layout ctx separates (fun _ _ => True) P fun _ => EndsCall where
  separates_iff := hsep
  begins := by
    intro ts a h
    obtain ⟨t, us, rfl, hk⟩ := hP ts a h
    refine ⟨t, us, rfl, ?_, ?_⟩
    · simp only [Context.closes]
      grind
    · simp only [Context.separates]
      grind
  follow_separator := by
    intro ts u h
    have hu := (hsep u).1 h
    simp only [Context.separates, Bool.and_eq_true, beq_iff_eq] at hu
    exact ⟨by simp [hu.2], by simp [hu.2]⟩
  follow_member := by
    intro ts u us a h _
    obtain ⟨t, us, heq, hk⟩ := hP _ a h
    cases heq
    exact ⟨by grind, by grind⟩
  follow_close := by
    intro ts u hu
    exact ⟨by simp [hu], by simp [hu]⟩

theorem Cursor.Next.token {c : Cursor eof} {P : Token → Prop} (h : c.Next P) (heof : P eof) :
    P c.token := by
  rcases c with ⟨_ | ⟨p, rest⟩, stop⟩
  · exact heof
  · exact h p rfl

/-- Behind a name a call goes on exactly where a dot or a bracket follows. -/
theorem IsCall.follows {first : Token} {ts : List Token} {call : Call}
    (h : IsCall (first :: ts) call) (hts : ts ≠ []) :
    ∃ u us, ts = u :: us ∧ (u.kind = .dot ∨ u.kind = .lparen) := by
  cases h with
  | plain _ hparams =>
    cases hparams with
    | absent => exact absurd rfl hts
    | list ho => exact ⟨_, _, rfl, .inr ho⟩
  | qualified _ hdot => exact ⟨_, _, rfl, .inl hdot⟩

theorem kind_eq_of_isKeyword {t : Token} {word : String} (h : t.isKeyword word = true) :
    t.kind = .keyword := by
  simp_all [Token.isKeyword]

theorem IsSetup.isKeyword {w : Token} {ts : List Token} {setup : Setup}
    (h : IsSetup (w :: ts) setup) : w.isKeyword "setup" = true := by
  cases h with
  | setup hw => exact hw

namespace Clause

variable {s t : State eof} {lead : Token} {mode : Mode}

@[simp]
theorem openBody_yields_iff {o : Token} :
    (openBody s).Yields o t ↔ s.Takes [o] t ∧ o.kind = .lbrace := by
  rw [openBody, ofPhrase_yields_iff, Phrase.ofKind_yields_iff, State.Takes]
  tauto

/-- A clause that ends with the node it makes. -/
theorem lastStop_bind_yields_iff {f : Position → α} {a : α} :
    ((lastStop >>= fun stop => pure (f stop) : Clause eof α) s).Yields a t ↔
      f s.stop = a ∧ s = t := by
  rw [bind_pure_yields_iff]
  constructor
  · rintro ⟨stop, hstop, rfl⟩
    obtain ⟨hcursor, hmet⟩ := ofPhrase_yields_iff.1 hstop
    obtain ⟨rfl, hc⟩ := Phrase.lastStop_yields_iff.1 hcursor
    exact ⟨rfl, State.takes_nil_iff.1 ⟨Cursor.takes_nil_iff.2 hc, hmet⟩⟩
  · rintro ⟨rfl, rfl⟩
    exact ⟨s.stop, ofPhrase_yields_iff.2 ⟨Phrase.lastStop_yields_iff.2 ⟨rfl, rfl⟩, rfl⟩, rfl⟩

/-! ## Setups -/

theorem isSetupItem_of_yields {item : SetupItem} (hs : s.stop = lead.stop)
    (h : (setupItem lead s).Yields item t) :
    ∃ ts, s.Takes ts t ∧ IsSetupItem (lead :: ts) item := by
  unfold setupItem at h
  split_ifs at h with hraw hname
  · obtain ⟨rfl, rfl⟩ := pure_yields_iff.1 h
    exact ⟨[], State.takes_nil_iff.2 rfl, .inline (beq_iff_eq.1 hraw)⟩
  · obtain ⟨call, u, hcall, h⟩ := bind_yields_iff.1 h
    obtain ⟨rfl, rfl⟩ := lastStop_bind_yields_iff.1 h
    obtain ⟨hcall, hmet⟩ := ofPhrase_yields_iff.1 hcall
    obtain ⟨ts, hts, hcall, -⟩ := Phrase.isCall_of_yields hname hs hcall
    refine ⟨ts, ⟨hts, hmet⟩, ?_⟩
    rw [← hts.extent_behind hs]
    exact .call hcall
  · exact (Outcome.fail_yields_iff.1 h).elim

theorem setupItem_yields {item : SetupItem} {ts : List Token} (hs : s.stop = lead.stop)
    (hts : s.Takes ts t) (h : IsSetupItem (lead :: ts) item) (hnext : t.Next EndsCall) :
    (setupItem lead s).Yields item t := by
  unfold setupItem
  cases h with
  | inline hk =>
    rw [if_pos (beq_iff_eq.2 hk)]
    exact pure_yields_iff.2 ⟨rfl, State.takes_nil_iff.1 hts⟩
  | @call _ call hcall =>
    obtain ⟨_, _, heq, hname⟩ := hcall.head_isName
    cases heq
    rw [if_neg (by simp [kind_eq_of_isName hname]), if_pos hname]
    have hread := Phrase.call_yields hs hts.1 hcall hnext
    refine bind_yields_iff.2 ⟨call, t, ofPhrase_yields_iff.2 ⟨hread, hts.2⟩,
      lastStop_bind_yields_iff.2 ⟨?_, rfl⟩⟩
    rw [hts.1.extent_behind hs]

theorem layout_setupBlock :
    Layout .setupBlock (·.kind = .semicolon) (fun _ _ => True) IsSetupItem fun _ => EndsCall := by
  apply layout_of_begins
  · intro t
    simp [Context.separates]
  · intro ts item h
    cases h with
    | inline hk => exact ⟨_, _, rfl, by simp [hk]⟩
    | call hcall =>
      obtain ⟨t, us, rfl, hname⟩ := hcall.head_isName
      exact ⟨t, us, rfl, by simp [kind_eq_of_isName hname]⟩

theorem placeAll_setupItem (items : List SetupItem) :
    placeAll placeSetupItem [] items = items := by
  have h : id (placeAll placeSetupItem [] items) = id [] ++ items.filterMap some :=
    placeAll_list (fun _ _ => rfl) [] items
  simpa using h

theorem setupItem_ruleSound (n : Nat) :
    RuleSound (n := n) IsSetupItem (fun _ _ => True) (fun (_ : List SetupItem) _ => True)
      fun _ lead (t : State eof) _ => setupItem lead t := by
  intro g lead x hx item y hstop h
  obtain ⟨ts, hts, hitem⟩ := isSetupItem_of_yields hstop h
  exact ⟨ts, hts, hitem, trivial, fun _ _ => trivial⟩

theorem setupItem_ruleComplete (n : Nat) :
    RuleComplete (n := n) IsSetupItem (fun _ => EndsCall) (fun (_ : List SetupItem) _ => True)
      fun _ lead (t : State eof) _ => setupItem lead t := by
  intro g lead ts item x hx y hstop hts h _ hnext
  exact setupItem_yields hstop hts h hnext

theorem isSetupBody_of_setupBlock {v : SetupBody × Recovery} {o : Token} {r : State eof}
    (ho : r.Takes [o] s) (hk : o.kind = .lbrace) (h : (setupBlock .strict s).Yields v t) :
    ∃ ts, r.Takes ts t ∧ IsSetupBody ts v.1 ∧ v.2 = .clean := by
  obtain ⟨items, u, hitems, h⟩ := bind_yields_iff.1 h
  obtain ⟨recovery, hclose, rfl⟩ := bind_pure_yields_iff.1 h
  obtain ⟨ts, as, c, hts, hseries, -, hplace, hc, hrec⟩ :=
    closedBody_sound layout_setupBlock (setupItem_ruleSound _) hitems hclose
  rw [placeAll_setupItem] at hplace
  subst hplace
  exact ⟨o :: (ts ++ [c]), ho.cons hts, .block hk hseries hc, hrec⟩

theorem setupBlock_yields {ts : List Token} {c : Token} {items : List SetupItem}
    (hts : s.Takes (ts ++ [c]) t)
    (h : IsSeries (·.kind = .semicolon) (fun _ _ => True) IsSetupItem ts items)
    (hc : c.kind = .rbrace) : (setupBlock mode s).Yields (.block items, .clean) t := by
  obtain ⟨u, hitems, hclose⟩ := closedBody_complete layout_setupBlock
    (setupItem_ruleComplete s.size) (by decide) h s.le_refl hts (fitting_true [] items) hc
  rw [placeAll_setupItem] at hitems
  exact bind_yields_iff.2 ⟨items, u, hitems, bind_pure_yields_iff.2 ⟨.clean, hclose .clean, rfl⟩⟩

variable (heof : eof.kind = .eof)

include heof

theorem endsCall_eof : EndsCall eof := ⟨by simp [heof], by simp [heof]⟩

theorem isSetupBody_of_setupName {first : Token} {body : SetupBody} (hfirst : first.isName = true)
    (hs : s.stop = first.stop) (h : (setupName first s).Yields body t) :
    ∃ ts, s.Takes ts t ∧ IsSetupBody (first :: ts) body := by
  unfold setupName at h
  split_ifs at h with hcall
  · obtain ⟨call, hread, rfl⟩ := Outcome.andThen_ok_yields_iff.1 h
    obtain ⟨hread, hmet⟩ := ofPhrase_yields_iff.1 hread
    obtain ⟨ts, hts, hspell, hnext⟩ := Phrase.isCall_of_yields hfirst hs hread
    refine ⟨ts, ⟨hts, hmet⟩, .call hspell ?_⟩
    -- A dot or a bracket stands behind the name, so the call goes on behind it.
    cases ts with
    | cons u us => simp
    | nil =>
      rw [Cursor.takes_nil_iff] at hts
      have hends := (hnext rfl).token (endsCall_eof heof)
      rw [← hts] at hends
      simp only [Bool.or_eq_true, beq_iff_eq] at hcall
      exact absurd hcall (not_or.2 hends)
  · obtain ⟨rfl, rfl⟩ := Outcome.ok_yields_iff.1 h
    exact ⟨[], State.takes_nil_iff.2 rfl, .moduleSetup hfirst⟩

theorem setupName_yields {first : Token} {ts : List Token} {body : SetupBody}
    (hfirst : first.isName = true) (hs : s.stop = first.stop) (hts : s.Takes ts t)
    (h : IsSetupBody (first :: ts) body) (hnext : t.Next EndsCall) :
    (setupName first s).Yields body t := by
  have hk := kind_eq_of_isName hfirst
  unfold setupName
  cases h with
  | inline hraw => simp [hk] at hraw
  | block ho => simp [hk] at ho
  | moduleSetup =>
    obtain rfl := State.takes_nil_iff.1 hts
    have hends := hnext.token (endsCall_eof heof)
    rw [if_neg (by simpa [EndsCall, not_or] using hends)]
    exact Outcome.ok_yields_iff.2 ⟨rfl, rfl⟩
  | @call _ call hcall hlong =>
    obtain ⟨u, us, rfl, hu⟩ := hcall.follows (by rintro rfl; simp at hlong)
    rw [if_pos (by simpa [hts.1.token_eq] using hu)]
    have hread := Phrase.call_yields hs hts.1 hcall hnext
    exact Outcome.andThen_ok_yields_iff.2 ⟨call, ofPhrase_yields_iff.2 ⟨hread, hts.2⟩, rfl⟩

theorem isSetupBody_of_yields {v : SetupBody × Recovery} (h : (setupBody .strict s).Yields v t) :
    ∃ ts, s.Takes ts t ∧ IsSetupBody ts v.1 ∧ v.2 = .clean := by
  rcases s with ⟨⟨_ | ⟨p, rest⟩, stop⟩, met⟩
  · exact (Outcome.fail_yields_iff.1 h).elim
  · have htake : (⟨⟨p :: rest, stop⟩, met⟩ : State eof).Takes [p.token] ⟨.after p rest, met⟩ :=
      .after p rest stop met
    simp only [setupBody] at h
    split_ifs at h with hraw hbrace hname
    · obtain ⟨rfl, rfl⟩ := Outcome.ok_yields_iff.1 h
      exact ⟨[p.token], htake, .inline (beq_iff_eq.1 hraw), rfl⟩
    · exact isSetupBody_of_setupBlock htake (beq_iff_eq.1 hbrace) (Outcome.widen_yields_iff.1 h)
    · obtain ⟨body, hbody, rfl⟩ :=
        Outcome.andThen_ok_yields_iff.1 (Outcome.widen_yields_iff.1 h)
      obtain ⟨ts, hts, hspell⟩ := isSetupBody_of_setupName heof hname rfl hbody
      exact ⟨p.token :: ts, htake.cons hts, hspell, rfl⟩
    · exact (Outcome.fail_yields_iff.1 h).elim

theorem setupBody_yields {ts : List Token} {body : SetupBody} (hts : s.Takes ts t)
    (h : IsSetupBody ts body) (hnext : t.Next EndsCall) :
    (setupBody mode s).Yields (body, .clean) t := by
  obtain ⟨u, us, rfl⟩ : ∃ u us, ts = u :: us := by
    cases h with
    | inline | moduleSetup | block => exact ⟨_, _, rfl⟩
    | call hcall =>
      obtain ⟨u, us, rfl, -⟩ := hcall.head_isName
      exact ⟨u, us, rfl⟩
  obtain ⟨p, rest, stop, met, rfl, rfl, htail⟩ := hts.exists_after
  simp only [setupBody]
  by_cases hname : p.token.isName = true
  · have hk := kind_eq_of_isName hname
    rw [if_neg (by simp [hk]), if_neg (by simp [hk]), if_pos hname]
    exact Outcome.widen_yields_iff.2 (Outcome.andThen_ok_yields_iff.2
      ⟨body, setupName_yields heof hname rfl htail h hnext, rfl⟩)
  · cases h with
    | inline hk =>
      obtain rfl := State.takes_nil_iff.1 htail
      rw [if_pos (beq_iff_eq.2 hk)]
      exact Outcome.ok_yields_iff.2 ⟨rfl, rfl⟩
    | moduleSetup hn => exact absurd hn hname
    | call hcall =>
      obtain ⟨_, _, heq, hn⟩ := hcall.head_isName
      cases heq
      exact absurd hn hname
    | block ho hseries hc =>
      rw [if_neg (by simp [ho]), if_pos (beq_iff_eq.2 ho)]
      exact Outcome.widen_yields_iff.2 (setupBlock_yields htail hseries hc)

/-- What is read as a setup is spelled as one. -/
theorem isSetup_of_yields {setup : Setup} (hlead : lead.isKeyword "setup" = true)
    (hs : s.stop = lead.stop) (h : (Clause.setup .strict lead s).Yields setup t) :
    ∃ ts, s.Takes ts t ∧ IsSetup (lead :: ts) setup := by
  obtain ⟨v, u, hbody, h⟩ := bind_yields_iff.1 h
  obtain ⟨rfl, rfl⟩ := lastStop_bind_yields_iff.1 h
  obtain ⟨ts, hts, hspell, hclean⟩ := isSetupBody_of_yields heof hbody
  refine ⟨ts, hts, ?_⟩
  rw [hclean, ← hts.1.extent_behind hs]
  exact .setup hlead hspell

/-- A setup that is spelled as one is read, where nothing goes on with it. -/
theorem setup_yields {setup : Setup} {ts : List Token} (hs : s.stop = lead.stop)
    (hts : s.Takes ts t) (h : IsSetup (lead :: ts) setup) (hnext : t.Next EndsCall) :
    (Clause.setup mode lead s).Yields setup t := by
  cases h with
  | @setup _ _ body hlead hspell =>
    refine bind_yields_iff.2 ⟨(body, .clean), t, setupBody_yields heof hts hspell hnext,
      lastStop_bind_yields_iff.2 ⟨?_, rfl⟩⟩
    rw [hts.1.extent_behind hs]

omit heof

/-! ## Assertions -/

theorem layout_assertBody :
    Layout .assertBody (·.kind = .semicolon) EndsLine IsExpr
      fun ts u => Phrase.endsExpr (extent ts).start.line u = true where
  separates_iff := by
    intro t
    simp [Context.separates]
  begins := by
    intro ts e h
    cases h with
    | @expr t ts x xs ht =>
      have hends := Phrase.endsExpr_of_exprToken? ht rfl
      simp only [Phrase.endsExpr, Bool.or_eq_false_iff] at hends
      exact ⟨t, ts, rfl, by simp [Context.closes, hends.1.2], by simp [Context.separates, hends.2]⟩
  follow_separator := by
    intro ts u hu
    simp [Phrase.endsExpr, hu]
  follow_member := by
    intro ts u us e h hline
    cases h with
    | expr hu => simp [Phrase.endsExpr, hline (by simp [hu])]
  follow_close := by
    intro ts u hu
    simp [Phrase.endsExpr, hu]

theorem expr_ruleSound (n : Nat) :
    RuleSound (n := n) IsExpr EndsLine (fun (_ : Assertion) _ => True)
      fun _ lead (t : State eof) _ => ofPhrase (.expr lead) t := by
  intro g lead x hx e y hstop h
  obtain ⟨hread, hmet⟩ := ofPhrase_yields_iff.1 h
  obtain ⟨ts, hts, hspell, hnext⟩ := (Phrase.expr_yields_iff hstop).1 hread
  refine ⟨ts, ⟨hts, hmet⟩, hspell, trivial, hnext.mono fun u hu hsome => ?_⟩
  -- A token of an expression ends this one only by standing on another line.
  obtain ⟨z, hz⟩ := Option.isSome_iff_exists.1 hsome
  intro hline
  have hends : Phrase.endsExpr lead.start.line u = false :=
    Phrase.endsExpr_of_exprToken? hz hline
  rw [hends] at hu
  cases hu

theorem expr_ruleComplete (n : Nat) :
    RuleComplete (n := n) IsExpr (fun ts u => Phrase.endsExpr (extent ts).start.line u = true)
      (fun (_ : Assertion) _ => True) fun _ lead (t : State eof) _ => ofPhrase (.expr lead) t := by
  intro g lead ts e x hx y hstop hts h _ hnext
  exact ofPhrase_yields_iff.2 ⟨(Phrase.expr_yields_iff hstop).2 ⟨ts, hts.1, h, hnext⟩, hts.2⟩

theorem placeAll_expr (query : Option AssertionQuery) (exprs : List Expr) :
    placeAll placeExpr { query } exprs = { query, exprs } := by
  have hinfo : (placeAll placeExpr { query } exprs).toNodeInfo = {} :=
    placeAll_keeps (f := Assertion.toNodeInfo) (fun _ _ => rfl) _ _
  have hquery : (placeAll placeExpr { query } exprs).query = query :=
    placeAll_keeps (f := Assertion.query) (fun _ _ => rfl) _ _
  have hexprs : (placeAll placeExpr { query } exprs).exprs = [] ++ exprs.filterMap some :=
    placeAll_list (fun _ _ => rfl) _ _
  rw [List.filterMap_some, List.nil_append] at hexprs
  generalize placeAll placeExpr { query } exprs = a at hinfo hquery hexprs
  cases a
  simp_all

/-- What is read as an assertion is spelled as one. -/
theorem isAssertion_of_yields {a : Assertion} (hlead : lead.isKeyword "assert" = true)
    (hs : s.stop = lead.stop) (h : (assertion .strict lead s).Yields a t) :
    ∃ ts, s.Takes ts t ∧ IsAssertion (lead :: ts) a := by
  obtain ⟨query, u, hquery, h⟩ := bind_yields_iff.1 h
  obtain ⟨o, v, ho, h⟩ := bind_yields_iff.1 h
  obtain ⟨a', w, hmembers, h⟩ := bind_yields_iff.1 h
  obtain ⟨recovery, x, hclose, h⟩ := bind_yields_iff.1 h
  obtain ⟨rfl, rfl⟩ := lastStop_bind_yields_iff.1 h
  obtain ⟨hread, hmet⟩ := ofPhrase_yields_iff.1 hquery
  obtain ⟨qs, hqs, hquery⟩ := isAssertionQuery_of_yields hread
  obtain ⟨ho, hk⟩ := openBody_yields_iff.1 ho
  obtain ⟨ts, exprs, c, hts, hseries, -, hplace, hc, hrec⟩ :=
    closedBody_sound layout_assertBody (expr_ruleSound _) hmembers hclose
  rw [placeAll_expr] at hplace
  subst hplace
  have htake : s.Takes (qs ++ o :: (ts ++ [c])) x := State.Takes.trans ⟨hqs, hmet⟩ (ho.cons hts)
  refine ⟨_, htake, ?_⟩
  rw [hrec, ← htake.1.extent_behind hs]
  exact .assertion hlead hquery hk hseries hc

/-- An assertion that is spelled as one is read. -/
theorem assertion_yields {a : Assertion} {ts : List Token} (hs : s.stop = lead.stop)
    (hts : s.Takes ts t) (h : IsAssertion (lead :: ts) a) :
    (assertion mode lead s).Yields a t := by
  cases h with
  | @assertion _ o c qs ts query exprs hlead hquery ho hseries hc =>
    obtain ⟨u, hqs, hrest⟩ := State.takes_append_iff.1 hts
    obtain ⟨v, hv, hrest⟩ := State.takes_cons_iff.1 hrest
    have hbrace : u.Next (·.kind = .lbrace) := hv.1.next_iff.2 ho
    obtain ⟨w, hmembers, hclose⟩ := closedBody_complete layout_assertBody
      (expr_ruleComplete v.size) (by decide) hseries v.le_refl hrest
      (fitting_true ({ query } : Assertion) exprs) hc
    rw [placeAll_expr] at hmembers
    refine bind_yields_iff.2 ⟨query, u, ofPhrase_yields_iff.2
      ⟨assertionQuery_yields hqs.1 hquery hbrace, hqs.2⟩, ?_⟩
    refine bind_yields_iff.2 ⟨o, v, openBody_yields_iff.2 ⟨hv, ho⟩, ?_⟩
    refine bind_yields_iff.2 ⟨_, w, hmembers, ?_⟩
    refine bind_yields_iff.2 ⟨_, t, hclose _, lastStop_bind_yields_iff.2 ⟨?_, rfl⟩⟩
    rw [hts.1.extent_behind hs]

/-! ## Tests -/

theorem layout_testBody :
    Layout .testBody (fun _ => False) (fun _ _ => True) IsTestMember fun _ => EndsCall := by
  apply layout_of_begins
  · intro t
    simp [Context.separates]
  · intro ts m h
    cases h with
    | setup h =>
      cases h with
      | setup hw => exact ⟨_, _, rfl, by simp [kind_eq_of_isKeyword hw]⟩
    | statement h =>
      cases h with
      | statement hk => exact ⟨_, _, rfl, by simp [hk]⟩
    | assertion h =>
      cases h with
      | assertion hw => exact ⟨_, _, rfl, by simp [kind_eq_of_isKeyword hw]⟩

theorem placeAll_testMember (name : String) {ms : List TestMember}
    (h : AtMostOne TestMember.setup? ms) :
    placeAll placeTestMember { name } ms =
      { name, setup := (ms.filterMap TestMember.setup?).head?,
        statements := ms.filterMap TestMember.statement?,
        asserts := ms.filterMap TestMember.assertion? } := by
  have hinfo : (placeAll placeTestMember { name } ms).toNodeInfo = {} :=
    placeAll_keeps (f := Test.toNodeInfo) (fun _ m => by cases m <;> rfl) _ _
  have hname : (placeAll placeTestMember { name } ms).name = name :=
    placeAll_keeps (f := Test.name) (fun _ m => by cases m <;> rfl) _ _
  have hsetup : (placeAll placeTestMember { name } ms).setup =
      (ms.filterMap TestMember.setup?).head? :=
    placeAll_slot (fun _ m => by cases m <;> rfl) rfl h
  have hstatements : (placeAll placeTestMember { name } ms).statements =
      [] ++ ms.filterMap TestMember.statement? :=
    placeAll_list (fun _ m => by cases m <;> simp [placeTestMember, TestMember.statement?]) _ _
  have hasserts : (placeAll placeTestMember { name } ms).asserts =
      [] ++ ms.filterMap TestMember.assertion? :=
    placeAll_list (fun _ m => by cases m <;> simp [placeTestMember, TestMember.assertion?]) _ _
  generalize placeAll placeTestMember { name } ms = t at *
  cases t
  simp_all

theorem fitting_testMember_iff (name : String) (ms : List TestMember) :
    Fitting placeTestMember (Free Test.setup TestMember.setup?) { name } ms ↔
      AtMostOne TestMember.setup? ms :=
  fitting_free_iff_atMostOne (fun _ m => by cases m <;> rfl) rfl ms

section

include heof

theorem testMember_ruleSound (n : Nat) :
    RuleSound (n := n) IsTestMember (fun _ _ => True) (Free Test.setup TestMember.setup?)
      fun g lead (t : State eof) _ => testMember .strict g lead t := by
  intro g lead x hx m y hstop h
  simp only [testMember] at h
  split_ifs at h with hsetup hdup hassert hident
  · exact (Outcome.fail_yields_iff.1 h).elim
  · obtain ⟨setup, hread, rfl⟩ := bind_pure_yields_iff.1 h
    obtain ⟨ts, hts, hspell⟩ := isSetup_of_yields heof hsetup hstop hread
    exact ⟨ts, hts, .setup hspell, fun _ => by simpa using hdup, fun _ _ => trivial⟩
  · obtain ⟨a, hread, rfl⟩ := bind_pure_yields_iff.1 h
    obtain ⟨ts, hts, hspell⟩ := isAssertion_of_yields hassert hstop hread
    exact ⟨ts, hts, .assertion hspell, by simp [Free, TestMember.setup?], fun _ _ => trivial⟩
  · obtain ⟨s, hread, rfl⟩ := bind_pure_yields_iff.1 h
    obtain ⟨hread, hmet⟩ := ofPhrase_yields_iff.1 hread
    obtain ⟨ts, hts, hspell⟩ := (Phrase.statement_yields_iff (beq_iff_eq.1 hident) hstop).1 hread
    exact ⟨ts, ⟨hts, hmet⟩, .statement hspell, by simp [Free, TestMember.setup?],
      fun _ _ => trivial⟩
  · exact (Outcome.fail_yields_iff.1 h).elim

theorem testMember_ruleComplete (n : Nat) :
    RuleComplete (n := n) IsTestMember (fun _ => EndsCall) (Free Test.setup TestMember.setup?)
      fun g lead (t : State eof) _ => testMember mode g lead t := by
  intro g lead ts m x hx y hstop hts h hfits hnext
  show (testMember mode g lead x).Yields m y
  unfold testMember
  cases h with
  | @setup setup hspell =>
    rw [if_pos hspell.isKeyword, if_neg (by simp [hfits rfl])]
    exact bind_pure_yields_iff.2 ⟨setup, setup_yields heof hstop hts hspell hnext, rfl⟩
  | @assertion a hspell =>
    have hw : lead.isKeyword "assert" = true := by
      cases hspell with
      | assertion hw => exact hw
    rw [if_neg (by simp_all [Token.isKeyword]), if_pos hw]
    exact bind_pure_yields_iff.2 ⟨a, assertion_yields hstop hts hspell, rfl⟩
  | @statement s hspell =>
    have hk : lead.kind = .ident := by
      cases hspell with
      | statement hk => exact hk
    rw [if_neg (by simp [Token.isKeyword, hk]), if_neg (by simp [Token.isKeyword, hk]),
      if_pos (beq_iff_eq.2 hk)]
    have hread := (Phrase.statement_yields_iff hk hstop).2 ⟨ts, hts.1, hspell⟩
    exact bind_pure_yields_iff.2 ⟨s, ofPhrase_yields_iff.2 ⟨hread, hts.2⟩, rfl⟩

/-- What is read as a test is spelled as one. -/
theorem isTest_of_yields {test : Test} (hlead : lead.isKeyword "test" = true)
    (hs : s.stop = lead.stop) (h : (Clause.test .strict lead s).Yields test t) :
    ∃ ts, s.Takes ts t ∧ IsTest (lead :: ts) test := by
  obtain ⟨name, u, hname, h⟩ := bind_yields_iff.1 h
  obtain ⟨o, v, ho, h⟩ := bind_yields_iff.1 h
  obtain ⟨test', w, hmembers, h⟩ := bind_yields_iff.1 h
  obtain ⟨recovery, x, hclose, h⟩ := bind_yields_iff.1 h
  obtain ⟨rfl, rfl⟩ := lastStop_bind_yields_iff.1 h
  obtain ⟨hread, hmet⟩ := ofPhrase_yields_iff.1 hname
  obtain ⟨n, hn, hlabel⟩ := Phrase.label_yields_iff.1 hread
  obtain ⟨ho, hk⟩ := openBody_yields_iff.1 ho
  obtain ⟨ts, ms, c, hts, hseries, hfit, hplace, hc, hrec⟩ :=
    closedBody_sound layout_testBody (testMember_ruleSound heof _) hmembers hclose
  have hone := (fitting_testMember_iff name ms).1 hfit
  rw [placeAll_testMember name hone] at hplace
  subst hplace
  have htake : s.Takes (n :: o :: (ts ++ [c])) x := State.Takes.cons ⟨hn, hmet⟩ (ho.cons hts)
  refine ⟨_, htake, ?_⟩
  rw [hrec, ← htake.1.extent_behind hs]
  exact .test hlead hlabel hk hseries hc hone

/-- A test that is spelled as one is read. -/
theorem test_yields {test : Test} {ts : List Token} (hs : s.stop = lead.stop)
    (hts : s.Takes ts t) (h : IsTest (lead :: ts) test) :
    (Clause.test mode lead s).Yields test t := by
  cases h with
  | @test _ n o c ts name ms hlead hlabel ho hseries hc hone =>
    obtain ⟨u, hn, hrest⟩ := State.takes_cons_iff.1 hts
    obtain ⟨v, hv, hrest⟩ := State.takes_cons_iff.1 hrest
    obtain ⟨w, hmembers, hclose⟩ := closedBody_complete layout_testBody
      (testMember_ruleComplete heof v.size) (by decide) hseries v.le_refl hrest
      ((fitting_testMember_iff name ms).2 hone) hc
    rw [placeAll_testMember name hone] at hmembers
    refine bind_yields_iff.2 ⟨name, u, ofPhrase_yields_iff.2
      ⟨Phrase.label_yields_iff.2 ⟨n, hn.1, hlabel⟩, hn.2⟩, ?_⟩
    refine bind_yields_iff.2 ⟨o, v, openBody_yields_iff.2 ⟨hv, ho⟩, ?_⟩
    refine bind_yields_iff.2 ⟨_, w, hmembers, ?_⟩
    refine bind_yields_iff.2 ⟨_, t, hclose _, lastStop_bind_yields_iff.2 ⟨?_, rfl⟩⟩
    rw [hts.1.extent_behind hs]

end

end Clause

end QuerySuite.Grammar
