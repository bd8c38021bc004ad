import QuerySuite.Proofs.ClauseGrammar

/-!
# The grammar of documents

The bodies of scopes and groups, which nest, and the members of a document. A body is read within a
larger one, so both directions go by induction on what is left to read.

Results:

* `Clause.isBody_of_yields`, `Clause.body_yields`: the bodies of scopes and groups.
* `document_sound`: a document that is read strictly is spelled as one, to its end.
* `document_complete`: what is spelled as a document is read as such, and reading goes on behind it.
-/

namespace QuerySuite.Grammar

variable {eof : Token}

open Phrase (EndsCall)

theorem IsTeardown.isKeyword {w : Token} {ts : List Token} {teardown : Teardown}
    (h : IsTeardown (w :: ts) teardown) : w.isKeyword "teardown" = true := by
  cases h with
  | teardown hw => exact hw

theorem IsBody.recovery_eq {P : List Token → Clause.BodyMember → Prop} {ts : List Token}
    {b : Clause.Body} (h : IsBody P ts b) : b.recovery = .clean := by
  cases h
  rfl

namespace Clause

variable {s t : State eof} {lead : Token} {mode : Mode} (heof : eof.kind = .eof)

/-! ## Scopes and groups -/

theorem layout_scopeBody :
    Layout .scopeBody (fun _ => False) (fun _ _ => True) IsBodyMember fun _ => EndsCall := by
  apply layout_of_begins
  · intro t
    simp [Context.separates]
  · intro ts m h
    cases h with
    | setup h =>
      cases h with
      | setup hw => exact ⟨_, _, rfl, by simp [kind_eq_of_isKeyword hw]⟩
    | teardown h =>
      cases h with
      | teardown hw => exact ⟨_, _, rfl, by simp [kind_eq_of_isKeyword hw]⟩
    | test h =>
      cases h with
      | test hw => exact ⟨_, _, rfl, by simp [kind_eq_of_isKeyword hw]⟩
    | group hw => exact ⟨_, _, rfl, by simp [kind_eq_of_isKeyword hw]⟩

theorem placeAll_bodyMember {ms : List BodyMember} (hsetup : AtMostOne BodyMember.setup? ms)
    (hteardown : AtMostOne BodyMember.teardown? ms) :
    placeAll placeBodyMember {} ms =
      { setup := (ms.filterMap BodyMember.setup?).head?,
        teardown := (ms.filterMap BodyMember.teardown?).head?,
        items := ms.filterMap BodyMember.item? } := by
  have hrec : (placeAll placeBodyMember {} ms).recovery = .clean :=
    placeAll_keeps (f := Body.recovery) (fun _ m => by cases m <;> rfl) _ _
  have hsetup : (placeAll placeBodyMember {} ms).setup =
      (ms.filterMap BodyMember.setup?).head? :=
    placeAll_slot (fun _ m => by cases m <;> rfl) rfl hsetup
  have hteardown : (placeAll placeBodyMember {} ms).teardown =
      (ms.filterMap BodyMember.teardown?).head? :=
    placeAll_slot (fun _ m => by cases m <;> rfl) rfl hteardown
  have hitems : (placeAll placeBodyMember {} ms).items = [] ++ ms.filterMap BodyMember.item? :=
    placeAll_list (fun _ m => by cases m <;> simp [placeBodyMember, BodyMember.item?]) _ _
  generalize placeAll placeBodyMember {} ms = b at *
  cases b
  simp_all

/-- The place of the member in a scope or a group is free. -/
def BodyMember.IsFree (b : Body) (m : BodyMember) : Prop :=
  Free Body.setup BodyMember.setup? b m ∧ Free Body.teardown BodyMember.teardown? b m

theorem fitting_bodyMember_iff (ms : List BodyMember) :
    Fitting placeBodyMember BodyMember.IsFree {} ms ↔
      AtMostOne BodyMember.setup? ms ∧ AtMostOne BodyMember.teardown? ms := by
  unfold BodyMember.IsFree
  rw [fitting_and_iff, fitting_free_iff_atMostOne (fun _ m => by cases m <;> rfl) rfl,
    fitting_free_iff_atMostOne (fun _ m => by cases m <;> rfl) rfl]

section

include heof

/-- What is read as a member of a body is spelled as one, if this holds of the bodies of groups. -/
theorem isBodyMember_of_yields {b : Body} {m : BodyMember}
    {nested : (t : State eof) → t.size ≤ s.size → Outcome eof Body t.size}
    (hnested : ∀ x hx b y, (nested x hx).Yields b y →
      ∃ ts, x.Takes ts y ∧ IsBody IsBodyMember ts b)
    (hs : s.stop = lead.stop) (h : (bodyMember .strict b lead s nested).Yields m t) :
    ∃ ts, s.Takes ts t ∧ IsBodyMember (lead :: ts) m ∧ m.IsFree b := by
  unfold bodyMember at h
  split_ifs at h with hsetup hdup hteardown hdup htest hgroup
  · exact (Outcome.fail_yields_iff.1 h).elim
  · obtain ⟨setup, hread, rfl⟩ := Outcome.andThen_ok_yields_iff.1 h
    obtain ⟨ts, hts, hspell⟩ := isSetup_of_yields heof hsetup hs hread
    exact ⟨ts, hts, .setup hspell, fun _ => by simpa using hdup,
      by simp [Free, BodyMember.teardown?]⟩
  · exact (Outcome.fail_yields_iff.1 h).elim
  · obtain ⟨teardown, hread, rfl⟩ := Outcome.andThen_ok_yields_iff.1 h
    obtain ⟨hread, hmet⟩ := ofPhrase_yields_iff.1 hread
    obtain ⟨ts, hts, hspell⟩ := (Phrase.teardownClause_yields_iff hteardown hs).1 hread
    exact ⟨ts, ⟨hts, hmet⟩, .teardown hspell, by simp [Free, BodyMember.setup?],
      fun _ => by simpa using hdup⟩
  · obtain ⟨test, hread, rfl⟩ := Outcome.andThen_ok_yields_iff.1 h
    obtain ⟨ts, hts, hspell⟩ := isTest_of_yields heof htest hs hread
    exact ⟨ts, hts, .test hspell, by simp [Free, BodyMember.setup?],
      by simp [Free, BodyMember.teardown?]⟩
  · obtain ⟨item, hread, rfl⟩ := Outcome.andThen_ok_yields_iff.1 h
    obtain ⟨name, u, hu, hname, hread⟩ := Outcome.andThen_yields_iff.1 hread
    obtain ⟨b', hbody, rfl⟩ := Outcome.andThen_ok_yields_iff.1 hread
    obtain ⟨hlabel, hmet⟩ := ofPhrase_yields_iff.1 hname
    obtain ⟨n, hn, hlabel⟩ := Phrase.label_yields_iff.1 hlabel
    obtain ⟨ts, hts, hspell⟩ := hnested u hu b' t hbody
    have htake : s.Takes (n :: ts) t := State.Takes.cons ⟨hn, hmet⟩ hts
    refine ⟨n :: ts, htake, ?_, by simp [Free, BodyMember.setup?],
      by simp [Free, BodyMember.teardown?]⟩
    rw [hspell.recovery_eq, ← htake.1.extent_behind hs]
    exact .group hgroup hlabel hspell
  · exact (Outcome.fail_yields_iff.1 h).elim

/-- A member of a body that is spelled as one is read, if this holds of the bodies of groups. -/
theorem bodyMember_yields {b : Body} {m : BodyMember} {ts : List Token}
    {nested : (t : State eof) → t.size ≤ s.size → Outcome eof Body t.size}
    (hnested : ∀ x hx ts b y, x.Takes ts y → IsBody IsBodyMember ts b → (nested x hx).Yields b y)
    (hs : s.stop = lead.stop) (hts : s.Takes ts t) (h : IsBodyMember (lead :: ts) m)
    (hfree : m.IsFree b) (hnext : t.Next EndsCall) :
    (bodyMember mode b lead s nested).Yields m t := by
  unfold bodyMember
  cases h with
  | @setup _ setup hspell =>
    rw [if_pos hspell.isKeyword, if_neg (by simp [hfree.1 rfl])]
    exact Outcome.andThen_ok_yields_iff.2 ⟨setup, setup_yields heof hs hts hspell hnext, rfl⟩
  | @teardown _ teardown hspell =>
    have hw := hspell.isKeyword
    rw [if_neg (by simp_all [Token.isKeyword]), if_pos hw, if_neg (by simp [hfree.2 rfl])]
    have hread := (Phrase.teardownClause_yields_iff hw hs).2 ⟨ts, hts.1, hspell⟩
    exact Outcome.andThen_ok_yields_iff.2
      ⟨teardown, ofPhrase_yields_iff.2 ⟨hread, hts.2⟩, rfl⟩
  | @test _ test hspell =>
    have hw : lead.isKeyword "test" = true := by
      cases hspell with
      | test hw => exact hw
    rw [if_neg (by simp_all [Token.isKeyword]), if_neg (by simp_all [Token.isKeyword]), if_pos hw]
    exact Outcome.andThen_ok_yields_iff.2 ⟨test, test_yields heof hs hts hspell, rfl⟩
  | @group _ n ts name b' hw hlabel hspell =>
    rw [if_neg (by simp_all [Token.isKeyword]), if_neg (by simp_all [Token.isKeyword]),
      if_neg (by simp_all [Token.isKeyword]), if_pos hw]
    obtain ⟨u, hn, hrest⟩ := State.takes_cons_iff.1 hts
    have hu : u.size ≤ s.size := by
      have hsize := hn.size_eq
      omega
    have hname : (ofPhrase (.label "group name") s).Yields name u :=
      ofPhrase_yields_iff.2 ⟨Phrase.label_yields_iff.2 ⟨n, hn.1, hlabel⟩, hn.2⟩
    refine Outcome.andThen_ok_yields_iff.2 ⟨_, Outcome.andThen_yields_iff.2 ⟨name, u, hu, hname,
      Outcome.andThen_ok_yields_iff.2 ⟨b', hnested u hu ts b' t hrest hspell, rfl⟩⟩, ?_⟩
    rw [hspell.recovery_eq, hts.1.extent_behind hs]

/-- What is read as a body is spelled as one, where fewer than `n` pieces are left. -/
theorem isBody_of_yields_of_lt :
    ∀ (n : Nat) (s : State eof), s.size < n → ∀ b t, (body .strict s).Yields b t →
      ∃ ts, s.Takes ts t ∧ IsBody IsBodyMember ts b := by
  intro n
  induction n with
  | zero => intro s hn; omega
  | succ n ih =>
    intro s hn b t h
    rw [body_eq] at h
    obtain ⟨o, u, hu, ho, h⟩ := Outcome.andThen_yields_iff.1 h
    obtain ⟨b', v, hv, hmembers, h⟩ := Outcome.andThen_yields_iff.1 h
    obtain ⟨recovery, hclose, rfl⟩ := Outcome.andThen_ok_yields_iff.1 h
    obtain ⟨ho, hk⟩ := openBody_yields_iff.1 ho
    have hsize := ho.size_eq
    rw [List.length_singleton] at hsize
    have sound : RuleSound (n := u.size) IsBodyMember (fun _ _ => True) BodyMember.IsFree
        fun b lead (x : State eof) _ =>
          bodyMember .strict b lead x fun y _ => body .strict y := by
      intro g lead x hx m y hstop h
      obtain ⟨ts, hts, hspell, hfree⟩ := isBodyMember_of_yields heof
        (fun z hz b w hb => ih z (by omega) b w hb) hstop h
      exact ⟨ts, hts, hspell, hfree, fun _ _ => trivial⟩
    obtain ⟨ts, ms, c, hts, hseries, hfit, hplace, hc, hrec⟩ :=
      closedBody_sound layout_scopeBody sound hmembers hclose
    obtain ⟨hsetup, hteardown⟩ := (fitting_bodyMember_iff ms).1 hfit
    rw [placeAll_bodyMember hsetup hteardown] at hplace
    subst hplace
    refine ⟨o :: (ts ++ [c]), ho.cons hts, ?_⟩
    rw [hrec]
    exact .body hk hseries hc hsetup hteardown

/-- What is read as a body is spelled as one. -/
theorem isBody_of_yields {b : Body} (h : (body .strict s).Yields b t) :
    ∃ ts, s.Takes ts t ∧ IsBody IsBodyMember ts b :=
  isBody_of_yields_of_lt heof (s.size + 1) s (Nat.lt_succ_self _) b t h

/-- A body that is spelled as one is read, where fewer than `n` pieces are left. -/
theorem body_yields_of_lt :
    ∀ (n : Nat) (s : State eof), s.size < n → ∀ ts b t, s.Takes ts t → IsBody IsBodyMember ts b →
      (body mode s).Yields b t := by
  intro n
  induction n with
  | zero => intro s hn; omega
  | succ n ih =>
    intro s hn ts b t hts h
    cases h with
    | @body o c ts ms hk hseries hc hsetup hteardown =>
      obtain ⟨u, ho, hrest⟩ := State.takes_cons_iff.1 hts
      have hsize := ho.size_eq
      rw [List.length_singleton] at hsize
      have complete : RuleComplete (n := u.size) IsBodyMember (fun _ => EndsCall)
          BodyMember.IsFree fun b lead (x : State eof) _ =>
            bodyMember mode b lead x fun y _ => body mode y := by
        intro g lead ts m x hx y hstop hts h hfree hnext
        exact bodyMember_yields heof (fun z hz ts b w hts hb => ih z (by omega) ts b w hts hb)
          hstop hts h hfree hnext
      obtain ⟨v, hmembers, hclose⟩ := closedBody_complete layout_scopeBody complete (by decide)
        hseries u.le_refl hrest ((fitting_bodyMember_iff ms).2 ⟨hsetup, hteardown⟩) hc
      rw [placeAll_bodyMember hsetup hteardown] at hmembers
      rw [body_eq]
      refine Outcome.andThen_yields_iff.2 ⟨o, u, by omega, openBody_yields_iff.2 ⟨ho, hk⟩, ?_⟩
      refine Outcome.andThen_yields_iff.2 ⟨_, v, hmembers.size_le, hmembers, ?_⟩
      exact Outcome.andThen_ok_yields_iff.2 ⟨_, hclose _, rfl⟩

/-- A body that is spelled as one is read. -/
theorem body_yields {ts : List Token} {b : Body} (hts : s.Takes ts t)
    (h : IsBody IsBodyMember ts b) : (body mode s).Yields b t :=
  body_yields_of_lt heof (s.size + 1) s (Nat.lt_succ_self _) ts b t hts h

/-- What is read as a scope is spelled as one. -/
theorem isScope_of_yields {scope : Scope} (hlead : lead.isName = true) (hs : s.stop = lead.stop)
    (h : (Clause.scope .strict lead s).Yields scope t) :
    ∃ ts, s.Takes ts t ∧ IsScope (lead :: ts) scope := by
  obtain ⟨b, u, hbody, h⟩ := bind_yields_iff.1 h
  obtain ⟨rfl, rfl⟩ := lastStop_bind_yields_iff.1 h
  obtain ⟨ts, hts, hspell⟩ := isBody_of_yields heof hbody
  refine ⟨ts, hts, ?_⟩
  rw [hspell.recovery_eq, ← hts.1.extent_behind hs]
  exact .scope hlead hspell

/-- A scope that is spelled as one is read. -/
theorem scope_yields {scope : Scope} {ts : List Token} (hs : s.stop = lead.stop)
    (hts : s.Takes ts t) (h : IsScope (lead :: ts) scope) :
    (Clause.scope mode lead s).Yields scope t := by
  cases h with
  | @scope _ _ b hlead hspell =>
    refine bind_yields_iff.2 ⟨b, t, body_yields heof hts hspell,
      lastStop_bind_yields_iff.2 ⟨?_, rfl⟩⟩
    rw [hspell.recovery_eq, hts.1.extent_behind hs]

end

end Clause

/-! ## Documents -/

theorem layout_topLevel :
    Layout .topLevel (fun _ => False) (fun _ _ => True) IsTopMember fun _ => EndsCall := by
  apply layout_of_begins
  · intro t
    simp [Context.separates]
  · intro ts m h
    cases h with
    | importClause h =>
      cases h with
      | plain hw | named hw => exact ⟨_, _, rfl, by simp [kind_eq_of_isKeyword hw]⟩
    | query h =>
      cases h with
      | query hw => exact ⟨_, _, rfl, by simp [kind_eq_of_isKeyword hw]⟩
    | setup h =>
      cases h with
      | setup hw => exact ⟨_, _, rfl, by simp [kind_eq_of_isKeyword hw]⟩
    | teardown h =>
      cases h with
      | teardown hw => exact ⟨_, _, rfl, by simp [kind_eq_of_isKeyword hw]⟩
    | scope h =>
      cases h with
      | scope hn => exact ⟨_, _, rfl, by simp [kind_eq_of_isName hn]⟩

theorem placeAll_topMember {ms : List TopMember} (hsetup : AtMostOne TopMember.setup? ms)
    (hteardown : AtMostOne TopMember.teardown? ms) :
    placeAll placeTopMember {} ms =
      { imports := ms.filterMap TopMember.import?, queries := ms.filterMap TopMember.query?,
        setup := (ms.filterMap TopMember.setup?).head?,
        teardown := (ms.filterMap TopMember.teardown?).head?,
        scopes := ms.filterMap TopMember.scope? } := by
  have hinfo : (placeAll placeTopMember {} ms).toNodeInfo = {} :=
    placeAll_keeps (f := Suite.toNodeInfo) (fun _ m => by cases m <;> rfl) _ _
  have htokens : (placeAll placeTopMember {} ms).tokens = [] :=
    placeAll_keeps (f := Suite.tokens) (fun _ m => by cases m <;> rfl) _ _
  have himports : (placeAll placeTopMember {} ms).imports =
      [] ++ ms.filterMap TopMember.import? :=
    placeAll_list (fun _ m => by cases m <;> simp [placeTopMember, TopMember.import?]) _ _
  have hqueries : (placeAll placeTopMember {} ms).queries = [] ++ ms.filterMap TopMember.query? :=
    placeAll_list (fun _ m => by cases m <;> simp [placeTopMember, TopMember.query?]) _ _
  have hscopes : (placeAll placeTopMember {} ms).scopes = [] ++ ms.filterMap TopMember.scope? :=
    placeAll_list (fun _ m => by cases m <;> simp [placeTopMember, TopMember.scope?]) _ _
  have hsetup : (placeAll placeTopMember {} ms).setup = (ms.filterMap TopMember.setup?).head? :=
    placeAll_slot (fun _ m => by cases m <;> rfl) rfl hsetup
  have hteardown : (placeAll placeTopMember {} ms).teardown =
      (ms.filterMap TopMember.teardown?).head? :=
    placeAll_slot (fun _ m => by cases m <;> rfl) rfl hteardown
  generalize placeAll placeTopMember {} ms = s at *
  cases s
  simp_all

/-- The place of the member in a document is free. -/
def TopMember.IsFree (s : Suite) (m : TopMember) : Prop :=
  Free Suite.setup TopMember.setup? s m ∧ Free Suite.teardown TopMember.teardown? s m

theorem TopMember.IsFree.of_none {s : Suite} {m : TopMember} (hsetup : m.setup? = none)
    (hteardown : m.teardown? = none) : m.IsFree s :=
  ⟨by simp [Free, hsetup], by simp [Free, hteardown]⟩

theorem fitting_topMember_iff (ms : List TopMember) :
    Fitting placeTopMember TopMember.IsFree {} ms ↔
      AtMostOne TopMember.setup? ms ∧ AtMostOne TopMember.teardown? ms := by
  unfold TopMember.IsFree
  rw [fitting_and_iff, fitting_free_iff_atMostOne (fun _ m => by cases m <;> rfl) rfl,
    fitting_free_iff_atMostOne (fun _ m => by cases m <;> rfl) rfl]

section

open Clause

variable {s t u v : State eof} {mode : Mode} (heof : eof.kind = .eof)

include heof

theorem topMember_ruleSound (n : Nat) :
    RuleSound (n := n) IsTopMember (fun _ _ => True) TopMember.IsFree
      fun g lead (t : State eof) _ => topMember .strict g lead t := by
  intro g lead x hx m y hstop h
  simp only [topMember] at h
  split_ifs at h with himport hquery hsetup hdup hteardown hdup hname
  · obtain ⟨i, hread, rfl⟩ := bind_pure_yields_iff.1 h
    obtain ⟨hread, hmet⟩ := ofPhrase_yields_iff.1 hread
    obtain ⟨ts, hts, hspell⟩ := (Phrase.importClause_yields_iff himport hstop).1 hread
    exact ⟨ts, ⟨hts, hmet⟩, .importClause hspell, .of_none rfl rfl, fun _ _ => trivial⟩
  · obtain ⟨q, hread, rfl⟩ := bind_pure_yields_iff.1 h
    obtain ⟨hread, hmet⟩ := ofPhrase_yields_iff.1 hread
    obtain ⟨ts, hts, hspell⟩ := (Phrase.queryClause_yields_iff hquery hstop).1 hread
    exact ⟨ts, ⟨hts, hmet⟩, .query hspell, .of_none rfl rfl, fun _ _ => trivial⟩
  · exact (Outcome.fail_yields_iff.1 h).elim
  · obtain ⟨setup, hread, rfl⟩ := bind_pure_yields_iff.1 h
    obtain ⟨ts, hts, hspell⟩ := isSetup_of_yields heof hsetup hstop hread
    exact ⟨ts, hts, .setup hspell,
      ⟨fun _ => by simpa using hdup, by simp [Free, TopMember.teardown?]⟩, fun _ _ => trivial⟩
  · exact (Outcome.fail_yields_iff.1 h).elim
  · obtain ⟨teardown, hread, rfl⟩ := bind_pure_yields_iff.1 h
    obtain ⟨hread, hmet⟩ := ofPhrase_yields_iff.1 hread
    obtain ⟨ts, hts, hspell⟩ := (Phrase.teardownClause_yields_iff hteardown hstop).1 hread
    exact ⟨ts, ⟨hts, hmet⟩, .teardown hspell,
      ⟨by simp [Free, TopMember.setup?], fun _ => by simpa using hdup⟩, fun _ _ => trivial⟩
  · obtain ⟨scope, hread, rfl⟩ := bind_pure_yields_iff.1 h
    obtain ⟨ts, hts, hspell⟩ := isScope_of_yields heof hname hstop hread
    exact ⟨ts, hts, .scope hspell, .of_none rfl rfl, fun _ _ => trivial⟩
  · exact (Outcome.fail_yields_iff.1 h).elim

theorem topMember_ruleComplete (n : Nat) :
    RuleComplete (n := n) IsTopMember (fun _ => EndsCall) TopMember.IsFree
      fun g lead (t : State eof) _ => topMember mode g lead t := by
  intro g lead ts m x hx y hstop hts h hfree hnext
  show (topMember mode g lead x).Yields m y
  unfold topMember
  cases h with
  | @importClause i hspell =>
    have hw : lead.isKeyword "import" = true := by
      cases hspell with
      | plain hw | named hw => exact hw
    rw [if_pos hw]
    have hread := (Phrase.importClause_yields_iff hw hstop).2 ⟨ts, hts.1, hspell⟩
    exact bind_pure_yields_iff.2 ⟨i, ofPhrase_yields_iff.2 ⟨hread, hts.2⟩, rfl⟩
  | @query q hspell =>
    have hw : lead.isKeyword "query" = true := by
      cases hspell with
      | query hw => exact hw
    rw [if_neg (by simp_all [Token.isKeyword]), if_pos hw]
    have hread := (Phrase.queryClause_yields_iff hw hstop).2 ⟨ts, hts.1, hspell⟩
    exact bind_pure_yields_iff.2 ⟨q, ofPhrase_yields_iff.2 ⟨hread, hts.2⟩, rfl⟩
  | @setup setup hspell =>
    have hw := hspell.isKeyword
    rw [if_neg (by simp_all [Token.isKeyword]), if_neg (by simp_all [Token.isKeyword]), if_pos hw,
      if_neg (by simp [hfree.1 rfl])]
    exact bind_pure_yields_iff.2 ⟨setup, setup_yields heof hstop hts hspell hnext, rfl⟩
  | @teardown teardown hspell =>
    have hw := hspell.isKeyword
    rw [if_neg (by simp_all [Token.isKeyword]), if_neg (by simp_all [Token.isKeyword]),
      if_neg (by simp_all [Token.isKeyword]), if_pos hw, if_neg (by simp [hfree.2 rfl])]
    have hread := (Phrase.teardownClause_yields_iff hw hstop).2 ⟨ts, hts.1, hspell⟩
    exact bind_pure_yields_iff.2 ⟨teardown, ofPhrase_yields_iff.2 ⟨hread, hts.2⟩, rfl⟩
  | @scope scope hspell =>
    have hn : lead.isName = true := by
      cases hspell with
      | scope hn => exact hn
    have hk := kind_eq_of_isName hn
    have hw (word : String) : lead.isKeyword word = false := by simp [Token.isKeyword, hk]
    rw [if_neg (by simp [hw]), if_neg (by simp [hw]), if_neg (by simp [hw]), if_neg (by simp [hw]),
      if_pos hn]
    exact bind_pure_yields_iff.2 ⟨scope, scope_yields heof hstop hts hspell, rfl⟩

/-- What is read as a document is spelled as one, to its end. -/
theorem document_sound {suite : Suite} (h : (document .strict s).Yields suite t) :
    ∃ ts, s.Takes ts t ∧ IsSuite ts suite ∧ t.rest = [] := by
  obtain ⟨ts, ms, hts, hseries, hfit, hplace, hends⟩ :=
    members_sound layout_topLevel (topMember_ruleSound heof _) h
  obtain ⟨hsetup, hteardown⟩ := (fitting_topMember_iff ms).1 hfit
  rw [placeAll_topMember hsetup hteardown] at hplace
  subst hplace
  refine ⟨ts, hts, .suite hseries hsetup hteardown, ?_⟩
  -- Nothing closes a document but its end.
  cases hrest : t.rest with
  | nil => rfl
  | cons p rest =>
    have hcloses := hends p (by simp [hrest])
    simp [Context.closes] at hcloses

/-- A document that begins with what is spelled as one is read as such, and reading goes on behind
it. -/
theorem document_complete {suite suite' : Suite} {ts : List Token} (hts : s.Takes ts u)
    (h : IsSuite ts suite) (hnext : u.Next EndsCall) (hu : u.size ≤ s.size)
    (honward : (members mode .topLevel placeTopMember s.size
      (fun suite lead t _ => topMember mode suite lead t) suite u hu).Yields suite' v) :
    (document mode s).Yields suite' v := by
  cases h with
  | @suite ms hseries hsetup hteardown =>
    rw [← placeAll_topMember hsetup hteardown] at honward
    exact members_complete layout_topLevel (topMember_ruleComplete heof s.size) hseries hts
      ((fitting_topMember_iff ms).2 ⟨hsetup, hteardown⟩) (fun _ => hnext) honward

end

end QuerySuite.Grammar
