import QuerySuite.Proofs.Braces
import QuerySuite.Proofs.Clauses

/-!
# Bodies that are cut off

With recovery, the braces that were read and not skipped tell whether the document ends in a body.
A `Tally` weighs the braces that were used up against those that regions hold. What is left over is
the number of bodies that were cut off: there is a brace for each of them that nothing closes. If
there is such a body, an error is noted at the end of the document; if there is none, there is
exactly one error for each region that holds tokens.

Results:

* `Tally.trans`: tallies follow each other.
* `wholeBody_tally`: the tally of a body, from that of its members.
* `document_tally`: the tally of a document.
-/

namespace QuerySuite.Grammar

variable {eof : Token} {α β σ : Type}

/-- From `s` to `t`, of the braces that were opened there and of `depth` braces that were open
before, `cut` are left that nothing closes, apart from those that the regions hold. -/
structure Tally (s : State eof) (depth : Int) (regions : List Region) (t : State eof) : Prop where
  onward : s.Onward t
  /-- Nothing that was noted is forgotten. -/
  kept : s.met <+: t.met
  weighed : ∃ cut : Nat,
    ((∀ p ∈ s.rest, p.WellFormed) →
      s.balance + depth = t.balance + balance (regions.flatMap (·.skipped)) + cut) ∧
    (cut ≠ 0 → t.rest = [] ∧ ∃ e ∈ t.met, e.span = eof.span) ∧
    (cut = 0 → t.met.length = s.met.length + regions.countP fun r => r.skipped ≠ [])

/-- Marks of the end hold no tokens. -/
theorem skipped_marks (eof : Token) (k : Nat) :
    (List.replicate k (endMark eof)).flatMap (·.skipped) = [] := by
  rw [List.flatMap_eq_nil_iff]
  intro r hr
  rw [List.eq_of_mem_replicate hr]
  rfl

namespace Tally

variable {s t u : State eof} {depth depth' : Int} {regions regions' : List Region}

/-- Pieces that are read, of which the braces are known. -/
theorem of_read (h : s.Onward t) (hm : t.met = s.met) (hb : s.balance + depth = t.balance) :
    Tally s depth [] t where
  onward := h
  kept := hm ▸ List.prefix_rfl
  weighed := ⟨0, fun _ => by simpa using hb, by simp, by simp [hm]⟩

theorem refl (s : State eof) : Tally s 0 [] s := of_read (.refl s) rfl (Int.add_zero _)

/-- A piece that is no brace. -/
theorem after {p : Piece} (h : p.token.kind.brace = 0) (rest : List Piece) (stop : Position)
    (met : List ParseError) :
    Tally (⟨⟨p :: rest, stop⟩, met⟩ : State eof) 0 [] ⟨.after p rest, met⟩ := by
  refine of_read (.after p rest stop met met) rfl ?_
  rw [Cursor.balance_cons, h, Int.zero_add, Int.add_zero]

theorem perm (h : Tally s depth regions t) (hp : regions.Perm regions') :
    Tally s depth regions' t where
  onward := h.onward
  kept := h.kept
  weighed := by
    obtain ⟨cut, hb, hcut, hclean⟩ := h.weighed
    have hsum := balance_perm (hp.flatMap_right (·.skipped))
    have hcount := hp.countP_eq fun r => decide (r.skipped ≠ [])
    exact ⟨cut, by rwa [← hsum], hcut, by rwa [← hcount]⟩

theorem trans (h : Tally s depth regions t) (h' : Tally t depth' regions' u) :
    Tally s (depth + depth') (regions ++ regions') u where
  onward := h.onward.trans h'.onward
  kept := h.kept.trans h'.kept
  weighed := by
    obtain ⟨c, hb, hcut, hclean⟩ := h.weighed
    obtain ⟨c', hb', hcut', hclean'⟩ := h'.weighed
    obtain ⟨used, hr⟩ := h.onward
    obtain ⟨more, hr'⟩ := h'.onward
    refine ⟨c + c', fun hwf => ?_, fun hne => ?_, fun hzero => ?_⟩
    · have hwf' : ∀ p ∈ t.rest, p.WellFormed := fun p hp =>
        hwf p (by rw [hr.rest_eq]; exact List.mem_append_right used hp)
      have hs := hb hwf
      have ht := hb' hwf'
      rw [List.flatMap_append, balance_append]
      omega
    · by_cases hc : c = 0
      · exact hcut' (by omega)
      · -- The document has ended before.
        obtain ⟨hrest, e, he, hspan⟩ := hcut hc
        have hnil := hr'.rest_eq
        rw [hrest] at hnil
        exact ⟨(List.append_eq_nil_iff.1 hnil.symm).2, e, h'.kept.subset he, hspan⟩
    · have hs := hclean (by omega)
      have ht := hclean' (by omega)
      rw [List.countP_append]
      omega

/-- What is read before without braces changes nothing. -/
theorem behind (h : Tally s 0 [] t) (h' : Tally t depth regions u) : Tally s depth regions u := by
  rw [← Int.zero_add depth]
  exact h.trans h'

/-- A body with the brace that opens it. -/
theorem inside (h : Tally s (-1) [] t) (h' : Tally t 1 regions u) : Tally s 0 regions u :=
  h.trans h'

/-- A member that is skipped. -/
theorem of_skip (ctx : Context) (p : Piece) (rest : List Piece) (stop : Position)
    (met : List ParseError) (e : ParseError) :
    Tally (⟨⟨p :: rest, stop⟩, met⟩ : State eof) 0 [(resume eof ctx p rest).1]
      ⟨(resume eof ctx p rest).2, met ++ [e]⟩ where
  onward := .resume ctx p rest stop met (met ++ [e])
  kept := List.prefix_append met [e]
  weighed := by
    refine ⟨0, fun hwf => ?_, by simp, fun _ => ?_⟩
    · have hrest : p :: rest = (p :: skippedAfter ctx p rest) ++ leftAfter ctx p rest :=
        (@resume_reads eof ctx p rest stop).rest_eq
      have hskipped : balance (resume eof ctx p rest).1.skipped =
          balance ((p :: skippedAfter ctx p rest).map (·.token)) := by
        rw [resume_fst, ← balance_significant]
        refine congrArg balance (significant_pieces fun q hq => hwf q ?_)
        show q ∈ p :: rest
        rw [hrest]
        exact List.mem_append_left _ hq
      show balance ((p :: rest).map (·.token)) + 0 =
        balance ((leftAfter ctx p rest).map (·.token)) +
          balance ([(resume eof ctx p rest).1].flatMap (·.skipped)) + (0 : Nat)
      rw [List.flatMap_singleton, hskipped, hrest, List.map_append, balance_append]
      omega
    · rw [resume_fst, List.length_append]
      simp [regionOf, Piece.tokens]

/-- A body that the end of the document cuts off. -/
theorem of_unclosed (stop : Position) (met : List ParseError) (k : Nat) :
    Tally (⟨⟨[], stop⟩, met⟩ : State eof) 1 (List.replicate k (endMark eof))
      ⟨⟨[], stop⟩, noteUnclosed eof met⟩ where
  onward := ⟨[], .refl _⟩
  kept := by
    unfold noteUnclosed
    split_ifs
    · exact List.prefix_rfl
    · exact List.prefix_append _ _
  weighed := by
    refine ⟨1, fun _ => ?_, fun _ => ⟨rfl, exists_mem_noteUnclosed eof met⟩, by simp⟩
    rw [skipped_marks]
    rfl

end Tally

/-! ## Bodies -/

theorem regions_recordUnclosed (eof : Token) (recovery : Recovery) :
    ∃ k, (recordUnclosed eof recovery).regions =
      recovery.regions ++ List.replicate k (endMark eof) := by
  unfold recordUnclosed
  split_ifs
  · exact ⟨0, by simp⟩
  · exact ⟨1, by simp⟩

section Body

variable {ctx : Context} {place : σ → Member α → σ} {rule : σ → Token → Clause eof α}
  {regions : α → List Region} {gathered : σ → List Region}

/-- The tally of the member rule: begun behind its first piece, it counts that piece too. -/
def RuleTallies (ctx : Context) (rule : σ → Token → Clause eof α) (regions : α → List Region)
    (n : Nat) : Prop :=
  ∀ g p rest stop met, rest.length < n → ctx.closes p.token = false →
    (rule g p.token ⟨.after p rest, met⟩).From ⟨⟨p :: rest, stop⟩, met⟩ fun a t =>
      Tally ⟨⟨p :: rest, stop⟩, met⟩ 0 (regions a) t

theorem kept_tally {n : Nat} (hrule : RuleAccounts ctx place rule regions gathered n)
    (htally : RuleTallies ctx rule regions n)
    (hskip : ∀ g r, (gathered (place g (.skipped r))).Perm (gathered g ++ [r])) (s : State eof) :
    Kept ctx place rule (fun g u => Tally s 0 (gathered g) u) n where
  separator g p rest stop met separates h := by
    simp only [Context.separates, Bool.and_eq_true] at separates
    have hafter := @Tally.after eof p (brace_of_kind separates.2) rest stop met
    exact (h.trans hafter).perm (by simp)
  parsed g p rest stop met hlt inside h := by
    have hacc := hrule g p rest stop met hlt inside
    have hmember := htally g p rest stop met hlt inside
    cases hread : rule g p.token ⟨.after p rest, met⟩ with
    | fail e inner => trivial
    | ok a t ht =>
      rw [hread] at hacc hmember
      exact ⟨hmember.1, (h.trans hmember.2).perm hacc.2.symm⟩
  skipped g p rest stop met e inner hlt inside failed h := by
    have hacc := hrule g p rest stop met hlt inside
    rw [failed] at hacc
    obtain ⟨rfl, -⟩ := hacc
    rw [List.take_length]
    exact (h.trans (.of_skip ctx p rest stop inner e)).perm (hskip g _).symm

/-- The tally of a whole body behind its opening brace, from that of its members. -/
theorem wholeBody_tally (place : σ → Member α → σ) (rule : σ → Token → Clause eof α)
    (regions : α → List Region) (gathered : σ → List Region) (regions' : β → List Region)
    (record : σ → Recovery) (f : σ → Recovery → State eof → β) {s : State eof}
    (hrule : RuleAccounts ctx place rule regions gathered s.size)
    (htally : RuleTallies ctx rule regions s.size)
    (hskip : ∀ g r, (gathered (place g (.skipped r))).Perm (gathered g ++ [r]))
    (hf : ∀ g recovery v marks, recovery.regions = (record g).regions ++ marks →
      (gathered g ++ marks).Perm (regions' (f g recovery v)))
    {g : σ} (hg : gathered g = []) :
    ((members .recovery ctx place s.size (fun g lead t _ => rule g lead t) g s s.le_refl).andThen
      fun g' u _ => (closeBody .recovery (record g') u).andThen
        fun recovery v _ => .ok (f g' recovery v) v v.le_refl).From s fun b v =>
          Tally s 1 (regions' b) v := by
  refine wholeBody_from place rule record f (kept_tally hrule htally hskip s) ?_ ?_ ?_
  · intro g' p rest stop met hbrace h
    have hclose : Tally (⟨⟨p :: rest, stop⟩, met⟩ : State eof) 1 [] ⟨.after p rest, met⟩ := by
      refine .of_read (.after p rest stop met met) rfl ?_
      rw [Cursor.balance_cons, hbrace]
      simp only [Token.Kind.brace]
      omega
    exact (h.trans hclose).perm (hf g' _ _ [] (by simp))
  · intro g' stop met h
    obtain ⟨k, hk⟩ := regions_recordUnclosed eof (record g')
    exact (h.trans (.of_unclosed stop met k)).perm (hf g' _ _ _ hk)
  · rw [hg]
    exact .refl s

end Body

/-- A brace is opened. -/
theorem Tally.of_openBody {s t : State eof} (h : s.Onward t) (hm : t.met = s.met)
    (hb : s.balance = Token.Kind.lbrace.brace + t.balance) : Tally s (-1) [] t := by
  refine .of_read h hm ?_
  rw [hb]
  simp only [Token.Kind.brace]
  omega

/-- A phrase without braces. -/
theorem Tally.of_level {s t : State eof} (h : s.Onward t) (hm : t.met = s.met)
    (hb : s.balance = t.balance) : Tally s 0 [] t :=
  .of_read h hm (by rw [hb, Int.add_zero])

namespace Clause

/-! ## Setups -/

variable {p : Piece} {rest : List Piece} {stop : Position} {met : List ParseError}

theorem setupItem_tally :
    (setupItem p.token ⟨.after p rest, met⟩).From (⟨⟨p :: rest, stop⟩, met⟩ : State eof)
      fun i t => Tally ⟨⟨p :: rest, stop⟩, met⟩ 0 (regionsOf i.nodes) t := by
  unfold setupItem
  split_ifs with hraw hname
  · exact .behind (.here (.after (brace_of_kind hraw) rest stop met))
  · have hphrase := (Phrase.call_from p.token (.after p rest : Cursor eof)).and
      (Phrase.call_balance p.token _)
    refine .behind (.phrase_bind hphrase fun call t ht hm h => .here ?_)
    refine (Tally.after (brace_of_isName hname) rest stop met).behind ?_
    refine (Tally.of_level ht hm h.2).perm (.of_eq ?_)
    simp [SetupItem.nodes, SetupTask.nodes, h.1]
  · trivial

theorem setupBlock_tally (s : State eof) :
    (setupBlock .recovery s).From s fun b t =>
      Tally s 1 (b.2.regions ++ regionsOf b.1.nodes) t :=
  wholeBody_tally placeSetupItem (fun _ lead => setupItem lead) (fun i => regionsOf i.nodes)
    (fun items => regionsOf (items.flatMap SetupItem.nodes))
    (fun b => b.2.regions ++ regionsOf b.1.nodes) (fun _ => .clean)
    (fun items recovery _ => (SetupBody.block items, recovery)) (setupItem_ruleAccounts _)
    (fun _ _ _ _ _ _ _ => setupItem_tally) regionsOf_skipSetupItem
    (fun items _ _ _ h => regionsOf_setupBlock items h) rfl

theorem setupName_tally (first : Token) (s : State eof) :
    (setupName first s).From s fun b t => Tally s 0 (regionsOf b.nodes) t := by
  unfold setupName
  split_ifs
  · have hphrase := (Phrase.call_from first s.toCursor).and (Phrase.call_balance first _)
    refine .phrase_andThen hphrase fun call t _ ht hm h => .here ?_
    refine (Tally.of_level ht hm h.2).perm (.of_eq ?_)
    simp [SetupBody.nodes, h.1]
  · exact .here (.refl s)

theorem setupBody_tally (s : State eof) :
    (setupBody .recovery s).From s fun b t =>
      Tally s 0 (b.2.regions ++ regionsOf b.1.nodes) t := by
  rcases s with ⟨⟨_ | ⟨p, rest⟩, stop⟩, met⟩
  · trivial
  · simp only [setupBody]
    split_ifs with hraw hbrace hname
    · exact .behind (.here (.after (brace_of_kind hraw) rest stop met))
    · refine ((setupBlock_tally _).mono fun b t _ hb => ?_).behind.widen _
      have hopen : Tally (⟨⟨p :: rest, stop⟩, met⟩ : State eof) (-1) [] ⟨.after p rest, met⟩ := by
        refine .of_openBody (.after p rest stop met met) rfl ?_
        rw [Cursor.balance_cons, brace_of_kind hbrace]
      exact hopen.inside hb
    · refine ((setupName_tally p.token _).andThen_ok fun b t _ hb => ?_).behind.widen _
      exact (Tally.after (brace_of_isName hname) rest stop met).behind hb
    · trivial

/-- A setup, its reserved word included. -/
theorem setup_tally (h : p.token.kind.brace = 0) :
    (setup .recovery p.token ⟨.after p rest, met⟩).From (⟨⟨p :: rest, stop⟩, met⟩ : State eof)
      fun x t => Tally ⟨⟨p :: rest, stop⟩, met⟩ 0 (regionsOf x.nodes) t := by
  refine .behind ((setupBody_tally _).andThen_ok (f := fun b t =>
    ({ body := some b.1, span := ⟨p.token.start, t.stop⟩, recovery := b.2 } : Setup))
    fun b t _ hb => ?_)
  exact (Tally.after h rest stop met).behind hb

/-! ## Assertions -/

theorem expr_tally :
    (ofPhrase (.expr p.token) ⟨.after p rest, met⟩).From (⟨⟨p :: rest, stop⟩, met⟩ : State eof)
      fun e t => Tally ⟨⟨p :: rest, stop⟩, met⟩ 0 e.recovery.regions t := by
  have hphrase := (Phrase.expr_from p rest stop).and (@Phrase.expr_balance eof p rest stop)
  refine (Outcome.From.of_phrase (s := ⟨⟨p :: rest, stop⟩, met⟩) (t := ⟨.after p rest, met⟩)
    rfl hphrase).mono fun e t ht he => ?_
  obtain ⟨⟨⟨hclean, -⟩, hb⟩, hm⟩ := he
  rw [hclean]
  exact .of_level ht hm hb

/-- An assertion, its reserved word included. -/
theorem assertion_tally (h : p.token.kind.brace = 0) :
    (assertion .recovery p.token ⟨.after p rest, met⟩).From (⟨⟨p :: rest, stop⟩, met⟩ : State eof)
      fun a t => Tally ⟨⟨p :: rest, stop⟩, met⟩ 0 (regionsOf a.nodes) t := by
  have hquery := (assertionQuery_from (.after p rest : Cursor eof)).and (assertionQuery_balance _)
  refine .behind (.phrase_bind hquery fun query t ht hm hq => ?_)
  refine .phrase_bind (Phrase.ofKind_balance .lbrace _ _) fun _ u hu hm' hb => ?_
  refine Outcome.From.mono (wholeBody_tally placeExpr (fun _ lead => ofPhrase (.expr lead))
    (fun e => e.recovery.regions) (fun a => regionsOf a.nodes) (fun a => regionsOf a.nodes)
    (fun a => a.recovery)
    (fun a recovery v => { a with recovery, span := ⟨p.token.start, v.stop⟩ })
    (expr_ruleAccounts _) (fun _ _ _ _ _ _ _ => expr_tally) regionsOf_skipExpr
    (fun a _ _ _ h => regionsOf_assertion a h _) (by simp [Assertion.nodes, hq.1]))
    fun a v _ ha => ?_
  refine (Tally.after h rest stop met).behind ((Tally.of_level ht hm hq.2).behind ?_)
  exact (Tally.of_openBody hu hm' hb).inside ha

/-! ## Tests -/

theorem testMember_tally (t : Test) :
    (testMember .recovery t p.token ⟨.after p rest, met⟩).From
      (⟨⟨p :: rest, stop⟩, met⟩ : State eof)
      fun m u => Tally ⟨⟨p :: rest, stop⟩, met⟩ 0 (regionsOf m.nodes) u := by
  unfold testMember
  split_ifs with hsetup _ hassert hident
  · trivial
  · exact (setup_tally (brace_of_isKeyword hsetup)).andThen_ok fun _ _ _ h => h
  · exact (assertion_tally (brace_of_isKeyword hassert)).andThen_ok fun _ _ _ h => h
  · have hphrase := (Phrase.statement_from p.token (.after p rest : Cursor eof)).and
      (Phrase.statement_balance p.token _)
    refine .behind (.phrase_bind hphrase fun s u hu hm h => .here ?_)
    refine (Tally.after (brace_of_kind hident) rest stop met).behind ?_
    exact (Tally.of_level hu hm h.2).perm (.of_eq h.1.symm)
  · trivial

/-- A test, its reserved word included. -/
theorem test_tally (h : p.token.kind.brace = 0) :
    (test .recovery p.token ⟨.after p rest, met⟩).From (⟨⟨p :: rest, stop⟩, met⟩ : State eof)
      fun t u => Tally ⟨⟨p :: rest, stop⟩, met⟩ 0 (regionsOf t.nodes) u := by
  refine .behind (.phrase_bind (Phrase.label_balance _ _) fun name t ht hm hname => ?_)
  refine .phrase_bind (Phrase.ofKind_balance .lbrace _ _) fun _ u hu hm' hb => ?_
  refine Outcome.From.mono (wholeBody_tally placeTestMember (testMember .recovery)
    (fun m => regionsOf m.nodes) (fun t => regionsOf t.nodes) (fun t => regionsOf t.nodes)
    (fun t => t.recovery)
    (fun t recovery v => { t with recovery, span := ⟨p.token.start, v.stop⟩ })
    (fun t p rest stop met _ _ => testMember_accounts t p rest stop met)
    (fun t _ _ _ _ _ _ => testMember_tally t) regionsOf_skipInTest
    (fun t _ _ _ h => regionsOf_test t h _) rfl) fun a v _ ha => ?_
  refine (Tally.after h rest stop met).behind ((Tally.of_level ht hm hname).behind ?_)
  exact (Tally.of_openBody hu hm' hb).inside ha

/-! ## Scopes and groups -/

theorem group_tally (h : p.token.kind.brace = 0)
    (hbody : ∀ v : State eof, v.size ≤ rest.length →
      (body .recovery v).From v fun b u => Tally v 0 b.regions u) :
    (group p.token ⟨.after p rest, met⟩ fun v _ => body .recovery v).From
      (⟨⟨p :: rest, stop⟩, met⟩ : State eof)
      fun i u => Tally ⟨⟨p :: rest, stop⟩, met⟩ 0 (regionsOf i.nodes) u := by
  unfold group
  refine .behind (.phrase_andThen (Phrase.label_balance _ _) fun name t hsize ht hm hname => ?_)
  refine (hbody t hsize).andThen_ok fun b u _ hb => ?_
  refine (Tally.after h rest stop met).behind ((Tally.of_level ht hm hname).behind ?_)
  exact hb.perm (.of_eq (by simp [Body.regions, Item.nodes]))

theorem bodyMember_tally (b : Body)
    (hbody : ∀ v : State eof, v.size ≤ rest.length →
      (body .recovery v).From v fun b u => Tally v 0 b.regions u) :
    (bodyMember .recovery b p.token ⟨.after p rest, met⟩ fun v _ => body .recovery v).From
      (⟨⟨p :: rest, stop⟩, met⟩ : State eof)
      fun m u => Tally ⟨⟨p :: rest, stop⟩, met⟩ 0 (regionsOf m.nodes) u := by
  unfold bodyMember
  split_ifs with hsetup _ hteardown _ htest hgroup
  · trivial
  · exact (setup_tally (brace_of_isKeyword hsetup)).andThen_ok fun _ _ _ h => h
  · trivial
  · have hphrase := (Phrase.teardownClause_from p.token (.after p rest : Cursor eof)).and
      (Phrase.teardownClause_balance p.token _)
    refine .behind (.phrase_andThen hphrase fun t u _ hu hm h => .here ?_)
    refine (Tally.after (brace_of_isKeyword hteardown) rest stop met).behind ?_
    refine (Tally.of_level hu hm h.2).perm (.of_eq ?_)
    simp [BodyMember.nodes, Teardown.nodes, h.1.1]
  · exact (test_tally (brace_of_isKeyword htest)).andThen_ok fun _ _ _ h => h
  · exact (group_tally (brace_of_isKeyword hgroup) hbody).andThen_ok fun _ _ _ h => h
  · trivial

theorem body_tally_of_lt :
    ∀ (n : Nat) (s : State eof), s.size < n →
      (body .recovery s).From s fun b u => Tally s 0 b.regions u := by
  intro n
  induction n with
  | zero => intro s hn; omega
  | succ n ih =>
    intro s hn
    rw [body_eq]
    refine .phrase_andThen (Phrase.ofKind_balance .lbrace _ _) fun _ t hsize ht hm hb => ?_
    refine Outcome.From.mono (wholeBody_tally placeBodyMember
      (fun b lead u => bodyMember .recovery b lead u fun v _ => body .recovery v)
      (fun m => regionsOf m.nodes) Body.regions Body.regions (fun b => b.recovery)
      (fun b recovery _ => { b with recovery })
      (fun b p rest stop met _ _ =>
        bodyMember_accounts b p rest stop met fun v _ => body_accounts v)
      (fun b p rest stop met hrest _ => bodyMember_tally b fun v hv => ih v (by omega))
      regions_skipInBody (fun b _ _ _ h => regions_body b h) rfl) fun b u _ hu => ?_
    exact (Tally.of_openBody ht hm hb).inside hu

/-- The body of a scope or a group. -/
theorem body_tally (s : State eof) :
    (body .recovery s).From s fun b u => Tally s 0 b.regions u :=
  body_tally_of_lt (s.size + 1) s (Nat.lt_succ_self _)

/-- A scope, the name of its query included. -/
theorem scope_tally (h : p.token.kind.brace = 0) :
    (scope .recovery p.token ⟨.after p rest, met⟩).From (⟨⟨p :: rest, stop⟩, met⟩ : State eof)
      fun x t => Tally ⟨⟨p :: rest, stop⟩, met⟩ 0 (regionsOf x.nodes) t := by
  refine .behind ((body_tally _).andThen_ok (f := fun b t =>
    ({ query := p.token.text, setup := b.setup, teardown := b.teardown, items := b.items,
       span := ⟨p.token.start, t.stop⟩, recovery := b.recovery } : Scope)) fun b t _ hb => ?_)
  refine (Tally.after h rest stop met).behind ?_
  exact hb.perm (.of_eq (by simp [Body.regions, Scope.nodes]))

end Clause

/-! ## Documents -/

theorem topMember_tally (suite : Suite) {p : Piece} {rest : List Piece} {stop : Position}
    {met : List ParseError} :
    (topMember .recovery suite p.token ⟨.after p rest, met⟩).From
      (⟨⟨p :: rest, stop⟩, met⟩ : State eof)
      fun m t => Tally ⟨⟨p :: rest, stop⟩, met⟩ 0 (regionsOf m.nodes) t := by
  unfold topMember
  split_ifs with himport hquery hsetup _ hteardown _ hname
  · have hphrase := (Phrase.importClause_from p.token (.after p rest : Cursor eof)).and
      (Phrase.importClause_balance p.token _)
    refine .behind (.phrase_bind hphrase fun i u hu hm h => .here ?_)
    refine (Tally.after (brace_of_isKeyword himport) rest stop met).behind ?_
    refine (Tally.of_level hu hm h.2).perm (.of_eq ?_)
    simp [TopMember.nodes, h.1.1]
  · have hphrase := (Phrase.queryClause_from p.token (.after p rest : Cursor eof)).and
      (Phrase.queryClause_balance p.token _)
    refine .behind (.phrase_bind hphrase fun q u hu hm h => .here ?_)
    refine (Tally.after (brace_of_isKeyword hquery) rest stop met).behind ?_
    refine (Tally.of_level hu hm h.2).perm (.of_eq ?_)
    simp [TopMember.nodes, h.1.1]
  · trivial
  · exact (Clause.setup_tally (brace_of_isKeyword hsetup)).andThen_ok fun _ _ _ h => h
  · trivial
  · have hphrase := (Phrase.teardownClause_from p.token (.after p rest : Cursor eof)).and
      (Phrase.teardownClause_balance p.token _)
    refine .behind (.phrase_bind hphrase fun t u hu hm h => .here ?_)
    refine (Tally.after (brace_of_isKeyword hteardown) rest stop met).behind ?_
    refine (Tally.of_level hu hm h.2).perm (.of_eq ?_)
    simp [TopMember.nodes, Teardown.nodes, h.1.1]
  · exact (Clause.scope_tally (brace_of_isName hname)).andThen_ok fun _ _ _ h => h
  · trivial

/-- The tally of a document. -/
theorem document_tally (s : State eof) :
    (document .recovery s).Gives fun suite u => Tally s 0 (regionsOf suite.nodes) u := by
  have kept := kept_tally (topMember_ruleAccounts s.size)
    (fun suite _ _ _ _ _ _ => topMember_tally suite) regionsOf_skipInSuite s
  have start : Tally s 0 (regionsOf ({} : Suite).nodes) s := .refl s
  exact (members_from kept s.le_refl start).mono fun suite u h => h.1.2

end QuerySuite.Grammar
