import Mathlib
import QuerySuite.Proofs.Origins

/-!
# Incomplete elements

An element that lacks a part which its rule requires was not read by that rule: it is a placeholder,
and its record names the tokens that were skipped. What is read as a whole or not at all is complete
and clean. When a document is read strictly nothing is skipped, so no element of its suite lacks
anything.

Results:

* `Grammar.ReadAt.isIncomplete`: what was read by its rule lacks nothing.
* `incomplete_elements_recovered`: the elements of every suite.
-/

namespace QuerySuite

/-- The element lacks a part that its rule requires. -/
def Element.isIncomplete : Element → Bool
  | query q => q.name.isEmpty
  | teardown t => t.body.isNone
  | setup s => s.body.isNone
  | setupItem i => i.task.isNone
  | statement s => s.value.isNone || s.keyPath.isEmpty
  | _ => false

theorem Statement.keyPath_ne_empty {s : Statement} {first : String} {more : List String}
    (h : s.key = first :: more) (hfirst : first ≠ "") : s.keyPath.isEmpty = false := by
  rw [keyPath, h]
  cases more with
  | nil => simp [hfirst]
  | cons next more => simp [String.intercalate_cons_cons]

namespace Grammar

variable {eof : Token} {pieces : List Piece}

/-! ## Names -/

theorem Stream.text_ne_empty {source : String} {p : Piece}
    (h : p ∈ (Stream.ofSource source).pieces) : p.token.text ≠ "" := by
  intro hempty
  have hmem : p.token ∈ (Stream.ofSource source).lead ++
      (Stream.ofSource source).pieces.flatMap Piece.tokens :=
    List.mem_append_right _ (List.mem_flatMap.2 ⟨p, h, List.mem_cons_self⟩)
  have hlt := ((Stream.laid_ofSource source).bounds hmem).2.1
  rw [Token.stop, hempty, String.toList_empty, Position.advance_nil, Position.isBefore_iff] at hlt
  omega

namespace Phrase

/-- A name is the text of a piece. -/
theorem name_text (expected : String) (c : Cursor eof) :
    (name expected c).From c fun text _ => ∃ p ∈ c.rest, p.token.text = text := by
  have hread : (expect (·.isName) expected c).From c fun t _ => ∃ p ∈ c.rest, p.token = t := by
    unfold expect
    split
    · next t d h =>
      obtain ⟨p, hp, hr⟩ := Cursor.read?_reads h
      refine .ok ⟨p, ?_, hp⟩ ⟨[p], hr⟩
      rw [hr.rest_eq]
      exact List.mem_cons_self
    · exact .unexpected expected
  refine hread.bind fun t d ht => .here ?_
  obtain ⟨p, hp, rfl⟩ := ht
  exact ⟨p, hp, rfl⟩

theorem queryClause_name (lead : Token) (c : Cursor eof) :
    (queryClause lead c).From c fun q _ => ∃ p ∈ c.rest, p.token.text = q.name := by
  refine (name_text "query name" c).bind fun name d hname => ?_
  refine (ofKind_from .rawString "query body" d).bind fun body e _ => ?_
  exact (lastStop_from e).bind fun stop f _ => .here hname

/-- The query of a call is named by its first token or by one behind it. -/
theorem call_query (first : Token) (c : Cursor eof) :
    (call first c).From c fun x _ =>
      x.query = first.text ∨ ∃ p ∈ c.rest, p.token.text = x.query := by
  have htarget : (callTarget first c).From c fun target _ =>
      target.2 = first.text ∨ ∃ p ∈ c.rest, p.token.text = target.2 := by
    refine (next?_reads _ c).and_eq.bind fun dot d hd => ?_
    cases dot with
    | none => exact .here (.inl rfl)
    | some dot =>
      obtain ⟨-, ⟨used, hr⟩, -⟩ := hd
      refine (name_text "query name" d).bind fun query e hquery => .here (.inr ?_)
      obtain ⟨p, hp, htext⟩ := hquery
      refine ⟨p, ?_, htext⟩
      rw [hr.rest_eq]
      exact List.mem_append_right used hp
  refine htarget.bind fun target d ht => ?_
  refine (callParams_from d).bind fun params e _ => ?_
  exact (lastStop_from e).bind fun stop f _ => .here ht

theorem teardownClause_body (lead : Token) (c : Cursor eof) :
    (teardownClause lead c).From c fun t _ => t.body.isSome = true := by
  refine (ofKind_from .rawString "teardown body" c).bind fun body d _ => ?_
  exact (lastStop_from d).bind fun stop e _ => .here rfl

theorem statement_key (first : Token) (c : Cursor eof) :
    (statement first c).From c fun s _ =>
      s.value.isSome = true ∧ ∃ more, s.key = first.text :: more := by
  refine Reply.From.bind (segments_from c.stop c.rest) fun more d _ => ?_
  refine (ofKind_from .colon "':'" d).bind fun _ e _ => ?_
  refine Reply.From.bind (datum_from e) fun value f _ => ?_
  exact (lastStop_from f).bind fun stop g _ => .here ⟨rfl, more, rfl⟩

theorem expr_tokens_ne_nil {first : Token} {c d : Cursor eof} {x : Expr} {h : d.size ≤ c.size}
    (heq : expr first c = .ok x d h) : x.tokens ≠ [] := by
  cases htoken : first.exprToken? with
  | none =>
    unfold expr at heq
    rw [htoken] at heq
    cases heq
  | some t =>
    have hexpr : (expr first c).From c fun x _ => x.tokens ≠ [] := by
      unfold expr
      rw [htoken]
      refine Reply.From.bind (exprRest_from _ c.stop c.rest) fun more e _ => ?_
      exact (lastStop_from e).bind fun stop f _ => .here (List.cons_ne_nil _ _)
    exact hexpr.of_eq heq

end Phrase

/-! ## Elements that were read -/

section Read

variable {p : Piece} {rest : List Piece} {c : Cursor eof} {e : Element}
  (texts : ∀ q ∈ p :: rest, q.token.text ≠ "")

include texts

/-- What was read by its rule lacks nothing. -/
theorem ReadAt.isIncomplete (h : ReadAt p rest c e) : e.isIncomplete = false := by
  obtain ⟨hfirst, hrest⟩ := List.forall_mem_cons.1 texts
  cases e with
  | query q =>
    obtain ⟨_, heq⟩ := h
    obtain ⟨r, hr, htext⟩ := (Phrase.queryClause_name p.token _).of_eq heq
    have hne := hrest r hr
    rw [htext] at hne
    simpa [Element.isIncomplete] using hne
  | teardown t =>
    obtain ⟨_, heq⟩ := h
    have hbody := (Phrase.teardownClause_body p.token _).of_eq heq
    simpa [Element.isIncomplete] using hbody
  | setup s =>
    have hbody : s.body.isSome = true := h
    simpa [Element.isIncomplete] using hbody
  | setupItem i =>
    have htask : i.task.isSome = true := h
    simpa [Element.isIncomplete] using htask
  | statement s =>
    obtain ⟨-, _, heq⟩ := h
    obtain ⟨hvalue, more, hkey⟩ := (Phrase.statement_key p.token _).of_eq heq
    have hpath := Statement.keyPath_ne_empty hkey hfirst
    rw [Element.isIncomplete, hpath, Bool.or_false]
    simpa using hvalue
  | _ => rfl

end Read

/-! ## Elements by their origin -/

/-- The placeholder of a skipped member records the token it begins with. -/
theorem Blank.exists_significant {ctx : Context} {p : Piece} (hp : p.WellFormed)
    {rest : List Piece} {e : Element} (h : Blank (resume eof ctx p rest).1 e) :
    ∃ r, e.recovery = .ofRegion r ∧ ∃ t ∈ r.skipped, t.isTrivia = false := by
  refine ⟨(resume eof ctx p rest).1, by rw [Element.recovery, h.info, Region.placeholder], ?_⟩
  refine ⟨p.token, ?_, hp.seen⟩
  rw [resume_fst, regionOf]
  exact List.mem_flatMap.2 ⟨p, List.mem_cons_self, List.mem_cons_self⟩

namespace Origin

/-- An element that lacks a part is a placeholder. -/
theorem exists_significant {e : Element} (h : Origin eof pieces e)
    (texts : ∀ q ∈ pieces, q.token.text ≠ "") (wellFormed : ∀ q ∈ pieces, q.WellFormed)
    (hlacks : e.isIncomplete = true) :
    ∃ r, e.recovery = .ofRegion r ∧ ∃ t ∈ r.skipped, t.isTrivia = false := by
  cases h with
  | skipped ctx p rest suffix blank =>
    exact blank.exists_significant (wellFormed p (suffix.subset List.mem_cons_self))
  | read p rest used c suffix reads span rule =>
    rw [rule.isIncomplete fun q hq => texts q (suffix.subset hq)] at hlacks
    cases hlacks

/-- A scope names its query. -/
theorem scope_query_ne_empty {s : Scope} (h : Origin eof pieces (.scope s))
    (texts : ∀ q ∈ pieces, q.token.text ≠ "") : s.query ≠ "" := by
  cases h with
  | skipped ctx p rest suffix blank => cases blank
  | read p rest used c suffix reads span rule =>
    rw [rule.2]
    exact texts p (suffix.subset List.mem_cons_self)

/-- A call names its query. -/
theorem call_query_ne_empty {x : Call} (h : Origin eof pieces (.call x))
    (texts : ∀ q ∈ pieces, q.token.text ≠ "") : x.query ≠ "" := by
  cases h with
  | skipped ctx p rest suffix blank => cases blank
  | read p rest used c suffix reads span rule =>
    obtain ⟨-, _, heq⟩ := rule
    rcases (Phrase.call_query p.token _).of_eq heq with hquery | ⟨r, hr, hquery⟩
    · rw [hquery]
      exact texts p (suffix.subset List.mem_cons_self)
    · rw [← hquery]
      exact texts r (suffix.subset (List.mem_cons_of_mem p hr))

/-- An expression has tokens. -/
theorem expr_tokens_ne_nil {x : Expr} (h : Origin eof pieces (.expr x)) : x.tokens ≠ [] := by
  cases h with
  | skipped ctx p rest suffix blank => cases blank
  | read p rest used c suffix reads span rule =>
    obtain ⟨_, heq⟩ := rule
    exact Phrase.expr_tokens_ne_nil heq

end Origin

end Grammar

/-! ## Suites -/

/-- Nothing is recorded in a suite that was read strictly. -/
theorem recovery_eq_clean_of_strict {source : String} {suite : Suite}
    (h : (parse .strict source).suite = some suite) {e : Element} (he : e ∈ suite.elements) :
    e.recovery = .clean := by
  obtain ⟨met, hrun, hmet⟩ := Grammar.exists_parse_recovery h
  have hnode : e.node ∈ suite.nodes := by
    rw [← suite.map_node_elements]
    exact List.mem_map_of_mem he
  have hclean : e.recovery.wasRecovered = false :=
    (Grammar.parse_recovery_clean_iff hrun).1 (hmet rfl) e.node hnode
  cases hrecord : e.recovery with
  | clean => rfl
  | recovered first absorbed =>
    rw [hrecord] at hclean
    cases hclean

/-- In both ways to read a source, an element that lacks a required part was recovered from, and its
record holds a token that the grammar would have seen. Scopes and calls name a query, expressions
have tokens, and values, expressions and calls are never recovered from. In a suite that was read
strictly every element is clean, so none of them lacks a part. -/
theorem incomplete_elements_recovered {mode : Grammar.Mode} {source : String} {suite : Suite}
    (h : (parse mode source).suite = some suite) :
    suite.elements.map Element.node = suite.nodes ∧
    (∀ e ∈ suite.elements, e.isIncomplete = true → e.recovery.wasRecovered = true ∧
      ∃ r, e.recovery = .ofRegion r ∧ ∃ t ∈ r.skipped, t.isTrivia = false) ∧
    (∀ s, .scope s ∈ suite.elements → s.query ≠ "") ∧
    (∀ c, .call c ∈ suite.elements → c.query ≠ "") ∧
    (∀ x, .expr x ∈ suite.elements → x.tokens ≠ []) ∧
    (∀ e ∈ suite.elements, e.node.kind ∈ [NodeKind.value, .expr, .call] →
      e.recovery.wasRecovered = false) ∧
    (mode = .strict → ∀ e ∈ suite.elements, e.recovery = .clean ∧ e.isIncomplete = false) := by
  have htexts : ∀ q ∈ (Grammar.Stream.ofSource source).pieces, q.token.text ≠ "" :=
    fun q hq => Grammar.Stream.text_ne_empty hq
  have horigin {e : Element} (he : e ∈ suite.elements) (hne : e ≠ .suite suite) :
      Grammar.Origin (Grammar.Stream.ofSource source).eof
        (Grammar.Stream.ofSource source).pieces e :=
    (Grammar.parse_traced h e he).resolve_left hne
  have hrecovered (e : Element) (he : e ∈ suite.elements) (hlacks : e.isIncomplete = true) :
      ∃ r, e.recovery = .ofRegion r ∧ ∃ t ∈ r.skipped, t.isTrivia = false := by
    refine (horigin he ?_).exists_significant htexts (Grammar.Stream.split_wellFormed none _) hlacks
    rintro rfl
    cases hlacks
  refine ⟨suite.map_node_elements, fun e he hlacks => ?_, fun s hs => ?_, fun c hc => ?_,
    fun x hx => ?_, fun e he hkind => ?_, fun hmode e he => ?_⟩
  · obtain ⟨r, hr, hskipped⟩ := hrecovered e he hlacks
    exact ⟨by rw [hr]; rfl, r, hr, hskipped⟩
  · exact (horigin hs (by simp)).scope_query_ne_empty htexts
  · exact (horigin hc (by simp)).call_query_ne_empty htexts
  · exact (horigin hx (by simp)).expr_tokens_ne_nil
  · have hwhole : e.node.kind.isWhole = true := by
      simp only [List.mem_cons, List.not_mem_nil, or_false] at hkind
      rcases hkind with hkind | hkind | hkind <;> rw [hkind] <;> rfl
    rw [((Grammar.parse_gathered h .start).2 e he).whole hwhole]
    rfl
  · subst hmode
    have hclean := recovery_eq_clean_of_strict h he
    refine ⟨hclean, ?_⟩
    rw [← Bool.not_eq_true]
    intro hlacks
    obtain ⟨r, hr, -⟩ := hrecovered e he hlacks
    rw [hclean] at hr
    cases hr

/-- A statement of which only the key was written. -/
theorem incomplete_elements_recovered_statement :
    ∃ suite, (parse .recovery "q\x7btest t\x7bb").suite = some suite ∧
      suite.elements.map Element.isIncomplete = [false, false, false, true] ∧
      ∃ e ∈ suite.elements, e.isIncomplete = true ∧ e.recovery.wasRecovered = true ∧
        ∃ r, e.recovery = .ofRegion r ∧ ∃ t ∈ r.skipped, t.isTrivia = false := by
  have hparts : (parse .recovery "q\x7btest t\x7bb").suite.map
      (·.elements.map Element.isIncomplete) = some [false, false, false, true] := by cbv
  obtain ⟨suite, hsuite, hlacks⟩ := Option.map_eq_some_iff.1 hparts
  have hmem : true ∈ suite.elements.map Element.isIncomplete := by rw [hlacks]; decide
  obtain ⟨e, he, htrue⟩ := List.mem_map.1 hmem
  exact ⟨suite, hsuite, hlacks, e, he, htrue,
    (incomplete_elements_recovered hsuite).2.1 e he htrue⟩

end QuerySuite
