import Mathlib
import QuerySuite.Proofs.Layouts
import QuerySuite.Proofs.Totality

/-!
# Where reading goes on after a failed member

A member that fails is skipped from its first token on, up to the first place where a member could
begin. That place is looked for behind the first token, not behind the token that the member failed
at: where the member goes over several lines, reading can go on in the middle of it, and the next
member can fail in the same way at the same token.

Results:

* `ResumptionPoint`: the places where reading could go on, and `head_leftAfter`, `mem_leftAfter`: it
  goes on at the first of them.
* `Stream.line_lt_of_opensLine`: what stands before a token that opens a line is on an earlier line.
* `resumes_behind_failure_iff`: when reading goes on behind the failure.
* `resumes_before_failure`: a document where it does not.
-/

namespace QuerySuite

namespace Grammar

/-! ## Resumption points -/

/-- The depth of braces behind the pieces. -/
def depthThrough (depth : Nat) (pieces : List Piece) : Nat :=
  pieces.foldl (fun d p => depthAfter d p.token) depth

/-- Behind the first piece `p` of a member, reading could go on at `r`: outside of the braces that
were opened since, `r` closes the body or opens a line with a token that a member can begin with. -/
def ResumptionPoint (ctx : Context) (p : Piece) (rest : List Piece) (r : Piece) : Prop :=
  ∃ before after, rest = before ++ r :: after ∧ depthThrough 0 (p :: before) = 0 ∧
    ctx.resumesAt r = true

/-- Skipping ends outside of braces, at a piece where reading can go on. -/
theorem skip_stops {ctx : Context} {depth : Nat} {pieces left : List Piece} {q : Piece}
    (h : (skip ctx depth pieces).2 = q :: left) :
    depthThrough depth (skip ctx depth pieces).1 = 0 ∧ ctx.resumesAt q = true := by
  induction pieces generalizing depth with
  | nil => cases h
  | cons p pieces ih =>
    rw [skip] at h ⊢
    split_ifs at h ⊢ with hstop
    · cases h
      exact hstop
    · exact ih h

/-- Nothing is skipped behind a piece where reading can go on. -/
theorem skip_isPrefix {ctx : Context} {depth : Nat} {before after : List Piece} {r : Piece}
    (hdepth : depthThrough depth before = 0) (hr : ctx.resumesAt r = true) :
    (skip ctx depth (before ++ r :: after)).1 <+: before := by
  induction before generalizing depth with
  | nil =>
    rw [List.nil_append, skip, if_pos ⟨hdepth, hr⟩]
  | cons p before ih =>
    rw [List.cons_append, skip]
    split_ifs
    · exact List.nil_prefix
    · exact List.cons_prefix_cons.2 ⟨rfl, ih hdepth⟩

section Member

variable {ctx : Context} {p q r : Piece} {rest left : List Piece}

/-- Reading goes on at a resumption point. -/
theorem head_leftAfter (h : leftAfter ctx p rest = q :: left) : ResumptionPoint ctx p rest q := by
  obtain ⟨hdepth, hq⟩ := skip_stops h
  refine ⟨skippedAfter ctx p rest, left, ?_, hdepth, hq⟩
  rw [← h, skippedAfter_append]

/-- No resumption point is skipped. -/
theorem mem_leftAfter (h : ResumptionPoint ctx p rest r) : r ∈ leftAfter ctx p rest := by
  obtain ⟨before, after, rfl, hdepth, hr⟩ := h
  have hskipped : skippedAfter ctx p (before ++ r :: after) <+: before := skip_isPrefix hdepth hr
  obtain ⟨more, hmore⟩ := hskipped
  have happend :
      skippedAfter ctx p (before ++ r :: after) ++ leftAfter ctx p (before ++ r :: after) =
        skippedAfter ctx p (before ++ r :: after) ++ (more ++ r :: after) := by
    rw [skippedAfter_append, ← List.append_assoc, hmore]
  rw [List.append_cancel_left happend]
  exact List.mem_append_right _ List.mem_cons_self

end Member

/-! ## Lines -/

theorem Piece.start_line_le (p : Piece) : p.token.start.line ≤ p.token.stop.line := by
  rw [Token.stop, Position.line_advance]
  exact Nat.le_add_right _ _

namespace Stream

variable {source : String}

/-- What stands before a token that opens a line is on an earlier line. -/
theorem line_lt_of_opensLine {before left : List Piece} {q : Piece}
    (h : before ++ q :: left <:+ (ofSource source).pieces) (hq : q.opensLine = true) :
    ∀ x ∈ before, x.token.start.line < q.token.start.line := by
  have hchain : (before ++ q :: left).IsChain Piece.Follows := (isChain_ofSource source).suffix h
  clear h
  induction before with
  | nil => exact List.forall_mem_nil _
  | cons x before ih =>
    rw [List.cons_append, List.isChain_cons] at hchain
    obtain ⟨hfollows, hchain⟩ := hchain
    refine List.forall_mem_cons.2 ⟨?_, ih hchain⟩
    have hx := x.start_line_le
    -- The piece behind `x` is `q`, or it is before `q` as well.
    cases before with
    | nil =>
      have hopens := (hfollows q rfl).opensLine_eq
      rw [hq, eq_comm, decide_eq_true_iff] at hopens
      omega
    | cons y before =>
      have hnext := (hfollows y rfl).line_le
      have hy := ih hchain y List.mem_cons_self
      omega

/-- What is left from a piece on stands there or behind it. -/
theorem start_atOrBefore {q : Piece} {left : List Piece}
    (h : q :: left <:+ (ofSource source).pieces) {t : Token}
    (ht : t ∈ (q :: left).map (·.token) ++ [(ofSource source).eof]) :
    q.token.start.AtOrBefore t.start := by
  obtain ⟨before, hpieces⟩ := h
  have laid := laid_ofSource source
  rw [← hpieces, List.flatMap_append, ← List.append_assoc] at laid
  obtain ⟨m, -, laid⟩ := laid.exists_of_append
  have hm : q.token.start = m := by
    have hlead : Token.Laid m (q.token :: (q.gap ++ left.flatMap Piece.tokens)) _ := laid
    exact hlead.start_eq
  rw [hm]
  rcases List.mem_append.1 ht with ht | ht
  · obtain ⟨x, hx, rfl⟩ := List.mem_map.1 ht
    exact (laid.bounds (List.mem_flatMap.2 ⟨x, hx, List.mem_cons_self⟩)).1
  · rw [List.mem_singleton.1 ht]
    exact laid.atOrBefore

end Stream

/-! ## Failed members -/

section Failure

variable {source : String} {p q : Piece} {rest left : List Piece} {ctx : Context}

/-- What was skipped and what is left behind it are a stretch of the document up to its end. -/
theorem suffix_of_leftAfter (hon : p :: rest <:+ (Stream.ofSource source).pieces)
    (hleft : leftAfter ctx p rest = q :: left) :
    p :: skippedAfter ctx p rest ++ q :: left <:+ (Stream.ofSource source).pieces := by
  rw [List.cons_append, ← hleft, skippedAfter_append]
  exact hon

/-- Where reading goes on at no closing brace, what was skipped is on earlier lines. -/
theorem line_lt_of_skipped (hon : p :: rest <:+ (Stream.ofSource source).pieces)
    (hleft : leftAfter ctx p rest = q :: left) (hbrace : q.token.kind ≠ .rbrace) {x : Piece}
    (hx : x ∈ p :: skippedAfter ctx p rest) : x.token.start.line < q.token.start.line := by
  obtain ⟨-, -, -, -, hresumes⟩ := head_leftAfter hleft
  have hopens : q.opensLine = true := by
    simp only [Context.resumesAt, Context.closes, Bool.or_eq_true, Bool.and_eq_true,
      beq_iff_eq] at hresumes
    exact (hresumes.resolve_left fun h => hbrace h.2).1
  exact Stream.line_lt_of_opensLine (suffix_of_leftAfter hon hleft) hopens x hx

/-- A token of the member is skipped, or it stands where reading goes on or behind that. -/
theorem skipped_or_behind (hon : p :: rest <:+ (Stream.ofSource source).pieces)
    (hleft : leftAfter ctx p rest = q :: left) {t : Token}
    (ht : t ∈ (p :: rest).map (·.token) ++ [(Stream.ofSource source).eof]) :
    (∃ x ∈ p :: skippedAfter ctx p rest, x.token = t) ∨ q.token.start.AtOrBefore t.start := by
  have hsuffix := suffix_of_leftAfter hon hleft
  have hrest : p :: rest = p :: skippedAfter ctx p rest ++ q :: left := by
    rw [List.cons_append, ← hleft, skippedAfter_append]
  rw [hrest, List.map_append, List.append_assoc, List.mem_append] at ht
  rcases ht with ht | ht
  · exact .inl (List.mem_map.1 ht)
  · exact .inr (Stream.start_atOrBefore ((List.suffix_append _ _).trans hsuffix) ht)

end Failure

/-- A member fails at one of its own tokens or behind it. -/
theorem Loop.raisedIn_of_fail {eof : Token} {l : Loop eof} (h : l ∈ all eof) {g : l.Gathered}
    {p : Piece} {rest : List Piece} {met inner : List ParseError} {e : ParseError}
    (hfail : l.rule g p.token ⟨.after p rest, met⟩ = .fail e inner) :
    RaisedIn ((p :: rest).map (·.token) ++ [eof]) e := by
  obtain ⟨regions, P, haccounts⟩ := accounts_of_mem h
  have hacc := haccounts g p rest .start met
  rw [hfail] at hacc
  exact hacc.2

end Grammar

open Grammar

/-- A member that fails with `e` is skipped, and reading goes on at a token that is no closing
brace. That token is on a later line than the failure if and only if the token that the member
failed at was skipped, and if and only if all places where reading could go on are behind the
failure. In that case the next member does not fail at the same place. Otherwise reading goes on at
the failure or before it. -/
theorem resumes_behind_failure_iff (source : String) (l : Loop (endToken (Token.scan source)))
    (hl : l ∈ Loop.all _) (g : l.Gathered) (p : Piece) (rest : List Piece) (stop : Position)
    (hon : OnStream (Token.scan source) ⟨p :: rest, stop⟩) (met inner : List ParseError)
    (e : ParseError) (hfail : l.rule g p.token ⟨.after p rest, met⟩ = .fail e inner) (q : Piece)
    (left : List Piece) (hleft : leftAfter l.context p rest = q :: left)
    (hbrace : q.token.kind ≠ .rbrace) :
    (resume (endToken (Token.scan source)) l.context p rest).1.resumed = some q.token.start ∧
      (e.position.line < q.token.start.line ↔
        ∃ t ∈ (resume (endToken (Token.scan source)) l.context p rest).1.skipped,
          t.isTrivia = false ∧ RaisedAt t e) ∧
      (e.position.line < q.token.start.line ↔
        ∀ r, ResumptionPoint l.context p rest r → e.position.isBefore r.token.start = true) ∧
      (e.position.line < q.token.start.line →
        ∀ g' met' e' inner', l.rule g' q.token ⟨.after q left, met'⟩ = .fail e' inner' →
          e.position.isBefore e'.position = true) ∧
      (¬e.position.line < q.token.start.line → q.token.start.AtOrBefore e.position) := by
  obtain ⟨used, hreads⟩ := hon
  have hon : p :: rest <:+ (Stream.ofSource source).pieces := ⟨used, hreads.rest_eq.symm⟩
  have hsuffix : q :: left <:+ (Stream.ofSource source).pieces :=
    (List.suffix_append _ _).trans (suffix_of_leftAfter hon hleft)
  obtain ⟨t, ht, hraised⟩ := Loop.raisedIn_of_fail hl hfail
  have hposition : e.position = t.start := congrArg Span.start hraised.span_eq
  -- The failing token was skipped, or reading goes on there or before.
  have hcases : (∃ x ∈ p :: skippedAfter l.context p rest, x.token = t) ∧
        e.position.line < q.token.start.line ∨
      q.token.start.AtOrBefore e.position ∧ ¬e.position.line < q.token.start.line := by
    rw [hposition]
    rcases skipped_or_behind hon hleft ht with ⟨x, hx, rfl⟩ | hbehind
    · exact .inl ⟨⟨x, hx, rfl⟩, line_lt_of_skipped hon hleft hbrace hx⟩
    · refine .inr ⟨hbehind, ?_⟩
      unfold Position.AtOrBefore at hbehind
      omega
  have hmem {x : Piece} (hx : x ∈ p :: skippedAfter l.context p rest) : x.WellFormed :=
    Stream.split_wellFormed none _ x
      ((suffix_of_leftAfter hon hleft).subset (List.mem_append_left _ hx))
  -- Behind the line of the failure, everything that is left is behind the failure.
  have hbehind (hlt : e.position.line < q.token.start.line) {u : Token}
      (hu : u ∈ (q :: left).map (·.token) ++ [(Stream.ofSource source).eof]) :
      e.position.isBefore u.start = true := by
    have hle := Stream.start_atOrBefore hsuffix hu
    unfold Position.AtOrBefore at hle
    rw [Position.isBefore_iff]
    omega
  refine ⟨?_, ⟨fun hlt => ?_, ?_⟩, ⟨fun hlt r hr => ?_, fun hall => ?_⟩, ?_, ?_⟩
  · rw [resume_fst, regionOf, hleft]
    rfl
  · obtain ⟨⟨x, hx, rfl⟩, -⟩ := hcases.resolve_right fun h => h.2 hlt
    exact ⟨x.token, List.mem_flatMap.2 ⟨x, hx, List.mem_cons_self⟩, (hmem hx).seen, hraised⟩
  · rintro ⟨u, hu, htrivia, hraised'⟩
    obtain ⟨x, hx, hu⟩ := List.mem_flatMap.1 hu
    rcases List.mem_cons.1 hu with rfl | hgap
    · have hposition' : e.position = x.token.start := congrArg Span.start hraised'.span_eq
      rw [hposition']
      exact line_lt_of_skipped hon hleft hbrace hx
    · rw [(hmem hx).trivia u hgap] at htrivia
      cases htrivia
  · refine hbehind hlt (List.mem_append_left _ (List.mem_map_of_mem ?_))
    rw [← hleft]
    exact mem_leftAfter hr
  · refine (hcases.resolve_right fun h => ?_).2
    have hq := hall q (head_leftAfter hleft)
    rw [(Position.atOrBefore_iff _ _).1 h.1] at hq
    cases hq
  · intro hlt g' met' e' inner' hfail'
    obtain ⟨u, hu, hraised'⟩ := Loop.raisedIn_of_fail hl hfail'
    have hposition' : e'.position = u.start := congrArg Span.start hraised'.span_eq
    rw [hposition']
    exact hbehind hlt hu
  · exact fun hnot => (hcases.resolve_left fun h => hnot h.2).1

/-- An import that fails on its first line, before a line that a scope could begin with. -/
theorem resumes_behind_failure_import :
    ∃ l ∈ Loop.all (endToken (Token.scan "import 5\nq")), ∃ g p rest e q,
      OnStream (Token.scan "import 5\nq") ⟨p :: rest, .start⟩ ∧
      l.rule g p.token ⟨.after p rest, []⟩ = .fail e [] ∧
      leftAfter l.context p rest = [q] ∧ q.token.kind = .ident ∧
      e.position.line < q.token.start.line ∧
      ∃ t ∈ (resume (endToken (Token.scan "import 5\nq")) l.context p rest).1.skipped,
        t.isTrivia = false ∧ RaisedAt t e := by
  let five : Piece := ⟨⟨.number, "5", ⟨1, 8, 7⟩⟩, [⟨.whitespace, "\n", ⟨1, 9, 8⟩⟩], false⟩
  let scope : Piece := ⟨⟨.ident, "q", ⟨2, 1, 9⟩⟩, [], true⟩
  let lead : Piece := ⟨⟨.keyword, "import", ⟨1, 1, 0⟩⟩, [⟨.whitespace, " ", ⟨1, 7, 6⟩⟩], true⟩
  have hon : OnStream (Token.scan "import 5\nq") ⟨[lead, five, scope], .start⟩ := by
    refine ⟨[], ?_, rfl⟩
    show (Stream.ofSource "import 5\nq").pieces = [lead, five, scope]
    cbv
  have hfail : Loop.document.rule ({} : Suite) lead.token
      (⟨.after lead [five, scope], []⟩ : State (endToken (Token.scan "import 5\nq"))) =
      .fail (.unexpected "import path" five.token) [] := by
    rfl
  have hlt : (ParseError.unexpected "import path" five.token).position.line <
      scope.token.start.line := by decide
  have h := resumes_behind_failure_iff "import 5\nq" .document List.mem_cons_self {} lead
    [five, scope] .start hon [] [] _ hfail scope [] (by decide) (by decide)
  exact ⟨.document, List.mem_cons_self, {}, lead, [five, scope], _, scope, hon, hfail, by decide,
    rfl, hlt, h.2.1.1 hlt⟩

/-- The statement `a.b 5` goes over two lines and fails at `5`. Reading goes on at `b`, on the line
of the failure and before it, and the next member fails in the same way. -/
theorem resumes_before_failure : ∃ suite e first second,
    (parse .recovery "q\x7btest t\x7ba.\nb 5\x7d\x7d").suite = some suite ∧
      (parse .recovery "q\x7btest t\x7ba.\nb 5\x7d\x7d").error = some (.multiple [e, e]) ∧
      e.position = ⟨2, 3, 14⟩ ∧ regionsOf suite.nodes = [first, second] ∧
      first.resumed = some ⟨2, 1, 12⟩ ∧
      suite.tokens.find? (·.start == ⟨2, 1, 12⟩) = some ⟨.ident, "b", ⟨2, 1, 12⟩⟩ := by
  have hparsed : (fun p : Parsed => (p.suite.map (fun suite =>
        ((regionsOf suite.nodes).map (·.resumed), suite.tokens.find? (·.start == ⟨2, 1, 12⟩))),
        p.error)) (parse .recovery "q\x7btest t\x7ba.\nb 5\x7d\x7d") =
      (some ([some ⟨2, 1, 12⟩, some ⟨2, 4, 15⟩], some ⟨.ident, "b", ⟨2, 1, 12⟩⟩),
        some (.multiple [.unexpected "':'" ⟨.number, "5", ⟨2, 3, 14⟩⟩,
          .unexpected "':'" ⟨.number, "5", ⟨2, 3, 14⟩⟩])) := by cbv
  obtain ⟨hsuite, herror⟩ := Prod.mk.inj hparsed
  obtain ⟨suite, hsuite, hfound⟩ := Option.map_eq_some_iff.1 hsuite
  obtain ⟨hregions, htoken⟩ := Prod.mk.inj hfound
  obtain ⟨first, more, hall, hfirst, hmore⟩ := List.map_eq_cons_iff.1 hregions
  obtain ⟨second, rfl, -⟩ := List.map_eq_singleton_iff.1 hmore
  exact ⟨suite, _, first, second, hsuite, herror, rfl, hall, hfirst, htoken⟩

end QuerySuite
