import Mathlib
import QuerySuite.Proofs.Attachment
import QuerySuite.Proofs.Coherence
import QuerySuite.Proofs.NodeSpans
import QuerySuite.Proofs.Origins
import QuerySuite.Proofs.Places
import QuerySuite.Proofs.Regions

/-!
# Reported places are ranges of the document

Whatever is told of a document is told at a place of it: the ends of a node are ends of tokens, an
error stands at the token it was raised at, a skipped stretch starts and ends where tokens start,
and what validation finds and the symbols stand at nodes.

Results:

* `Grammar.Origin.isRangeOf`: an element that was read, or that stands for a skipped member.
* `Parsed.located_parse`: the suite and the errors of either way to read a source.
* `places_are_genuine`: all that is told of an analysed document.
-/

namespace QuerySuite

/-! ## Elements -/

namespace Grammar

variable {eof : Token} {source : String}

theorem Stream.mem_scan_of_mem_pieces {p : Piece} (h : p ∈ (ofSource source).pieces) :
    p.token ∈ Token.scan source := by
  rw [← tokens_ofSource source, tokens]
  exact List.mem_append_left _ (token_mem_scan h)

theorem Stream.eof_mem_scan (source : String) : (ofSource source).eof ∈ Token.scan source := by
  rw [← tokens_ofSource source, tokens]
  exact List.mem_append_right _ List.mem_cons_self

/-- From any piece on, the pieces of a source are in order. -/
theorem Stream.exists_ahead {pieces : List Piece} (h : pieces <:+ (ofSource source).pieces) :
    ∃ stop, Ahead stop pieces := by
  obtain ⟨m, hlead, laid⟩ := (laid_ofSource source).exists_of_append
  have hall : Ahead .start (ofSource source).pieces :=
    .of_laid (split_wellFormed none _) laid hlead.atOrBefore
  obtain ⟨before, hpieces⟩ := h
  rw [← hpieces] at hall
  exact ⟨_, hall.of_append.2⟩

/-- Behind the first of some pieces, what was used up ends at the end of a token. -/
theorem stopAfter_isPlaceOf {p : Piece} {used : List Piece}
    (h : ∀ q ∈ p :: used, q.token ∈ Token.scan source) :
    (stopAfter p.token.stop used).IsPlaceOf source := by
  induction used generalizing p with
  | nil => exact Token.isPlaceOf_stop (h p List.mem_cons_self)
  | cons q used ih => exact ih fun r hr => h r (List.mem_cons_of_mem p hr)

/-- A stretch of the pieces reaches over a range of the document. -/
theorem isRangeOf_of_reads {p : Piece} {rest used : List Piece} {stop : Position} {c : Cursor eof}
    (suffix : p :: rest <:+ (Stream.ofSource source).pieces)
    (reads : (⟨p :: rest, stop⟩ : Cursor eof).Reads (p :: used) c) :
    (⟨p.token.start, c.stop⟩ : Span).IsRangeOf source := by
  have hmem {q : Piece} (hq : q ∈ p :: used) : q.token ∈ Token.scan source := by
    refine Stream.mem_scan_of_mem_pieces (suffix.subset ?_)
    have hrest : p :: rest = (p :: used) ++ c.rest := reads.rest_eq
    rw [hrest]
    exact List.mem_append_left _ hq
  refine .of_atOrBefore (Token.isPlaceOf_start (hmem List.mem_cons_self)) ?_ ?_
  · rw [reads.stop_eq]
    exact stopAfter_isPlaceOf fun q hq => hmem hq
  · obtain ⟨stop', hahead⟩ := Stream.exists_ahead suffix
    have hordered : (⟨p :: rest, stop'⟩ : Cursor eof).Ordered := hahead
    exact hordered.start_le ⟨reads.rest_eq, reads.stop_eq⟩

/-- However an element came into the suite, it reaches from its first piece to the end of the last
one that was used up for it. -/
theorem Origin.exists_reads {e : Element} (h : Origin eof (Stream.ofSource source).pieces e) :
    ∃ (p : Piece) (rest used : List Piece) (stop : Position) (c : Cursor eof),
      p :: rest <:+ (Stream.ofSource source).pieces ∧
      (⟨p :: rest, stop⟩ : Cursor eof).Reads (p :: used) c ∧ e.span = ⟨p.token.start, c.stop⟩ := by
  cases h with
  | skipped ctx p rest suffix blank =>
    obtain ⟨stop, hahead⟩ := Stream.exists_ahead suffix
    have hordered : (⟨p :: rest, stop⟩ : Cursor eof).Ordered := hahead
    have hspan : e.span = (resume eof ctx p rest).1.extent := congrArg NodeInfo.span blank.info
    rw [extent_resume ctx hordered] at hspan
    exact ⟨p, rest, _, stop, _, suffix, resume_reads ctx p rest stop, hspan⟩
  | read p rest used c suffix reads span _ =>
    exact ⟨p, rest, used, .start, c, suffix, (Cursor.Reads.after p rest .start).trans reads, span⟩

/-- An element stands at a range of the document, however it came into the suite. -/
theorem Origin.isRangeOf {e : Element} (h : Origin eof (Stream.ofSource source).pieces e) :
    e.span.IsRangeOf source := by
  obtain ⟨p, rest, used, stop, c, suffix, reads, hspan⟩ := h.exists_reads
  rw [hspan]
  exact isRangeOf_of_reads suffix reads

end Grammar

/-! ## Parsed documents -/

/-- A region starts at a place of the document, and if reading went on behind it, it reaches over a
range of it. -/
structure Region.IsRangeOf (source : String) (r : Region) : Prop where
  start : r.start.IsPlaceOf source
  range : ∀ p, r.resumed = some p → (⟨r.start, p⟩ : Span).IsRangeOf source

/-- The nodes of a suite, and what was skipped while they were read, lie in the document. -/
structure Suite.Located (source : String) (s : Suite) : Prop where
  spans : ∀ span ∈ s.spans, span.IsRangeOf source
  regions : ∀ r ∈ regionsOf s.nodes, r.IsRangeOf source

/-- The parts of an error lie in the document. -/
def ParseError.Located (source : String) (e : ParseError) : Prop :=
  ∀ part ∈ e.flatten, part.span.IsRangeOf source

namespace Grammar

variable {source : String}

/-- The region of a skipped member reaches from one token of the document to another. -/
theorem Skip.isRangeOf {k : Skip} (h : k.pieces ++ k.left <:+ (Stream.ofSource source).pieces) :
    k.region.IsRangeOf source := by
  have hmem {q : Piece} (hq : q ∈ k.pieces ++ k.left) : q.token ∈ Token.scan source :=
    Stream.mem_scan_of_mem_pieces (h.subset hq)
  have hstart : k.region.start.IsPlaceOf source :=
    Token.isPlaceOf_start (hmem (List.mem_append_left _ List.mem_cons_self))
  refine ⟨hstart, fun p hp => ?_⟩
  obtain ⟨q, hq, rfl⟩ := Option.map_eq_some_iff.1 hp
  refine .of_atOrBefore hstart
    (Token.isPlaceOf_start (hmem (List.mem_append_right _ (List.mem_of_head? hq)))) ?_
  obtain ⟨stop, hahead⟩ := Stream.exists_ahead h
  obtain ⟨left, hleft⟩ : ∃ left, k.left = q :: left := List.head?_eq_some_iff.1 hq
  rw [hleft] at hahead
  cases hahead with
  | cons _ _ text hmore =>
    obtain ⟨hle, hbehind⟩ := hmore.of_append
    cases hbehind with
    | cons _ behind _ _ => exact (text.trans hle).trans behind

theorem endMark_isRangeOf (source : String) :
    (endMark (Stream.ofSource source).eof).IsRangeOf source :=
  ⟨Token.isPlaceOf_start (Stream.eof_mem_scan source), fun _ h => by cases h⟩

/-- A suite reaches over the whole document. -/
theorem span_of_parse_recovery {suite : Suite} {met : List ParseError}
    (h : parse .recovery (Token.scan source) = .suite suite met) :
    suite.span = ⟨.start, (Stream.ofSource source).eof.start⟩ := by
  obtain ⟨members, u, hrun, -⟩ :=
    parse_of_gives (document_accounts (initial (Token.scan source)))
  rw [hrun] at h
  injection h with hsuite
  rw [← hsuite]
  rfl

/-- The suite of a document lies in it. -/
theorem parse_suite_located {mode : Mode} {suite : Suite}
    (h : (QuerySuite.parse mode source).suite = some suite) : suite.Located source := by
  obtain ⟨met, hrecovery, -⟩ := exists_parse_recovery h
  obtain ⟨suite', u, skips, hrun, -, hrest, hacc, -⟩ := parse_source source
  rw [hrecovery] at hrun
  cases hrun
  refine ⟨fun span hspan => ?_, fun r hr => ?_⟩
  · rw [← suite.spans_tree] at hspan
    obtain ⟨e, he, rfl⟩ := List.mem_map.1 hspan
    rcases parse_traced h e he with rfl | horigin
    · have hspan : (Element.suite suite).span = suite.span := rfl
      rw [hspan, span_of_parse_recovery hrecovery]
      exact .of_atOrBefore (Position.isPlaceOf_start source)
        (Token.isPlaceOf_start (Stream.eof_mem_scan source))
        (Stream.laid_ofSource source).atOrBefore
    · exact horigin.isRangeOf
  · rcases hacc.mem_regions hr with ⟨k, hk, rfl⟩ | rfl
    · obtain ⟨before, behind, hpieces, hleft⟩ := hacc.covers.exists_eq_append hk
      refine Skip.isRangeOf ⟨before, ?_⟩
      rw [hpieces, hleft, hrest, List.append_nil]
    · exact endMark_isRangeOf source

/-- What is noted while a document is read lies in it, each error at the token it was raised at. -/
theorem isRangeOf_of_mem_met {suite : Suite} {met : List ParseError}
    (h : parse .recovery (Token.scan source) = .suite suite met) {e : ParseError} (he : e ∈ met) :
    e.span.IsRangeOf source := by
  obtain ⟨suite', u, skips, hrun, -, -, hacc, -⟩ := parse_source source
  rw [hrun] at h
  cases h
  rcases hacc.raised he with he | ⟨t, ht, hraised⟩
  · cases he
  · rw [hraised.span_eq]
    refine Token.isRangeOf_span ?_
    rcases List.mem_append.1 ht with ht | ht
    · obtain ⟨p, hp, rfl⟩ := List.mem_map.1 ht
      exact Stream.mem_scan_of_mem_pieces hp
    · rw [List.mem_singleton.1 ht]
      exact Stream.eof_mem_scan source

/-- The errors of a document lie in it. -/
theorem parse_error_located {mode : Mode} {e : ParseError}
    (h : (QuerySuite.parse mode source).error = some e) : e.Located source := by
  obtain ⟨suite, met, hrun, hstrict⟩ := parse_agree (Token.scan source)
  have hflat := parse_recovery_flatten hrun
  suffices hparts : e.flatten ⊆ met from fun part hpart => isRangeOf_of_mem_met hrun (hparts hpart)
  unfold QuerySuite.parse at h
  dsimp only at h
  cases mode with
  | recovery =>
    rw [hrun] at h
    rw [ParseError.flatten_of_ofList hflat h]
    exact List.Subset.refl _
  | strict =>
    rcases hstrict with ⟨hs, rfl⟩ | ⟨e', hs, hfirst⟩
    · rw [hs] at h
      cases h
    · rw [hs] at h
      obtain rfl := Option.some.inj h
      have he := List.mem_of_head? hfirst
      rw [hflat _ he]
      exact List.cons_subset.2 ⟨he, List.nil_subset _⟩

end Grammar

/-- Attaching comments moves nothing. -/
theorem Suite.Located.attachComments {source : String} {suite : Suite} (h : suite.Located source)
    (hbare : ∀ n ∈ suite.nodes, n.info.comments = {}) (trivia : List Trivia) :
    (suite.attachComments trivia).Located source := by
  have hnodes := nodes_attachComments hbare trivia
  have hspans : (suite.attachComments trivia).spans = suite.spans := by
    rw [Suite.spans, Suite.spans, ← hnodes, List.map_map]
    rfl
  have hregions : regionsOf (suite.attachComments trivia).nodes = regionsOf suite.nodes := by
    rw [regionsOf, regionsOf, ← hnodes, List.flatMap_map]
    rfl
  exact ⟨hspans ▸ h.spans, hregions ▸ h.regions⟩

/-- What parsing a document gives lies in it. -/
structure Parsed.Located (source : String) (p : Parsed) : Prop where
  suite : ∀ suite, p.suite = some suite → suite.Located source
  error : ∀ e, p.error = some e → e.Located source

namespace Parsed

theorem located_parse (mode : Grammar.Mode) (source : String) :
    (parse mode source).Located source :=
  ⟨fun _ => Grammar.parse_suite_located, fun _ => Grammar.parse_error_located⟩

theorem located_attached {mode : Grammar.Mode} {source : String} {suite : Suite}
    (h : (parse mode source).attached = some suite) : suite.Located source := by
  obtain ⟨bare, hbare, rfl⟩ := Option.map_eq_some_iff.1 h
  exact ((located_parse mode source).suite bare hbare).attachComments (parse_bare hbare) _

end Parsed

/-! ## Analysed documents -/

/-- All that is told of a document lies in it. -/
structure Document.Located (source : String) (d : Document) : Prop where
  suite : ∀ suite, d.suite = some suite → suite.Located source
  parseError : ∀ e, d.parseError = some e → e.Located source
  recoverySuite : ∀ suite, d.recoverySuite = some suite → suite.Located source
  recoveryError : ∀ e, d.recoveryError = some e → e.Located source
  diagnostics : ∀ x ∈ d.diagnostics, x.span.IsRangeOf source
  symbols : ∀ span ∈ d.symbols.spans, span.IsRangeOf source

/-- The diagnostics of an error of reading. One without parts is told of at the start. -/
theorem Diagnostic.isRangeOf_of_mem_ofParseError {source name : String} {e : ParseError}
    {x : Diagnostic} (h : e.Located source) (hx : x ∈ ofParseError name e) :
    x.span.IsRangeOf source := by
  unfold ofParseError at hx
  split at hx
  · obtain rfl := List.mem_singleton.1 hx
    exact .of_atOrBefore (Position.isPlaceOf_start source) (Position.isPlaceOf_start source)
      (.refl .start)
  · obtain ⟨part, hpart, rfl⟩ := List.mem_map.1 hx
    exact h part hpart

namespace Analyzer

variable {σ : Type} (a : Analyzer σ)

theorem span_mem_of_mem_validated {suite : Option Suite} {symbols : SymbolTable} {x : Diagnostic}
    (h : x ∈ a.validated suite symbols) : ∃ s, suite = some s ∧ x.span ∈ s.spans := by
  unfold validated at h
  split at h
  · next s =>
    split at h
    · obtain ⟨f, hf, rfl⟩ := List.mem_map.1 h
      exact ⟨s, rfl, Validator.span_mem_of_mem_findings _ hf⟩
    · cases h
  · cases h

theorem located_recover (strict : Option Suite) (source : String) :
    (∀ suite, (a.recover strict source).1 = some suite → suite.Located source) ∧
      ∀ e, (a.recover strict source).2 = some e → e.Located source := by
  unfold recover
  split_ifs
  · exact ⟨fun _ h => Parsed.located_attached h, fun _ h => Grammar.parse_error_located h⟩
  · simp

/-- All that is told of an analysed document lies in it, whatever the configuration and the resolver
are. -/
theorem located_analyze (path : Option String) (source : String) (s : σ) :
    ((a.analyze path source).run s).1.Located source := by
  obtain ⟨hsuite, herror⟩ := a.located_recover (parse .strict source).attached source
  constructor
  case suite => exact fun _ h => Parsed.located_attached h
  case parseError => exact fun _ h => Grammar.parse_error_located h
  case recoverySuite => exact hsuite
  case recoveryError => exact herror
  case diagnostics =>
    obtain ⟨symbols, hrun⟩ := a.analyze_eq path source s
    rw [hrun]
    intro x hx
    rcases List.mem_append.1 hx with hx | hx
    · cases hkept : (a.recover (parse .strict source).attached source).2 <|>
        (parse .strict source).error with
      | none =>
        rw [hkept] at hx
        cases hx
      | some e =>
        rw [hkept] at hx
        refine Diagnostic.isRangeOf_of_mem_ofParseError ?_ hx
        rcases (Option.orElse_eq_some _ _ _).1 hkept with h | ⟨-, h⟩
        · exact herror e h
        · exact Grammar.parse_error_located h
    · obtain ⟨suite, hattached, hspan⟩ := a.span_mem_of_mem_validated hx
      exact (Parsed.located_attached hattached).spans _ hspan
  case symbols =>
    intro span hspan
    obtain ⟨suite, hbest, hspan⟩ := Extractor.spans_bestEffort _ hspan
    have hlocated : suite.Located source := by
      rcases (Option.orElse_eq_some _ _ _).1 hbest with h | ⟨-, h⟩
      · exact Parsed.located_attached h
      · exact hsuite suite h
    exact hlocated.spans span hspan

end Analyzer

/-- Every place that is told of a document is a genuine range of it: in both ways to read a source,
and in what is known of the document once it is analysed. Where the document is shorter than 2³² - 1
bytes, no place of it is too large for words of 32 bits. -/
theorem places_are_genuine {σ : Type} (a : Analyzer σ) (path : Option String) (source : String)
    (s : σ) :
    (∀ mode, (parse mode source).Located source) ∧
      ((a.analyze path source).run s).1.Located source ∧
      (source.utf8ByteSize < 2 ^ 32 - 1 → ∀ p : Position, p.IsPlaceOf source →
        ∃ before after w, source = before ++ after ∧
          WordPosition.start.advance? before = some w ∧ w.toPosition = p) :=
  ⟨fun mode => Parsed.located_parse mode source, a.located_analyze path source s,
    fun hsize _ hp => hp.exists_words hsize⟩

end QuerySuite
