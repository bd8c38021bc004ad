import QuerySuite.Parse
import QuerySuite.Proofs.Clauses
import QuerySuite.Proofs.DocumentGrammar
import QuerySuite.Proofs.NumberTokens
import QuerySuite.Proofs.Streams

/-!
# What the strict parser accepts

The strict parser gives a suite for exactly those documents whose significant tokens are spelled as
the grammar says, and the suite is the one they spell. The one condition of the grammar that looks
into a token, that a number can be read, is met by every number token of a document.

Results:

* `strict_parse_accepts_grammar`: the strict parser accepts exactly its grammar.
-/

namespace QuerySuite

/-- The tokens that the grammar sees, up to the end of the document. -/
def Token.beforeEnd (tokens : List Token) : List Token :=
  (significant tokens).takeWhile (·.kind != .eof)

namespace Grammar

variable {eof : Token}

/-! ## Reading to the end -/

theorem Cursor.Takes.eq_map {c d : Cursor eof} {ts : List Token} (h : c.Takes ts d)
    (hd : d.rest = []) : ts = c.rest.map (·.token) := by
  obtain ⟨used, hr, rfl⟩ := h
  rw [hr.rest_eq, hd, List.append_nil]

/-- All that is left is taken at once. -/
theorem State.takes_all (s : State eof) :
    s.Takes (s.rest.map (·.token)) ⟨⟨[], stopAfter s.stop s.rest⟩, s.met⟩ :=
  ⟨⟨s.rest, ⟨(List.append_nil _).symm, rfl⟩, rfl⟩, rfl⟩

/-- A document is read strictly exactly if its tokens are spelled as one. -/
theorem document_strict_yields_iff (heof : eof.kind = .eof) {s : State eof} {suite : Suite} :
    (∃ t, (document .strict s).Yields suite t) ↔ IsSuite (s.rest.map (·.token)) suite := by
  constructor
  · rintro ⟨t, h⟩
    obtain ⟨ts, hts, hsuite, hrest⟩ := document_sound heof h
    rw [← hts.1.eq_map hrest]
    exact hsuite
  · intro h
    exact ⟨_, document_complete heof s.takes_all h (by simp [Cursor.Next]) (Nat.zero_le _)
      members_nil_yields⟩

/-- The tokens that the grammar reads of a source. -/
theorem pieces_ofSource (source : String) :
    (Stream.ofSource source).pieces.map (·.token) = Token.beforeEnd (Token.scan source) := by
  obtain ⟨rest, hsig⟩ := Stream.significant_split none (exists_eof_withEnd (Token.scan source))
  have heof := Stream.split_eof none (withEnd (Token.scan source))
  have hinside : ∀ t ∈ (Stream.split none (withEnd (Token.scan source))).pieces.map (·.token),
      (t.kind != .eof) = true := by
    intro t ht
    obtain ⟨p, hp, rfl⟩ := List.mem_map.1 ht
    exact bne_iff_ne.2 (Stream.split_wellFormed none _ p hp).inside
  conv_rhs => rw [← withEnd_scan source]
  rw [Token.beforeEnd, ← hsig, List.append_assoc, List.takeWhile_append_of_pos hinside]
  simp [heof, Stream.ofTokens]

/-- What the strict parser gives is what is read of the document. -/
theorem parse_strict_suite (source : String) (suite : Suite) :
    (QuerySuite.parse .strict source).suite = some suite ↔
      ∃ body t, (document .strict (initial (Token.scan source))).Yields body t ∧
        complete (Token.scan source) body = suite := by
  unfold QuerySuite.parse
  dsimp only
  rw [parse_eq]
  cases document .strict (initial (Token.scan source)) with
  | ok body t ht => simp
  | fail e met => simp

/-- What the strict parser gives: the suite that the tokens of the document spell. -/
theorem parse_strict_suite_iff (source : String) (suite : Suite) :
    (QuerySuite.parse .strict source).suite = some suite ↔
      ∃ body, IsSuite (Token.beforeEnd (Token.scan source)) body ∧
        complete (Token.scan source) body = suite := by
  have heof : (endToken (Token.scan source)).kind = .eof := Stream.split_eof none _
  rw [parse_strict_suite, ← pieces_ofSource]
  constructor
  · rintro ⟨body, t, hread, hsuite⟩
    exact ⟨body, (document_strict_yields_iff heof).1 ⟨t, hread⟩, hsuite⟩
  · rintro ⟨body, hbody, hsuite⟩
    have hread : ∃ t, (document .strict (initial (Token.scan source))).Yields body t :=
      (document_strict_yields_iff heof).2 hbody
    obtain ⟨t, hread⟩ := hread
    exact ⟨body, t, hread, hsuite⟩

end Grammar

/-- The strict parser accepts exactly its grammar: there is a suite exactly if the significant
tokens of the document are spelled as one, and it is the suite that they spell. Every number of the
document can be read, so the grammar asks no more of a literal than its kind. -/
theorem strict_parse_accepts_grammar (source : String) :
    ((parse .strict source).suite.isSome = true ↔
      ∃ suite, Grammar.IsSuite (Token.beforeEnd (Token.scan source)) suite) ∧
    (∀ suite, Grammar.IsSuite (Token.beforeEnd (Token.scan source)) suite →
      (parse .strict source).suite = some (Grammar.complete (Token.scan source) suite)) ∧
    ∀ t ∈ Token.scan source, t.kind = .number → (Number.read? t.text).isSome = true := by
  refine ⟨?_, ?_, fun t ht hk => Token.read?_isSome ht hk⟩
  · rw [Option.isSome_iff_exists]
    constructor
    · rintro ⟨suite, h⟩
      obtain ⟨body, hbody, -⟩ := (Grammar.parse_strict_suite_iff source suite).1 h
      exact ⟨body, hbody⟩
    · rintro ⟨body, hbody⟩
      exact ⟨_, (Grammar.parse_strict_suite_iff source _).2 ⟨body, hbody, rfl⟩⟩
  · intro suite h
    exact (Grammar.parse_strict_suite_iff source _).2 ⟨suite, h, rfl⟩

end QuerySuite
