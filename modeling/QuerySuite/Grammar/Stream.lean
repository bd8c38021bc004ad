import QuerySuite.Token.Scan

/-!
# The stream of significant tokens

The grammar reads tokens without the trivia between them. Each piece of the stream is a significant
token together with the trivia that follow it, so that a skipped stretch of pieces is a stretch of
the document, and with the answer to the one question of layout that reading asks: whether the token
is the first of its line.

Reading ends at the first end token, whatever may follow it.

Results:

* `Stream.split_tokens`: leading trivia, pieces and the end token are what the tokens begin with.
* `getLast?_withEnd`: the last token is an end token.
-/

namespace QuerySuite.Grammar

/-- A significant token, the trivia after it, and whether no significant token stands before it on
its line. -/
structure Piece where
  token : Token
  gap : List Token
  opensLine : Bool
  deriving DecidableEq

/-- The piece as it stands in the document. -/
def Piece.tokens (p : Piece) : List Token := p.token :: p.gap

/-- What the grammar reads of a document. -/
structure Stream where
  /-- The trivia before the first piece. -/
  lead : List Token
  pieces : List Piece
  /-- The end token. -/
  eof : Token

namespace Stream

/-- The token is the first of its line, when `before` is the significant token before it. -/
def startsLine (before : Option Token) (t : Token) : Bool :=
  before.all fun b => b.stop.line < t.start.line

/-- Splits tokens into pieces up to the first end token. -/
def split (before : Option Token) : List Token → Stream
  | [] => ⟨[], [], Token.endOfFile .start⟩
  | t :: rest =>
    if t.kind = .eof then ⟨[], [], t⟩
    else if t.isTrivia then
      let s := split before rest
      { s with lead := t :: s.lead }
    else
      let s := split (some t) rest
      { s with lead := [], pieces := ⟨t, s.lead, startsLine before t⟩ :: s.pieces }

/-- The pieces of a list of tokens. -/
def ofTokens (tokens : List Token) : Stream := split none tokens

/-- The tokens of the stream, up to its end token. -/
def tokens (s : Stream) : List Token := s.lead ++ s.pieces.flatMap Piece.tokens ++ [s.eof]

theorem split_tokens (before : Option Token) (ts : List Token) (h : ∃ t ∈ ts, t.kind = .eof) :
    ∃ rest, ts = (split before ts).tokens ++ rest := by
  induction ts generalizing before with
  | nil => simp at h
  | cons t ts ih =>
    rw [split]
    split
    · exact ⟨ts, by simp [tokens]⟩
    · next hk =>
      have h' : ∃ t ∈ ts, t.kind = .eof := by
        obtain ⟨u, hu, hk'⟩ := h
        rcases List.mem_cons.1 hu with rfl | hu
        · exact absurd hk' hk
        · exact ⟨u, hu, hk'⟩
      split
      · obtain ⟨rest, hr⟩ := ih before h'
        exact ⟨rest, by simpa [tokens] using hr⟩
      · obtain ⟨rest, hr⟩ := ih (some t) h'
        exact ⟨rest, by simpa [tokens, Piece.tokens] using hr⟩

end Stream

/-- The tokens with an end token at their end. One that is missing stands after the last token. -/
def withEnd (tokens : List Token) : List Token :=
  match tokens.getLast? with
  | none => [Token.endOfFile .start]
  | some t => if t.kind = .eof then tokens else tokens ++ [Token.endOfFile t.stop]

theorem getLast?_withEnd (tokens : List Token) :
    ∃ t, (withEnd tokens).getLast? = some t ∧ t.kind = .eof := by
  unfold withEnd
  split
  · exact ⟨_, rfl, rfl⟩
  · next t ht =>
    split
    · next hk => exact ⟨t, ht, hk⟩
    · exact ⟨Token.endOfFile t.stop, by simp, rfl⟩

end QuerySuite.Grammar
