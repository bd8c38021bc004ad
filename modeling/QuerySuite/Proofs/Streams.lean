import Mathlib.Tactic.SplitIfs
import QuerySuite.Grammar.Stream
import QuerySuite.Proofs.Locations

/-!
# The tokens of a stream

A stream leaves nothing of a document out: its leading trivia and its pieces with the trivia behind
them are the tokens up to the first end token. So the grammar sees the significant tokens, in their
order, and each of them can be found in the document by its index.

Results:

* `significant_pieces`: the significant tokens of a stretch of pieces are those of its pieces.
* `Stream.significant_split`: the grammar sees the significant tokens up to the first end token.
* `Stream.tokens_ofSource`, `Stream.laid_ofSource`: the stream of a source holds all of its
  tokens, laid one after another.
* `getElem?_significantAt`: the indices of the significant tokens are in range.
-/

namespace QuerySuite

namespace Token

@[simp]
theorem significant_append (ts us : List Token) :
    significant (ts ++ us) = significant ts ++ significant us := List.filter_append ts us

theorem significant_cons_of_not_isTrivia {t : Token} (h : t.isTrivia = false) (ts : List Token) :
    significant (t :: ts) = t :: significant ts := by
  simp [significant, h]

theorem significant_eq_nil {ts : List Token} (h : ∀ t ∈ ts, t.isTrivia = true) :
    significant ts = [] := by
  simpa [significant] using h

theorem not_isTrivia_of_eof {t : Token} (h : t.kind = .eof) : t.isTrivia = false := by
  simp [isTrivia, h, Kind.isTrivia]

end Token

namespace Grammar

/-! ## Pieces -/

/-- The piece stands for a token that the grammar sees, with trivia behind it. -/
structure Piece.WellFormed (p : Piece) : Prop where
  seen : p.token.isTrivia = false
  inside : p.token.kind ≠ .eof
  trivia : ∀ t ∈ p.gap, t.isTrivia = true

theorem Piece.WellFormed.significant_tokens {p : Piece} (h : p.WellFormed) :
    Token.significant p.tokens = [p.token] := by
  rw [tokens, Token.significant_cons_of_not_isTrivia h.seen, Token.significant_eq_nil h.trivia]

/-- The significant tokens of a stretch of pieces are those that the pieces stand for. -/
theorem significant_pieces {pieces : List Piece} (h : ∀ p ∈ pieces, p.WellFormed) :
    Token.significant (pieces.flatMap Piece.tokens) = pieces.map (·.token) := by
  induction pieces with
  | nil => rfl
  | cons p pieces ih =>
    rw [List.flatMap_cons, Token.significant_append, (h p List.mem_cons_self).significant_tokens,
      ih fun q hq => h q (List.mem_cons_of_mem p hq)]
    rfl

namespace Stream

/-! ## Splitting -/

theorem split_lead (before : Option Token) (ts : List Token) :
    ∀ t ∈ (split before ts).lead, t.isTrivia = true := by
  induction ts with
  | nil => simp [split]
  | cons t ts ih =>
    rw [split]
    split_ifs with _ ht
    · simp
    · intro u hu
      rcases List.mem_cons.1 hu with rfl | hu
      · exact ht
      · exact ih u hu
    · simp

theorem split_wellFormed (before : Option Token) (ts : List Token) :
    ∀ p ∈ (split before ts).pieces, p.WellFormed := by
  induction ts generalizing before with
  | nil => simp [split]
  | cons t ts ih =>
    rw [split]
    split_ifs with hk ht
    · simp
    · exact ih before
    · intro p hp
      rcases List.mem_cons.1 hp with rfl | hp
      · exact ⟨by simpa using ht, hk, split_lead (some t) ts⟩
      · exact ih (some t) p hp

theorem split_eof (before : Option Token) (ts : List Token) :
    (split before ts).eof.kind = .eof := by
  induction ts generalizing before with
  | nil => rfl
  | cons t ts ih =>
    rw [split]
    split_ifs with hk
    · exact hk
    · exact ih before
    · exact ih (some t)

/-- The grammar sees the significant tokens up to the first end token. -/
theorem significant_split (before : Option Token) {ts : List Token} (h : ∃ t ∈ ts, t.kind = .eof) :
    (split before ts).pieces.map (·.token) ++ [(split before ts).eof] <+: Token.significant ts := by
  obtain ⟨rest, hts⟩ := split_tokens before ts h
  have hlead := Token.significant_eq_nil (split_lead before ts)
  have hpieces := significant_pieces (split_wellFormed before ts)
  have heof := Token.significant_cons_of_not_isTrivia
    (Token.not_isTrivia_of_eof (split_eof before ts)) []
  refine ⟨Token.significant rest, ?_⟩
  calc (split before ts).pieces.map (·.token) ++ [(split before ts).eof] ++ Token.significant rest
      = Token.significant ((split before ts).tokens ++ rest) := by
        rw [Token.significant_append, tokens, Token.significant_append, Token.significant_append,
          hlead, hpieces, heof]
        rfl
    _ = Token.significant ts := by rw [← hts]

/-- A significant token of the stream is that of a piece, or the end token. -/
theorem exists_piece (before : Option Token) {ts : List Token} {t : Token}
    (h : t ∈ (split before ts).tokens) (ht : t.isTrivia = false) (hk : t.kind ≠ .eof) :
    ∃ p ∈ (split before ts).pieces, p.token = t := by
  simp only [tokens, List.mem_append, List.mem_flatMap, List.mem_singleton] at h
  rcases h with (h | ⟨p, hp, h⟩) | rfl
  · rw [split_lead before ts t h] at ht
    cases ht
  · rcases List.mem_cons.1 h with rfl | h
    · exact ⟨p, hp, rfl⟩
    · rw [(split_wellFormed before ts p hp).trivia t h] at ht
      cases ht
  · exact absurd (split_eof before ts) hk

end Stream

theorem exists_eof_withEnd (ts : List Token) : ∃ t ∈ withEnd ts, t.kind = .eof := by
  obtain ⟨t, ht, hk⟩ := getLast?_withEnd ts
  exact ⟨t, List.mem_of_getLast? ht, hk⟩

/-! ## Scanned documents -/

/-- Where only the last token is an end token, the stream holds all tokens. -/
theorem Stream.tokens_split_concat (before : Option Token) {ts : List Token} {e : Token}
    (he : e.kind = .eof) (hts : ∀ t ∈ ts, t.kind ≠ .eof) :
    (split before (ts ++ [e])).tokens = ts ++ [e] := by
  induction ts generalizing before with
  | nil => simp [split, he, tokens]
  | cons t ts ih =>
    have ih (before : Option Token) : (split before (ts ++ [e])).tokens = ts ++ [e] :=
      ih before fun u hu => hts u (List.mem_cons_of_mem t hu)
    rw [List.cons_append, split, if_neg (hts t List.mem_cons_self)]
    split_ifs
    · simpa [tokens] using ih before
    · simpa [tokens, Piece.tokens] using ih (some t)

theorem withEnd_scan (source : String) : withEnd (Token.scan source) = Token.scan source := by
  obtain ⟨ts, q, hscan, -, -⟩ := Token.scanFrom_laid .start source.toList
  rw [Token.scan, hscan, withEnd, List.getLast?_concat]
  rfl

namespace Stream

/-- What the grammar reads of a source. -/
abbrev ofSource (source : String) : Stream := ofTokens (withEnd (Token.scan source))

/-- The stream of a source holds all of its tokens. -/
theorem tokens_ofSource (source : String) : (ofSource source).tokens = Token.scan source := by
  obtain ⟨ts, q, hscan, -, hkind⟩ := Token.scanFrom_laid .start source.toList
  rw [ofSource, withEnd_scan, Token.scan, hscan]
  exact tokens_split_concat none rfl hkind

/-- The tokens of a source are laid one after another, the end token last. -/
theorem laid_ofSource (source : String) :
    Token.Laid .start ((ofSource source).lead ++ (ofSource source).pieces.flatMap Piece.tokens)
      (ofSource source).eof.start := by
  obtain ⟨ts, q, hscan, hlaid, hkind⟩ := Token.scanFrom_laid .start source.toList
  have htokens := tokens_ofSource source
  rw [tokens, Token.scan, hscan] at htokens
  obtain ⟨hts, heof⟩ := List.append_inj' htokens rfl
  rw [hts, List.singleton_inj.1 heof]
  exact hlaid

end Stream

/-! ## Indices -/

/-- The indices of the tokens that the grammar sees. -/
def significantAt (ts : List Token) : List Nat :=
  (ts.zipIdx.filter fun x => !x.1.isTrivia).map (·.2)

theorem map_fst_filter_zipIdx (ts : List Token) (n : Nat) :
    ((ts.zipIdx n).filter fun x => !x.1.isTrivia).map (·.1) = Token.significant ts := by
  induction ts generalizing n with
  | nil => rfl
  | cons t ts ih =>
    rw [List.zipIdx_cons, Token.significant, List.filter_cons, List.filter_cons]
    split_ifs
    · rw [List.map_cons, ih, Token.significant]
    · rw [ih, Token.significant]

/-- The indices of the significant tokens are in range, and the significant tokens stand there. -/
theorem getElem?_significantAt {ts : List Token} {j : Nat} {t : Token}
    (h : (Token.significant ts)[j]? = some t) :
    ∃ i, (significantAt ts)[j]? = some i ∧ ts[i]? = some t := by
  rw [← map_fst_filter_zipIdx ts 0, List.getElem?_map, Option.map_eq_some_iff] at h
  obtain ⟨⟨u, i⟩, hj, rfl⟩ := h
  refine ⟨i, ?_, ?_⟩
  · rw [significantAt, List.getElem?_map, hj]
    rfl
  · have hmem := (List.mem_filter.1 (List.mem_of_getElem? hj)).1
    exact List.mem_zipIdx_iff_getElem?.1 hmem

end Grammar

end QuerySuite
