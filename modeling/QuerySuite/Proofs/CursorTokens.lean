import Mathlib
import QuerySuite.Completion.Basic
import QuerySuite.Proofs.CompletionContexts

/-!
# Cursors in the token stream

The tokens around a cursor are looked up by comparing lines and columns with those of every token.
In a document tokens stand one behind another, so this finds neighbours in the stream: the tokens
that end at the cursor or before it are those at the front, the last of them is the token before the
cursor, and only the next one can be under it. A cursor need not be a place of the document.

Results:

* `Token.filter_isPassed_isPrefix`: the tokens a cursor has passed are those at the front.
* `Token.foldl_later_eq_getLast?`: among tokens in order the latest is the last.
* `Suite.lookup_follows_stream`: the tokens before and under a cursor are neighbours.
-/

namespace QuerySuite

namespace Token

/-- The tokens stand in order: none is empty, and each ends where the next ones start or before. -/
def InOrder (tokens : List Token) : Prop :=
  (∀ t ∈ tokens, t.start.isBefore t.stop = true) ∧
    tokens.Pairwise fun t u => t.stop.AtOrBefore u.start

/-- The cursor stands at the end of the token or behind it. -/
def isPassed (p : Position) (t : Token) : Bool := !t.stop.isAfter p

/-- The cursor stands in the token or at its start. -/
def isUnder (p : Position) (t : Token) : Bool := !t.start.isAfter p && t.stop.isAfter p

variable {tokens : List Token} {p : Position} {t u : Token}

theorem isPassed_iff : t.isPassed p = true ↔ t.stop.AtOrBefore p := by
  rw [isPassed, Bool.not_eq_true', ← Bool.not_eq_true, Position.isAfter_iff]
  unfold Position.AtOrBefore
  omega

theorem isUnder_eq_false_of_isPassed (h : t.isPassed p = true) : t.isUnder p = false := by
  rw [isPassed, Bool.not_eq_true'] at h
  rw [isUnder, h, Bool.and_false]

namespace InOrder

theorem nil : InOrder [] := ⟨by simp, .nil⟩

theorem tail (h : InOrder (t :: tokens)) : InOrder tokens :=
  ⟨fun u hu => h.1 u (List.mem_cons_of_mem t hu), (List.pairwise_cons.1 h.2).2⟩

/-- What stands behind a token starts where it ends or later. -/
theorem stop_atOrBefore (h : InOrder (t :: tokens)) (hu : u ∈ tokens) :
    t.stop.AtOrBefore u.start := (List.pairwise_cons.1 h.2).1 u hu

theorem filter (h : InOrder tokens) (q : Token → Bool) : InOrder (tokens.filter q) :=
  ⟨fun t ht => h.1 t (List.mem_of_mem_filter ht), h.2.filter q⟩

/-- A token that stands behind one the cursor has not passed is not passed either, and the cursor
does not stand in it. -/
theorem not_reached (h : InOrder (t :: tokens)) (ht : t.isPassed p = false) (hu : u ∈ tokens) :
    u.isPassed p = false ∧ u.isUnder p = false := by
  have hstart := h.stop_atOrBefore hu
  have hlt := (Position.isBefore_iff _ _).1 (h.1 u (List.mem_cons_of_mem t hu))
  have hafter : ¬ t.stop.AtOrBefore p := by rw [← isPassed_iff, ht]; simp
  unfold Position.AtOrBefore at hstart hafter
  constructor
  · rw [← Bool.not_eq_true, isPassed_iff, Position.AtOrBefore]
    omega
  · have hbehind : u.start.isAfter p = true := by
      rw [Position.isAfter_iff]
      omega
    rw [isUnder, hbehind, Bool.not_true, Bool.false_and]

end InOrder

/-- Tokens in a row stand in order. -/
theorem Laid.inOrder {p q : Position} (h : Laid p tokens q) : InOrder tokens := by
  induction h with
  | nil p => exact .nil
  | @cons t ts q text h ih =>
    refine ⟨?_, List.pairwise_cons.2 ⟨fun u hu => (h.bounds hu).1, ih.2⟩⟩
    intro u hu
    rcases List.mem_cons.1 hu with rfl | hu
    · exact Position.isBefore_advance _ text
    · exact ih.1 u hu

/-! ## Lookups in tokens in order -/

/-- The stream falls into the tokens that the cursor has passed and the others, of which only the
first can be under it. -/
theorem exists_split_of_inOrder (h : InOrder tokens) (p : Position) :
    ∃ rest, tokens = tokens.filter (isPassed p) ++ rest ∧ (∀ t ∈ rest, t.isPassed p = false) ∧
      ∀ t ∈ rest.tail, t.isUnder p = false := by
  induction tokens with
  | nil => exact ⟨[], rfl, by simp, by simp⟩
  | cons t tokens ih =>
    cases ht : t.isPassed p with
    | true =>
      obtain ⟨rest, hsplit, hrest⟩ := ih h.tail
      refine ⟨rest, ?_, hrest⟩
      rw [List.filter_cons_of_pos ht, List.cons_append, ← hsplit]
    | false =>
      have hnone : tokens.filter (isPassed p) = [] :=
        List.filter_eq_nil_iff.2 fun u hu => by simp [(h.not_reached ht hu).1]
      refine ⟨t :: tokens, ?_, ?_, fun u hu => (h.not_reached ht hu).2⟩
      · rw [List.filter_cons_of_neg (by simp [ht]), hnone, List.nil_append]
      · intro u hu
        rcases List.mem_cons.1 hu with rfl | hu
        · exact ht
        · exact (h.not_reached ht hu).1

/-- The tokens a cursor has passed are those at the front. -/
theorem filter_isPassed_isPrefix (h : InOrder tokens) (p : Position) :
    tokens.filter (isPassed p) <+: tokens := by
  obtain ⟨rest, hsplit, -⟩ := exists_split_of_inOrder h p
  exact ⟨rest, hsplit.symm⟩

/-- Among tokens in order the latest is the last. -/
theorem foldl_later_eq_getLast? (h : InOrder tokens) :
    tokens.foldl later none = tokens.getLast? := by
  induction tokens using List.reverseRecOn with
  | nil => rfl
  | append_singleton tokens t ih =>
    have hearlier : InOrder tokens :=
      ⟨fun u hu => h.1 u (List.mem_append_left _ hu), (List.pairwise_append.1 h.2).1⟩
    rw [List.foldl_append, ih hearlier, List.getLast?_concat]
    cases hlast : tokens.getLast? with
    | none => rfl
    | some u =>
      have hu := List.mem_of_getLast? hlast
      have hle := (List.pairwise_append.1 h.2).2.2 u hu t (by simp)
      have hlt := (Position.isBefore_iff _ _).1 (hearlier.1 u hu)
      unfold Position.AtOrBefore at hle
      have hnot : u.start.isAfter t.start = false := by
        rw [← Bool.not_eq_true, Position.isAfter_iff]
        omega
      simp [later, hnot]

/-- The token under a cursor is the one behind those that were passed, if it starts in time. -/
theorem find?_isUnder_eq_some_iff (h : InOrder tokens) :
    tokens.find? (isUnder p) = some t ↔
      (∃ more, tokens = tokens.filter (isPassed p) ++ t :: more) ∧ t.start.isAfter p = false := by
  obtain ⟨rest, hsplit, hrest, htail⟩ := exists_split_of_inOrder h p
  have hpassed : (tokens.filter (isPassed p)).find? (isUnder p) = none :=
    List.find?_eq_none.2 fun u hu => by
      simp [isUnder_eq_false_of_isPassed (List.mem_filter.1 hu).2]
  -- Only the first of the others can be found.
  have hfind : tokens.find? (isUnder p) = rest.head?.filter (isUnder p) := by
    conv_lhs => rw [hsplit, List.find?_append, hpassed, Option.none_or]
    cases rest with
    | nil => rfl
    | cons u rest =>
      have hnone : rest.find? (isUnder p) = none :=
        List.find?_eq_none.2 fun v hv => by simp [htail v hv]
      rw [List.find?_cons, hnone, List.head?_cons, Option.filter_some]
      cases u.isUnder p <;> rfl
  have hmore : (∃ more, tokens = tokens.filter (isPassed p) ++ t :: more) ↔
      rest.head? = some t := by
    rw [List.head?_eq_some_iff]
    refine exists_congr fun more => ⟨fun heq => ?_, fun heq => by rw [← heq, ← hsplit]⟩
    exact List.append_cancel_left (hsplit.symm.trans heq)
  rw [hfind, hmore, Option.filter_eq_some_iff]
  refine and_congr_right fun hhead => ?_
  have hnot := hrest t (List.mem_of_head? hhead)
  rw [isPassed, Bool.not_eq_false'] at hnot
  rw [isUnder, hnot, Bool.and_true, Bool.not_eq_true']

/-- At most one token is under a cursor. -/
theorem length_filter_isUnder_le (h : InOrder tokens) (p : Position) :
    (tokens.filter (isUnder p)).length ≤ 1 := by
  obtain ⟨rest, hsplit, -, htail⟩ := exists_split_of_inOrder h p
  have hpassed : (tokens.filter (isPassed p)).filter (isUnder p) = [] :=
    List.filter_eq_nil_iff.2 fun u hu => by
      simp [isUnder_eq_false_of_isPassed (List.mem_filter.1 hu).2]
  rw [hsplit, List.filter_append, hpassed, List.nil_append]
  cases rest with
  | nil => exact Nat.zero_le _
  | cons u rest =>
    have hnone : rest.filter (isUnder p) = [] :=
      List.filter_eq_nil_iff.2 fun v hv => by simp [htail v hv]
    rw [List.filter_cons, hnone]
    split_ifs <;> simp

end Token

/-! ## Documents -/

namespace Suite

/-- The significant tokens of a suite that end at the cursor or before it. The end of the document
is none of them. -/
def passedTokens (s : Suite) (p : Position) : List Token :=
  (Token.significant s.tokens).filter fun t => t.kind != .eof && t.isPassed p

/-- The significant tokens of a document are those that a cursor can stand at, in order, and the end
of the document behind them. -/
theorem exists_significant_eq {s : Suite} {source : String} (h : s.tokens = Token.scan source) :
    Token.InOrder s.visibleTokens ∧
      ∃ q, Token.significant s.tokens = s.visibleTokens ++ [Token.endOfFile q] := by
  obtain ⟨ts, q, hscan, hlaid, hkind⟩ := Token.scanFrom_laid .start source.toList
  have hvisible : s.visibleTokens = ts.filter (!·.isTrivia) := by
    have hsame : ts.filter (·.isVisible) = ts.filter (!·.isTrivia) := by
      refine List.filter_congr fun t ht => ?_
      have htext : t.text.toList.isEmpty = false := by
        rw [List.isEmpty_eq_false_iff]
        intro hempty
        have hlt := hlaid.inOrder.1 t ht
        rw [Token.stop, hempty, Position.advance_nil, Position.isBefore_iff] at hlt
        omega
      simp [Token.isVisible, htext, hkind t ht]
    rw [visibleTokens, h, Token.scan, hscan, List.filter_append, hsame]
    exact List.append_nil _
  refine ⟨by rw [hvisible]; exact hlaid.inOrder.filter _, q, ?_⟩
  rw [hvisible, h, Token.scan, hscan, Token.significant, List.filter_append]
  rfl

variable {s : Suite} {source : String} (h : s.tokens = Token.scan source) (p : Position)

include h

theorem passedTokens_eq : s.passedTokens p = s.visibleTokens.filter (Token.isPassed p) := by
  obtain ⟨-, q, hsignificant⟩ := exists_significant_eq h
  have hkind : ∀ t ∈ s.visibleTokens, (t.kind != .eof) = true := by
    intro t ht
    have hvisible := (List.mem_filter.1 ht).2
    simp only [Token.isVisible, Bool.and_eq_true] at hvisible
    exact hvisible.1.2
  have hsame : s.visibleTokens.filter (fun t => t.kind != .eof && t.isPassed p) =
      s.visibleTokens.filter (Token.isPassed p) :=
    List.filter_congr fun t ht => by rw [hkind t ht, Bool.true_and]
  rw [passedTokens, hsignificant, List.filter_append, hsame]
  exact List.append_nil _

/-- The token before a cursor is the last one that the cursor has passed. -/
theorem previousToken_eq_getLast? : s.previousToken p = (s.passedTokens p).getLast? := by
  rw [passedTokens_eq h, previousToken]
  exact Token.foldl_later_eq_getLast? ((exists_significant_eq h).1.filter _)

/-- The token under a cursor is the one behind those it has passed, if it starts in time. -/
theorem tokenAt_eq_some_iff {t : Token} :
    s.tokenAt p = some t ↔ t.kind ≠ .eof ∧
      (∃ more, Token.significant s.tokens = s.passedTokens p ++ t :: more) ∧
        t.start.isAfter p = false := by
  obtain ⟨horder, q, hsignificant⟩ := exists_significant_eq h
  have hfind : s.tokenAt p = s.visibleTokens.find? (Token.isUnder p) := rfl
  rw [hfind, Token.find?_isUnder_eq_some_iff horder, passedTokens_eq h, hsignificant, ← and_assoc]
  refine and_congr_left fun _ => ⟨?_, ?_⟩
  · rintro ⟨more, hmore⟩
    refine ⟨?_, more ++ [Token.endOfFile q], ?_⟩
    · have ht : t ∈ s.visibleTokens := by rw [hmore]; simp
      have hvisible := (List.mem_filter.1 ht).2
      simp only [Token.isVisible, Bool.and_eq_true, bne_iff_ne] at hvisible
      exact hvisible.1.2
    · conv_lhs => rw [hmore]
      rw [List.append_assoc, List.cons_append]
  · rintro ⟨hkind, more, hmore⟩
    -- What is left behind `t` ends with the end of the document.
    rcases List.eq_nil_or_concat more with rfl | ⟨more, last, rfl⟩
    · obtain ⟨-, hlast⟩ := List.append_inj' hmore rfl
      rw [← List.singleton_inj.1 hlast] at hkind
      exact absurd rfl hkind
    · have hconcat : s.visibleTokens ++ [Token.endOfFile q] =
          (s.visibleTokens.filter (Token.isPassed p) ++ t :: more) ++ [last] := by
        simpa using hmore
      exact ⟨more, (List.append_inj' hconcat rfl).1⟩

theorem length_filter_isUnder_significant_le :
    ((Token.significant s.tokens).filter (Token.isUnder p)).length ≤ 1 := by
  obtain ⟨horder, q, hsignificant⟩ := exists_significant_eq h
  have hend : [Token.endOfFile q].filter (Token.isUnder p) = [] := by
    refine List.filter_eq_nil_iff.2 fun t ht => ?_
    obtain rfl := List.mem_singleton.1 ht
    have hpoint : (Token.endOfFile q).stop = (Token.endOfFile q).start := rfl
    rw [Token.isUnder, hpoint, Bool.not_and_self]
    exact Bool.false_ne_true
  rw [hsignificant, List.filter_append, hend, List.append_nil]
  exact Token.length_filter_isUnder_le horder p

end Suite

/-- The tokens around a cursor are neighbours in the stream, for every tree of a document and every
cursor, be it a place of the document or not. The significant tokens that end at the cursor or
before it are at the front of the stream, and the token before the cursor is the last of them. The
token under the cursor is the one behind them, if it starts at the cursor or before it; the end of
the document is never under it. So at most one token is under the cursor, and the token before the
cursor is the one before that. -/
theorem Suite.lookup_follows_stream {mode : Grammar.Mode} {source : String} {suite : Suite}
    (h : (parse mode source).suite = some suite) (p : Position) :
    suite.passedTokens p <+: Token.significant suite.tokens ∧
    suite.previousToken p = (suite.passedTokens p).getLast? ∧
    (suite.previousToken p = none ↔ suite.passedTokens p = []) ∧
    (∀ t, suite.tokenAt p = some t ↔ t.kind ≠ .eof ∧
      (∃ more, Token.significant suite.tokens = suite.passedTokens p ++ t :: more) ∧
        t.start.isAfter p = false) ∧
    ((Token.significant suite.tokens).filter (Token.isUnder p)).length ≤ 1 ∧
    ∀ t, suite.tokenAt p = some t → ∃ before after,
      Token.significant suite.tokens = before ++ t :: after ∧
        suite.previousToken p = before.getLast? := by
  have htokens := Parsed.tokens_of_suite h
  have hprevious := previousToken_eq_getLast? htokens p
  refine ⟨?_, hprevious, ?_, fun t => tokenAt_eq_some_iff htokens p,
    length_filter_isUnder_significant_le htokens p, ?_⟩
  · obtain ⟨horder, q, hsignificant⟩ := exists_significant_eq htokens
    rw [passedTokens_eq htokens, hsignificant]
    exact (Token.filter_isPassed_isPrefix horder p).trans (List.prefix_append _ _)
  · rw [hprevious, List.getLast?_eq_none_iff]
  · intro t ht
    obtain ⟨-, ⟨more, hmore⟩, -⟩ := (tokenAt_eq_some_iff htokens p).1 ht
    exact ⟨suite.passedTokens p, more, hmore, hprevious⟩

/-- A cursor on the second line of a query body that was opened on the first. -/
theorem Suite.lookup_follows_stream_body :
    ∃ suite, (parse .strict "setup `a\nb`").suite = some suite ∧
      suite.tokenAt ⟨2, 1, 0⟩ = some ⟨.rawString, "`a\nb`", ⟨1, 7, 6⟩⟩ ∧
      suite.previousToken ⟨2, 1, 0⟩ = some ⟨.keyword, "setup", ⟨1, 1, 0⟩⟩ ∧
      ∃ before after, Token.significant suite.tokens =
          before ++ ⟨.rawString, "`a\nb`", ⟨1, 7, 6⟩⟩ :: after ∧
        before.getLast? = some ⟨.keyword, "setup", ⟨1, 1, 0⟩⟩ := by
  have hrun : (parse .strict "setup `a\nb`").suite.map
      (fun suite => (suite.tokenAt ⟨2, 1, 0⟩, suite.previousToken ⟨2, 1, 0⟩)) =
      some (some ⟨.rawString, "`a\nb`", ⟨1, 7, 6⟩⟩, some ⟨.keyword, "setup", ⟨1, 1, 0⟩⟩) := by
    cbv
  obtain ⟨suite, hsuite, hlookup⟩ := Option.map_eq_some_iff.1 hrun
  obtain ⟨hat, hprevious⟩ := Prod.mk.inj hlookup
  obtain ⟨before, after, hstream, hlast⟩ :=
    (lookup_follows_stream hsuite ⟨2, 1, 0⟩).2.2.2.2.2 _ hat
  exact ⟨suite, hsuite, hat, hprevious, before, after, hstream, hlast.symm.trans hprevious⟩

end QuerySuite
