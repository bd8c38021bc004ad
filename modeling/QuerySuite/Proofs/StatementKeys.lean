import Mathlib
import QuerySuite.Proofs.CursorTokens
import QuerySuite.Proofs.JoinedTexts
import QuerySuite.Proofs.Parameters
import QuerySuite.Proofs.Origins
import QuerySuite.Proofs.PhraseGrammar
import QuerySuite.Proofs.SourceRanges

/-!
# Keys of statements

The key of a statement is written with dots between its parts. Two indices in a row look like one
number to the scanner, and with blanks between them like three tokens; the parser cuts the numbers
up again. Either way the key is what the tokens before the colon say, cut at every dot, and so the
key path is what was written.

Results:

* `Token.ident_of_mem_scan`, `Token.digits_of_mem_splitOn`: the texts that keys are made of.
* `Grammar.IsSegments.splitOn_append`: cutting the texts of the tokens at the dots gives the parts.
* `Grammar.exists_key_of_parse`: where in a document the key of a statement stands.
* `statement_keys_as_written`: the keys of the statements of a document.
-/

namespace QuerySuite

/-! ## Texts of tokens -/

namespace Token

variable {source : String} {t : Token}

/-- Some class admits the text of a token that is neither an error nor the end. -/
theorem admits_of_mem_scan (ht : t ∈ scan source) (heof : t.kind ≠ .eof)
    (herror : t.kind ≠ .error) : Admits t.kind t.text.toList := by
  obtain ⟨before, after, hscan⟩ := List.append_of_mem ht
  obtain ⟨c, rest, -, hkind, htext⟩ := exists_lexeme_of_scanFrom hscan heof
  rw [hkind] at herror ⊢
  rw [htext]
  exact admits_lexeme herror

theorem text_ne_empty_of_mem_scan (ht : t ∈ scan source) (heof : t.kind ≠ .eof) : t.text ≠ "" := by
  obtain ⟨before, after, hscan⟩ := List.append_of_mem ht
  obtain ⟨c, rest, -, -, htext⟩ := exists_lexeme_of_scanFrom hscan heof
  rintro hempty
  rw [hempty] at htext
  cases htext

theorem toList_text_of_dot (ht : t ∈ scan source) (hk : t.kind = .dot) :
    t.text.toList = ['.'] := by
  have hadmits := admits_of_mem_scan ht (by simp [hk]) (by simp [hk])
  rw [hk] at hadmits
  rcases admits_iff.1 hadmits with ⟨hkeyword, -⟩ | ⟨word, hword, hw⟩ | ⟨p, hp, -⟩
  · cases hkeyword
  · obtain rfl : word = "." := by simpa [symbols] using hword
    exact hw
  · simp [openClasses] at hp

/-- An identifier is a name that is no reserved word, or a parameter. -/
theorem ident_of_mem_scan (ht : t ∈ scan source) (hk : t.kind = .ident) :
    t.text.toList ∈ namePattern.language ∧ t.text ∉ keywords ∨
      t.text.toList.head? = some '$' ∧ ∀ c ∈ t.text.toList.tail, isNameChar c = true := by
  obtain ⟨before, after, hscan⟩ := List.append_of_mem ht
  obtain ⟨c, rest, -, hkind, htext⟩ := exists_lexeme_of_scanFrom hscan (by simp [hk])
  rw [hk] at hkind
  obtain ⟨hfront, hlength⟩ := lexeme_ident hkind.symm
  have hrest : ∀ d ∈ rest.take (lexeme c rest).2, isNameChar d = true := by
    rw [hlength]
    exact forall_mem_take_runLength isNameChar rest
  rw [htext]
  rcases hfront with ⟨hc, hword⟩ | rfl
  · rw [← htext, String.ofList_toList] at hword
    refine .inl ⟨QueryBody.mem_namePattern_iff.2 ?_, hword⟩
    rw [QueryBody.isName, hc, Bool.true_and, List.all_eq_true]
    exact hrest
  · exact .inr ⟨rfl, hrest⟩

theorem dot_notMem_of_ident (ht : t ∈ scan source) (hk : t.kind = .ident) :
    '.' ∉ t.text.toList := by
  intro hdot
  rcases ident_of_mem_scan ht hk with ⟨hname, -⟩ | ⟨hhead, htail⟩
  · have hchars := QueryBody.isNameChar_of_isName (QueryBody.mem_namePattern_iff.1 hname)
    exact absurd (hchars '.' hdot) (by decide)
  · obtain ⟨u, hu⟩ := List.head?_eq_some_iff.1 hhead
    rw [hu] at hdot htail
    rcases List.mem_cons.1 hdot with hdot | hdot
    · exact absurd hdot (by decide)
    · exact absurd (htail '.' hdot) (by decide)

/-- The parts of a number without a sign are runs of digits. -/
theorem digits_of_mem_splitOn (ht : t ∈ scan source) (hk : t.kind = .number)
    (hsign : t.text.toList.head? ≠ some '-') {part : List Char}
    (hpart : part ∈ t.text.toList.splitOn '.') :
    part ∈ (Pattern.repeated digit).language := by
  have hadmits := admits_of_mem_scan ht (by simp [hk]) (by simp [hk])
  rw [hk] at hadmits
  obtain ⟨sign, digits, fraction, hminus, hdigits, hfraction, htext⟩ :=
    mem_numberPattern_iff.1 (mem_numberPattern_of_admits hadmits)
  obtain rfl : sign = [] := by
    rcases hminus with rfl | rfl
    · rfl
    · rw [htext] at hsign
      exact absurd rfl hsign
  have hwhole {u : List Char} (hu : ∀ c ∈ u, c.isDigit = true) : u.splitOn '.' = [u] :=
    List.splitOn_eq_singleton fun hdot => absurd (hu '.' hdot) (by decide)
  rw [digit, Pattern.mem_repeated_oneOf_iff]
  simp only [within_digits]
  rw [htext, List.nil_append] at hpart
  rcases hfraction with rfl | ⟨more, hmore, rfl⟩
  · rw [List.append_nil, hwhole hdigits.2] at hpart
    rw [List.mem_singleton.1 hpart]
    exact hdigits
  · rw [List.splitOn_append_cons_self, hwhole hdigits.2, hwhole hmore.2] at hpart
    rcases List.mem_pair.1 hpart with rfl | rfl
    · exact hdigits
    · exact hmore

end Token

/-! ## Parts of keys -/

/-- The statement stands for a member that was skipped, and nothing of it was read. -/
def Statement.isPlaceholder (s : Statement) : Bool :=
  s.value.isNone && s.key.isEmpty && s.recovery.wasRecovered

/-- What may stand behind a dot of a key: an identifier that is no parameter, or a run of digits. -/
def Statement.IsPart (part : String) : Prop :=
  part.toList ∈ Token.namePattern.language ∧ part ∉ Token.keywords ∨
    part.toList ∈ (Pattern.repeated Token.digit).language

theorem Statement.IsPart.ne_empty {part : String} (h : IsPart part) : part ≠ "" := by
  rintro rfl
  rcases h with ⟨hname, -⟩ | hdigits
  · exact absurd (QueryBody.mem_namePattern_iff.1 hname) (by decide)
  · exact (Pattern.mem_repeated_oneOf_iff.1 hdigits).1 rfl

namespace Grammar

variable {source : String} {t : Token} {ts : List Token} {texts more : List String}

theorem IsSegment.isPart (h : IsSegment t texts) (ht : t ∈ Token.scan source) :
    ∀ part ∈ texts, Statement.IsPart part := by
  cases h with
  | name hname =>
    refine List.forall_mem_singleton.2 (.inl ?_)
    refine (Token.ident_of_mem_scan ht (kind_eq_of_isName hname)).resolve_right fun hparam => ?_
    simp [Token.isName, Token.isParameter, hparam.1] at hname
  | number hk hsign =>
    intro part hpart
    obtain ⟨piece, hpiece, rfl⟩ := List.mem_map.1 hpart
    refine .inr ?_
    rw [String.toList_ofList]
    exact Token.digits_of_mem_splitOn ht hk hsign hpiece

/-- What a token adds to a key is its text, cut at the dots. -/
theorem IsSegment.splitOn_text (h : IsSegment t texts) (ht : t ∈ Token.scan source) :
    t.text.toList.splitOn '.' = texts.map String.toList := by
  cases h with
  | name hname =>
    exact List.splitOn_eq_singleton (Token.dot_notMem_of_ident ht (kind_eq_of_isName hname))
  | number hk hsign =>
    rw [List.map_map]
    exact (List.map_id'' (fun _ => String.toList_ofList) _).symm

theorem IsSegment.kind_ne_colon (h : IsSegment t texts) : t.kind ≠ .colon := by
  cases h with
  | name hname => simp [kind_eq_of_isName hname]
  | number hk => simp [hk]

theorem IsSegments.isPart (h : IsSegments ts more) (hts : ∀ t ∈ ts, t ∈ Token.scan source) :
    ∀ part ∈ more, Statement.IsPart part := by
  induction h with
  | nil => simp
  | cons hdot ht _ ih =>
    obtain ⟨hscan, hmore⟩ := List.forall_mem_cons.1 (List.forall_mem_cons.1 hts).2
    exact List.forall_mem_append.2 ⟨ht.isPart hscan, ih hmore⟩

/-- Cutting the texts of a key at the dots gives its parts, whatever stands before them. -/
theorem IsSegments.splitOn_append (h : IsSegments ts more) (hts : ∀ t ∈ ts, t ∈ Token.scan source)
    (text : List Char) : (text ++ Token.textsOf ts).splitOn '.' =
      text.splitOn '.' ++ more.map String.toList := by
  induction h generalizing text with
  | nil => simp [Token.textsOf]
  | @cons dot t ts parts more hdot ht h ih =>
    obtain ⟨hscanDot, hbehind⟩ := List.forall_mem_cons.1 hts
    obtain ⟨hscan, hmore⟩ := List.forall_mem_cons.1 hbehind
    rw [Token.textsOf_cons, Token.textsOf_cons, Token.toList_text_of_dot hscanDot hdot,
      List.singleton_append, List.splitOn_append_cons_self, ih hmore, ht.splitOn_text hscan,
      List.map_append]

theorem IsSegments.kind_ne_colon (h : IsSegments ts more) : ∀ t ∈ ts, t.kind ≠ .colon := by
  induction h with
  | nil => simp
  | cons hdot ht _ ih =>
    exact List.forall_mem_cons.2 ⟨by simp [hdot], List.forall_mem_cons.2 ⟨ht.kind_ne_colon, ih⟩⟩

/-! ## Keys in the stream -/

/-- The tokens that the grammar sees stand in order. -/
theorem Stream.inOrder_ofSource (source : String) :
    Token.InOrder ((ofSource source).pieces.map (·.token)) := by
  have hlead : Token.significant (ofSource source).lead = [] :=
    Token.significant_eq_nil (split_lead none _)
  have hpieces : Token.significant ((ofSource source).pieces.flatMap Piece.tokens) =
      (ofSource source).pieces.map (·.token) := significant_pieces (split_wellFormed none _)
  have horder := (laid_ofSource source).inOrder.filter (!·.isTrivia)
  change Token.InOrder (Token.significant _) at horder
  rwa [Token.significant_append, hlead, hpieces, List.nil_append] at horder

/-- The tokens before a piece start before it. -/
theorem Stream.isBefore_of_append {before : List Piece} {p : Piece} {rest : List Piece}
    (h : before ++ p :: rest = (ofSource source).pieces) :
    ∀ t ∈ before.map (·.token), t.start.isBefore p.token.start = true := by
  have horder := inOrder_ofSource source
  rw [← h, List.map_append, List.map_cons] at horder
  intro t ht
  have hstop := (List.pairwise_append.1 horder.2).2.2 t ht p.token List.mem_cons_self
  exact Position.isBefore_of_isBefore_of_atOrBefore
    (horder.1 t (List.mem_append_left _ ht)) hstop

/-- A statement that is no placeholder was read: where it starts stands its first token, with the
further parts of the key and a colon behind it. -/
theorem exists_key_of_parse {mode : Mode} {suite : Suite}
    (h : (QuerySuite.parse mode source).suite = some suite) {s : Statement}
    (hs : .statement s ∈ suite.elements) (hread : s.isPlaceholder = false) :
    ∃ (before : List Token) (first : Token) (ts : List Token) (colon : Token)
      (after : List Token) (more : List String),
      Token.significant (Token.scan source) = before ++ first :: (ts ++ colon :: after) ∧
      (∀ t ∈ before, t.start.isBefore first.start = true) ∧ s.span.start = first.start ∧
      first.kind = .ident ∧ IsSegments ts more ∧ colon.kind = .colon ∧
      s.key = first.text :: more := by
  cases (parse_traced h _ hs).resolve_left (by simp) with
  | skipped ctx p rest suffix blank =>
    cases blank
    cases hread
  | read p rest used c suffix reads span rule =>
    obtain ⟨hkind, hc, heq⟩ := rule
    obtain ⟨tokens, ⟨used', hreads, htokens⟩, hstatement⟩ :=
      (Phrase.statement_yields_iff hkind rfl).1 ⟨hc, heq⟩
    obtain ⟨before, hpieces⟩ := suffix
    have hrest : rest = used' ++ c.rest := hreads.rest_eq
    cases hstatement with
    | @statement _ colon ts us more v _ hsegments hcolon hv =>
      refine ⟨before.map (·.token), p.token, ts, colon,
        us ++ (c.rest.map (·.token) ++ [(Stream.ofSource source).eof]), more, ?_,
        Stream.isBefore_of_append hpieces, congrArg Span.start span, hkind, hsegments, hcolon, rfl⟩
      rw [Stream.significant_scan, ← hpieces, hrest, List.map_append, List.map_cons,
        List.map_append, htokens]
      simp only [List.append_assoc, List.cons_append]

end Grammar

/-! ## Statements of a document -/

/-- The statement that the element is. -/
def Element.statement? : Element → Option Statement
  | statement s => some s
  | _ => none

/-- The statements of a suite, in the order of the walk. -/
def Suite.statements (s : Suite) : List Statement := s.elements.filterMap Element.statement?

theorem Suite.mem_statements_iff {suite : Suite} {s : Statement} :
    s ∈ suite.statements ↔ .statement s ∈ suite.elements := by
  rw [statements, List.mem_filterMap]
  constructor
  · rintro ⟨e, he, hs⟩
    cases e <;> cases hs
    exact he
  · intro h
    exact ⟨_, h, rfl⟩

namespace Statement

/-- The significant tokens from the start of the statement on. -/
def tokensFrom (s : Statement) (tokens : List Token) : List Token :=
  (Token.significant tokens).dropWhile (·.start.isBefore s.span.start)

/-- The significant tokens from the start of the statement up to its first colon. -/
def keyTokens (s : Statement) (tokens : List Token) : List Token :=
  (s.tokensFrom tokens).takeWhile (·.kind != .colon)

variable {s : Statement} {tokens before ts after : List Token} {first colon : Token}

theorem tokensFrom_eq (htokens : Token.significant tokens = before ++ first :: after)
    (hbefore : ∀ t ∈ before, t.start.isBefore first.start = true)
    (hstart : s.span.start = first.start) : s.tokensFrom tokens = first :: after := by
  rw [tokensFrom, htokens, hstart, List.dropWhile_append_of_pos hbefore,
    List.dropWhile_cons_of_neg]
  simp [Position.isBefore_iff]

theorem keyTokens_eq (htokens : s.tokensFrom tokens = ts ++ colon :: after)
    (hts : ∀ t ∈ ts, t.kind ≠ .colon) (hcolon : colon.kind = .colon) :
    s.keyTokens tokens = ts := by
  rw [keyTokens, htokens, List.takeWhile_append_of_pos (by simpa using hts),
    List.takeWhile_cons_of_neg (by simp [hcolon]), List.append_nil]

end Statement

/-- In both ways to read a source, the key of every statement that is no placeholder is kept as it
was written. At the start of the statement a token stands, and a colon behind it; the key path is
the texts of the tokens up to the first one. No part of the key is empty or holds a dot, so that
cutting the key path at the dots gives the key, and behind the first part there are only
identifiers that are no parameters, and runs of digits. -/
theorem statement_keys_as_written {mode : Grammar.Mode} {source : String} {suite : Suite}
    (h : (parse mode source).suite = some suite) {s : Statement} (hs : s ∈ suite.statements)
    (hread : s.isPlaceholder = false) :
    (s.tokensFrom (Token.scan source)).head?.map (·.start) = some s.span.start ∧
    (∃ t ∈ s.tokensFrom (Token.scan source), t.kind = .colon) ∧
    s.keyPath = String.join ((s.keyTokens (Token.scan source)).map (·.text)) ∧
    (∀ part ∈ s.key, part ≠ "" ∧ '.' ∉ part.toList) ∧
    (s.keyPath.toList.splitOn '.').map String.ofList = s.key ∧
    ∀ part ∈ s.key.tail, Statement.IsPart part := by
  obtain ⟨before, first, ts, colon, after, more, htokens, hbefore, hstart, hfirst, hsegments,
    hcolon, hkey⟩ := Grammar.exists_key_of_parse h (Suite.mem_statements_iff.1 hs) hread
  have hscan {t : Token} (ht : t ∈ first :: (ts ++ colon :: after)) : t ∈ Token.scan source := by
    refine List.mem_of_mem_filter (p := (!·.isTrivia)) ?_
    change t ∈ Token.significant _
    rw [htokens]
    exact List.mem_append_right _ ht
  have hparts : ∀ t ∈ ts, t ∈ Token.scan source := fun t ht =>
    hscan (List.mem_cons_of_mem _ (List.mem_append_left _ ht))
  have hfrom := Statement.tokensFrom_eq htokens hbefore hstart
  have hkeyTokens : s.keyTokens (Token.scan source) = first :: ts :=
    Statement.keyTokens_eq (hfrom.trans (List.cons_append ..).symm)
      (List.forall_mem_cons.2 ⟨by simp [hfirst], hsegments.kind_ne_colon⟩) hcolon
  -- Cut at the dots, the texts of the key's tokens are the parts of the key.
  have hsplit : (Token.textsOf (first :: ts)).splitOn '.' = s.key.map String.toList := by
    have hdot := Token.dot_notMem_of_ident (hscan List.mem_cons_self) hfirst
    rw [Token.textsOf_cons, hsegments.splitOn_append hparts, List.splitOn_eq_singleton hdot, hkey]
    rfl
  have hpath : s.keyPath.toList = Token.textsOf (first :: ts) := by
    rw [Statement.keyPath, String.toList_intercalate, ← hsplit]
    exact List.intercalate_splitOn _
  have htail : ∀ part ∈ s.key.tail, Statement.IsPart part := by
    rw [hkey]
    exact hsegments.isPart hparts
  refine ⟨?_, ⟨colon, ?_, hcolon⟩, ?_, fun part hpart => ⟨?_, ?_⟩, ?_, htail⟩
  · rw [hfrom, hstart]
    rfl
  · rw [hfrom]
    simp
  · rw [← String.toList_inj, hpath, hkeyTokens, Token.toList_join_texts]
  · rw [hkey] at hpart htail
    rcases List.mem_cons.1 hpart with rfl | hpart
    · exact Token.text_ne_empty_of_mem_scan (hscan List.mem_cons_self) (by simp [hfirst])
    · exact (htail part hpart).ne_empty
  · exact Text.not_mem_of_mem_splitOn (hsplit ▸ List.mem_map_of_mem hpart)
  · rw [hpath, hsplit, List.map_map]
    exact List.map_id'' (fun _ => String.ofList_toList) _

/-- Two indices that are scanned as one number, and a name behind blanks, in a test that is not
closed. -/
theorem statement_keys_as_written_indices :
    ∃ (suite : Suite) (s : Statement),
      (parse .recovery "q\x7btest t\x7b$x.0.1 . b:null").suite = some suite ∧
      s ∈ suite.statements ∧ s.isPlaceholder = false ∧ s.key = ["$x", "0", "1", "b"] ∧
      s.keyPath = String.join
        ((s.keyTokens (Token.scan "q\x7btest t\x7b$x.0.1 . b:null")).map (·.text)) ∧
      (s.keyPath.toList.splitOn '.').map String.ofList = s.key ∧
      ∀ part ∈ s.key.tail, Statement.IsPart part := by
  have hkeys : (parse .recovery "q\x7btest t\x7b$x.0.1 . b:null").suite.map
      (·.statements.map fun s => (s.key, s.isPlaceholder)) =
        some [(["$x", "0", "1", "b"], false)] := by cbv
  obtain ⟨suite, hsuite, hkeys⟩ := Option.map_eq_some_iff.1 hkeys
  obtain ⟨s, hstatements, hs⟩ := List.map_eq_singleton_iff.1 hkeys
  have hmem : s ∈ suite.statements := by
    rw [hstatements]
    exact List.mem_singleton_self s
  obtain ⟨hkey, hread⟩ := Prod.mk.inj hs
  obtain ⟨-, -, hpath, -, hsplit, hparts⟩ := statement_keys_as_written hsuite hmem hread
  exact ⟨suite, s, hsuite, hmem, hread, hkey, hpath, hsplit, hparts⟩

end QuerySuite
