import Mathlib
import QuerySuite.Parse
import QuerySuite.Proofs.Appended
import QuerySuite.Proofs.ClauseShapes
import QuerySuite.Proofs.Lines

/-!
# Layout

Of the layout of a document, only which tokens begin a line matters to its parse. Two documents
whose tokens agree in that, in kind and in text give suites that differ in places, comments and
trivia alone, and errors that differ in places alone, whichever way they are read.

Results:

* `Grammar.alike_ofSource`: such documents look the same to the grammar.
* `parse_ignores_layout`: their parses are the same.
-/

namespace QuerySuite

/-- What layout may not change of tokens that follow `before`: the kind and the text of each, and
whether it is the first of its line. -/
def Token.lineMarks (before : Option Token) : List Token → List (Token.Kind × String × Bool)
  | [] => []
  | t :: ts => (t.kind, t.text, Grammar.Stream.startsLine before t) :: lineMarks (some t) ts

namespace Grammar

/-! ## The pieces of a source -/

/-- The piece that a token leaves when its layout is forgotten. -/
def Piece.ofMark (mark : Token.Kind × String × Bool) : Piece :=
  ⟨⟨mark.1, mark.2.1, .zero⟩, [], mark.2.2⟩

namespace Stream

theorem map_unplaced_split (before : Option Token) (ts : List Token) :
    (split before ts).pieces.map (·.unplaced) =
      (Token.lineMarks before ((split before ts).pieces.map (·.token))).map Piece.ofMark := by
  induction ts generalizing before with
  | nil => rfl
  | cons t ts ih =>
    rw [split]
    split_ifs
    · rfl
    · exact ih before
    · simp only [List.map_cons, Token.lineMarks]
      rw [ih (some t)]
      rfl

/-- The pieces of tokens that are laid one after another follow each other. -/
theorem isChain_split {ts : List Token} {e : Token} (he : e.kind = .eof) {p q : Position}
    (hlaid : Token.Laid p ts q) (hts : ∀ t ∈ ts, t.kind ≠ .eof) (before : Option Token) :
    (split before (ts ++ [e])).pieces.IsChain Piece.Follows ∧
      ∀ x ∈ (split before (ts ++ [e])).pieces.head?, p.AtOrBefore x.token.start ∧
        x.opensLine = startsLine before x.token := by
  induction hlaid generalizing before with
  | nil p => simp [split, he]
  | @cons t ts q text hlaid ih =>
    have hforward : t.start.AtOrBefore t.stop := .of_isBefore (Position.isBefore_advance _ text)
    have ih := ih fun u hu => hts u (List.mem_cons_of_mem t hu)
    rw [List.cons_append, split, if_neg (hts t List.mem_cons_self)]
    split_ifs
    · obtain ⟨hchain, hhead⟩ := ih before
      exact ⟨hchain, fun x hx => ⟨hforward.trans (hhead x hx).1, (hhead x hx).2⟩⟩
    · obtain ⟨hchain, hhead⟩ := ih (some t)
      refine ⟨List.isChain_cons.2 ⟨fun x hx => ?_, hchain⟩, ?_⟩
      · obtain ⟨hle, hopens⟩ := hhead x hx
        refine ⟨?_, hopens⟩
        unfold Position.AtOrBefore at hle
        dsimp only
        omega
      · rintro x ⟨⟩
        exact ⟨.refl _, rfl⟩

theorem isChain_ofSource (source : String) : (ofSource source).pieces.IsChain Piece.Follows := by
  obtain ⟨ts, q, hscan, hlaid, hts⟩ := Token.scanFrom_laid .start source.toList
  rw [ofSource, withEnd_scan, Token.scan, hscan]
  exact (isChain_split rfl hlaid hts none).1

/-- A piece of a source is the piece of one of its tokens. -/
theorem token_mem_scan {source : String} {p : Piece} (hp : p ∈ (ofSource source).pieces) :
    p.token ∈ (ofSource source).lead ++ (ofSource source).pieces.flatMap Piece.tokens :=
  List.mem_append_right _ (List.mem_flatMap.2 ⟨p, hp, List.mem_cons_self⟩)

theorem placed_ofSource {source : String} {p : Piece} (hp : p ∈ (ofSource source).pieces) :
    p.Placed (ofSource source).eof := by
  have hwf := split_wellFormed none _ p hp
  have hmem := token_mem_scan hp
  have hbefore := (laid_ofSource source).start_isBefore hmem
  refine ⟨hwf, ?_, .of_isBefore hbefore, ?_⟩
  · intro hspan
    have hstart : p.token.start = (ofSource source).eof.start := congrArg Span.start hspan
    rw [hstart, Position.isBefore_iff] at hbefore
    omega
  · intro hexpr
    have hscan : p.token ∈ Token.scan source := by
      rw [← tokens_ofSource]
      exact List.mem_append_left _ hmem
    have hkind : p.token.kind.spansLines = false ∧ p.token.kind ≠ .error := by
      unfold Token.exprToken? at hexpr
      generalize p.token.kind = kind at hexpr ⊢
      cases kind <;> simp_all [Token.Kind.spansLines]
    exact Token.stop_line_eq hscan hkind.1 hkind.2 hwf.inside

/-- The grammar sees the significant tokens of a source. -/
theorem significant_scan (source : String) : Token.significant (Token.scan source) =
    (ofSource source).pieces.map (·.token) ++ [(ofSource source).eof] := by
  have hlead : Token.significant (ofSource source).lead = [] :=
    Token.significant_eq_nil (split_lead none _)
  have hpieces : Token.significant ((ofSource source).pieces.flatMap Piece.tokens) =
      (ofSource source).pieces.map (·.token) := significant_pieces (split_wellFormed none _)
  have heof : Token.significant [(ofSource source).eof] = [(ofSource source).eof] :=
    Token.significant_cons_of_not_isTrivia (Token.not_isTrivia_of_eof (split_eof none _)) []
  rw [← tokens_ofSource, tokens, Token.significant_append, Token.significant_append, hlead,
    hpieces, heof, List.nil_append]

end Stream

/-! ## Documents of the same shape -/

theorem Alike.of_isChain {eof eof' : Token} (ends : eof.unplaced = eof'.unplaced)
    {pieces pieces' : List Piece} (h : pieces.map (·.unplaced) = pieces'.map (·.unplaced))
    (hplaced : ∀ p ∈ pieces, p.Placed eof) (hplaced' : ∀ p ∈ pieces', p.Placed eof')
    (hchain : pieces.IsChain Piece.Follows) (hchain' : pieces'.IsChain Piece.Follows) :
    Alike eof eof' pieces pieces' := by
  induction pieces generalizing pieces' with
  | nil =>
    rw [List.map_eq_nil_iff.1 h.symm]
    exact .nil ends
  | cons p pieces ih =>
    obtain ⟨p', rest', rfl, hp, hrest⟩ := List.map_eq_cons_iff.1 h.symm
    obtain ⟨hfollows, hchain⟩ := List.isChain_cons.1 hchain
    obtain ⟨hfollows', hchain'⟩ := List.isChain_cons.1 hchain'
    obtain ⟨hfirst, hplaced⟩ := List.forall_mem_cons.1 hplaced
    obtain ⟨hfirst', hplaced'⟩ := List.forall_mem_cons.1 hplaced'
    exact .cons hp.symm hfirst hfirst' hfollows hfollows'
      (ih hrest.symm hplaced hplaced' hchain hchain')

/-- Documents whose tokens agree in kind, in text and in whether they begin a line look the same to
the grammar. -/
theorem alike_ofSource {a b : String}
    (h : Token.lineMarks none (Token.beforeEnd (Token.scan a)) =
      Token.lineMarks none (Token.beforeEnd (Token.scan b))) :
    Alike (Stream.ofSource a).eof (Stream.ofSource b).eof (Stream.ofSource a).pieces
      (Stream.ofSource b).pieces := by
  refine .of_isChain ?_ ?_ (fun _ => Stream.placed_ofSource) (fun _ => Stream.placed_ofSource)
    (Stream.isChain_ofSource a) (Stream.isChain_ofSource b)
  · have ha := endToken_scan a
    have hb := endToken_scan b
    unfold endToken at ha hb
    rw [ha, hb]
    rfl
  · rw [← pieces_ofSource, ← pieces_ofSource] at h
    have ha := Stream.map_unplaced_split none (withEnd (Token.scan a))
    have hb := Stream.map_unplaced_split none (withEnd (Token.scan b))
    exact ha.trans ((congrArg (List.map Piece.ofMark) h).trans hb.symm)

/-- The suites of two documents that look the same say the same. -/
theorem says_complete {a b : String} {suite suite' : Suite}
    (hsuite : Says Suite.relabel suite suite')
    (h : Alike (Stream.ofSource a).eof (Stream.ofSource b).eof (Stream.ofSource a).pieces
      (Stream.ofSource b).pieces) :
    Says Suite.relabel (complete (Token.scan a) suite) (complete (Token.scan b) suite') := by
  obtain ⟨hinfo, himports, hqueries, hsetup, hteardown, hscopes, -⟩ := Suite.says_iff.1 hsuite
  have htokens : (Token.significant (withEnd (Token.scan a))).map (·.unplaced) =
      (Token.significant (withEnd (Token.scan b))).map (·.unplaced) := by
    rw [withEnd_scan, withEnd_scan, Stream.significant_scan, Stream.significant_scan,
      List.map_append, List.map_append, h.map_token, List.map_singleton, List.map_singleton, h.ends]
  exact Suite.says_iff.2 ⟨⟨hinfo.bare, hinfo.recovery⟩, himports, hqueries, hsetup, hteardown,
    hscopes, htokens⟩

end Grammar

/-! ## Errors -/

theorem ParseError.unplacedAll_eq (errors : List ParseError) :
    unplacedAll errors = errors.map unplaced := by
  induction errors with
  | nil => rw [unplacedAll, List.map_nil]
  | cons e errors ih => rw [unplacedAll, List.map_cons, ih]

theorem ParseError.map_unplaced_ofList (errors : List ParseError) :
    (ofList errors).map unplaced = ofList (errors.map unplaced) := by
  match errors with
  | [] => rfl
  | [e] => rfl
  | e :: e' :: more =>
    simp only [ofList, Option.map_some, unplaced, unplacedAll_eq, List.map_cons]

/-! ## Parses -/

/-- The parses of two documents that look the same say the same; in the first suite no node has a
comment. -/
theorem parse_alike (mode : Grammar.Mode) {a b : String}
    (h : Token.lineMarks none (Token.beforeEnd (Token.scan a)) =
      Token.lineMarks none (Token.beforeEnd (Token.scan b))) :
    (parse mode a).suite.map (·.relabel .unplaced) = (parse mode b).suite.map (·.relabel .shape) ∧
      (parse mode a).error.map ParseError.unplaced =
        (parse mode b).error.map ParseError.unplaced := by
  have halike := Grammar.alike_ofSource h
  have hstart : (Grammar.initial (Token.scan a)).Alike (Grammar.initial (Token.scan b)) :=
    ⟨halike, .nil⟩
  have hdocument := Grammar.document_alike mode hstart
  unfold parse
  dsimp only
  rw [Grammar.parse_eq, Grammar.parse_eq]
  generalize Grammar.document mode (Grammar.initial (Token.scan a)) = x at hdocument
  generalize Grammar.document mode (Grammar.initial (Token.scan b)) = y at hdocument
  cases x with
  | ok suite s hs =>
    cases y with
    | fail e met => exact hdocument.elim
    | ok suite' s' hs' =>
      obtain ⟨hsuite, hstate⟩ := hdocument
      refine ⟨congrArg some (Grammar.says_complete hsuite halike), ?_⟩
      dsimp only
      rw [ParseError.map_unplaced_ofList, ParseError.map_unplaced_ofList]
      exact congrArg ParseError.ofList
        (Grammar.map_eq_of_forall₂ (hstate.met.imp fun _ _ he => he.same))
  | fail e met =>
    cases y with
    | ok suite' s' hs' => exact hdocument.elim
    | fail e' met' => exact ⟨rfl, congrArg some hdocument.1.same⟩

/-- Parsing ignores layout except for which tokens begin a line. Where the significant tokens of two
documents agree in kind, in text and in that, both are parsed or none is; the suites are the same up
to places, comments and trivia, and the errors are the same up to places. -/
theorem parse_ignores_layout (mode : Grammar.Mode) {a b : String}
    (h : Token.lineMarks none (Token.beforeEnd (Token.scan a)) =
      Token.lineMarks none (Token.beforeEnd (Token.scan b))) :
    (parse mode a).suite.isSome = (parse mode b).suite.isSome ∧
      (parse mode a).suite.map Suite.shape = (parse mode b).suite.map Suite.shape ∧
      (parse mode a).error.map ParseError.unplaced =
        (parse mode b).error.map ParseError.unplaced := by
  have hab := parse_alike mode h
  have hshape : (parse mode a).suite.map Suite.shape = (parse mode b).suite.map Suite.shape :=
    (parse_alike mode
      (rfl : Token.lineMarks none (Token.beforeEnd (Token.scan a)) = _)).1.symm.trans hab.1
  refine ⟨?_, hshape, hab.2⟩
  rw [← Option.isSome_map (f := Suite.shape), hshape, Option.isSome_map]

/-- Blank lines, indentation and comments change nothing of how a second setup is skipped. -/
theorem parse_ignores_layout_comments :
    Token.lineMarks none (Token.beforeEnd (Token.scan "setup m\nsetup n")) =
        Token.lineMarks none (Token.beforeEnd (Token.scan "// c\nsetup  m\n\n setup n//")) ∧
      (parse .recovery "setup m\nsetup n").suite.map Suite.shape =
        (parse .recovery "// c\nsetup  m\n\n setup n//").suite.map Suite.shape ∧
      (parse .recovery "setup m\nsetup n").error.map ParseError.unplaced =
        (parse .recovery "// c\nsetup  m\n\n setup n//").error.map ParseError.unplaced := by
  have hmarks : Token.lineMarks none (Token.beforeEnd (Token.scan "setup m\nsetup n")) =
      Token.lineMarks none (Token.beforeEnd (Token.scan "// c\nsetup  m\n\n setup n//")) := by
    cbv
  exact ⟨hmarks, (parse_ignores_layout .recovery hmarks).2⟩

end QuerySuite
