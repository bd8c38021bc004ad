import Mathlib
import QuerySuite.Proofs.Acceptance
import QuerySuite.Proofs.Agreement
import QuerySuite.Proofs.LineScan
import QuerySuite.Proofs.Regions

/-!
# What is written behind a document

A document without errors stays as it is when more is written behind it, on a new line. Its tokens
are scanned as before, since a document does not end in an open query body; they are read as before,
since no rule looks past its own end but for a dot or a bracket behind a name; and what the turns
behind them read or skip is only added to the suite. So every error and every region is in what was
written.

Results:

* `Token.beforeEnd_append_line`: the tokens of a document with more behind it.
* `Suite.KeptIn.of_turn`: a turn of reading keeps what stands in the suite.
* `document_behind`: reading on behind a document without errors.
* `appended_text_keeps_suite`: a document without errors, with anything written behind it.
-/

namespace QuerySuite

/-! ## The tokens -/

namespace Token

/-- The tokens that the grammar sees of a text. -/
theorem beforeEnd_scanFrom (p : Position) (text : List Char) :
    beforeEnd (scanFrom p text) = significant (visible (scanFrom p text)) := by
  obtain ⟨ts, q, hscan, -, hkind⟩ := scanFrom_laid p text
  have hinside : ∀ t ∈ significant ts, (t.kind != .eof) = true := fun t ht =>
    bne_iff_ne.2 (hkind t (List.mem_of_mem_filter ht))
  have hvisible : significant (visible ts) = significant ts := by
    unfold significant visible
    rw [List.filter_filter]
    refine List.filter_congr fun t ht => ?_
    have hk := hkind t ht
    cases hkind : t.kind <;> simp_all [isTrivia, Kind.isTrivia]
  have hend : significant [endOfFile q] = [endOfFile q] := rfl
  have hnone : visible [endOfFile q] = [] := rfl
  rw [hscan, beforeEnd, significant_append, hend, List.takeWhile_append_of_pos hinside,
    visible_append, hnone, List.append_nil, hvisible]
  simp [endOfFile]

theorem beforeEnd_scanFrom_nil (p : Position) : beforeEnd (scanFrom p []) = [] := by
  rw [beforeEnd_scanFrom, scanFrom_nil]
  rfl

/-- A token that is no blank and no comment is seen first. -/
theorem beforeEnd_scanFrom_cons (p : Position) {c : Char} {rest : List Char}
    (h : (lexeme c rest).1.isTrivia = false) (heof : (lexeme c rest).1 ≠ .eof) :
    beforeEnd (scanFrom p (c :: rest)) =
      first p c rest :: beforeEnd (scanFrom (first p c rest).stop (afterFirst c rest)) := by
  have htrivia : (first p c rest).isTrivia = false := h
  have hkind : (first p c rest).kind ≠ .eof := heof
  have hspace : (first p c rest).kind ≠ .whitespace := by
    intro hk
    rw [isTrivia, hk] at htrivia
    cases htrivia
  have hvisible : significant (visible [first p c rest]) = [first p c rest] := by
    simp [significant, visible, hkind, hspace, htrivia]
  rw [beforeEnd_scanFrom, beforeEnd_scanFrom, scanFrom_cons, visible_cons, significant_append,
    hvisible]
  rfl

/-- A token whose text is known is seen first, and then what follows that text. -/
theorem beforeEnd_scanFrom_append (p : Position) {c : Char} {u more : List Char} {k : Kind}
    (h : lexeme c (u ++ more) = (k, u.length)) (htrivia : k.isTrivia = false) (heof : k ≠ .eof) :
    beforeEnd (scanFrom p (c :: (u ++ more))) =
      ⟨k, String.ofList (c :: u), p⟩ :: beforeEnd (scanFrom (p.advance (c :: u)) more) := by
  have hfirst : first p c (u ++ more) = ⟨k, String.ofList (c :: u), p⟩ := by
    rw [first, h]
    simp
  have hafter : afterFirst c (u ++ more) = more := by
    rw [afterFirst, h]
    simp
  have hstop : (⟨k, String.ofList (c :: u), p⟩ : Token).stop = p.advance (c :: u) := by
    rw [stop, String.toList_ofList]
  rw [beforeEnd_scanFrom_cons p (by rw [h]; exact htrivia) (by rw [h]; exact heof), hfirst, hafter,
    hstop]

theorem beforeEnd_scanFrom_space {c : Char} (hc : isSpace c = true) (p : Position)
    (rest : List Char) :
    beforeEnd (scanFrom p (c :: rest)) = beforeEnd (scanFrom (p.advance [c]) rest) := by
  rw [beforeEnd_scanFrom, beforeEnd_scanFrom, visible_scanFrom_space hc]

/-- An open query body is the last token that the grammar sees. -/
theorem getLast?_beforeEnd_of_unterminatedRaw {p : Position} {text : List Char} {t : Token}
    (ht : t ∈ visible (scanFrom p text)) (hk : t.kind = .unterminatedRaw) :
    (beforeEnd (scanFrom p text)).getLast? = some t := by
  obtain ⟨ts, q, hscan⟩ := eq_concat_of_unterminatedRaw (List.mem_of_mem_filter ht) hk
  have hlast : significant (visible [t, endOfFile q]) = [t] := by
    simp [significant, visible, endOfFile, hk, isTrivia, Kind.isTrivia]
  rw [beforeEnd_scanFrom, hscan, visible_append, significant_append, hlast, List.getLast?_concat]

/-- The tokens of a document that does not end in an open query body, with more behind it. -/
theorem beforeEnd_append_line (p : Position) (text more : List Char)
    (h : ∀ t ∈ (beforeEnd (scanFrom p text)).getLast?, t.kind ≠ .unterminatedRaw) :
    beforeEnd (scanFrom p (text ++ '\n' :: more)) =
      beforeEnd (scanFrom p text) ++
        beforeEnd (scanFrom (p.advance (text ++ ['\n'])) more) := by
  have hclosed : ∀ t ∈ visible (scanFrom p text), t.kind ≠ .unterminatedRaw := by
    intro t ht hk
    exact h t (getLast?_beforeEnd_of_unterminatedRaw ht hk) hk
  rw [beforeEnd_scanFrom, beforeEnd_scanFrom, beforeEnd_scanFrom,
    visible_append_line p text more hclosed, significant_append]

/-- The tokens that the grammar sees of a text stand behind the place where the text starts. -/
theorem atOrBefore_of_mem_beforeEnd {p : Position} {text : List Char} {t : Token}
    (h : t ∈ beforeEnd (scanFrom p text)) : p.AtOrBefore t.start := by
  obtain ⟨ts, q, hscan, hlaid, -⟩ := scanFrom_laid p text
  rw [beforeEnd_scanFrom, hscan] at h
  have hmem := List.mem_of_mem_filter (List.mem_of_mem_filter h)
  rcases List.mem_append.1 hmem with hmem | hmem
  · exact (hlaid.bounds hmem).1
  · rw [List.mem_singleton.1 hmem]
    exact hlaid.atOrBefore

end Token

/-! ## The last token of a document -/

namespace Grammar

variable {α : Type} {eof : Token}

/-- The last token, if there is one, is not an open query body. -/
def EndsClosed (ts : List Token) : Prop := ∀ t ∈ ts.getLast?, t.kind ≠ .unterminatedRaw

namespace EndsClosed

variable {ts us : List Token} {t : Token}

theorem nil : EndsClosed [] := by simp [EndsClosed]

theorem concat (ts : List Token) (h : t.kind ≠ .unterminatedRaw) : EndsClosed (ts ++ [t]) := by
  simpa [EndsClosed] using h

theorem append (hts : EndsClosed ts) (hus : EndsClosed us) : EndsClosed (ts ++ us) := by
  intro t ht
  rw [List.getLast?_append, Option.mem_def, Option.or_eq_some_iff] at ht
  rcases ht with ht | ⟨-, ht⟩
  · exact hus t ht
  · exact hts t ht

theorem cons (ht : t.kind ≠ .unterminatedRaw) (hts : EndsClosed ts) : EndsClosed (t :: ts) :=
  append (concat [] ht) hts

end EndsClosed

theorem IsSeries.endsClosed {separates : Token → Prop} {apart : List Token → Token → Prop}
    {P : List Token → α → Prop} {ts : List Token} {as : List α}
    (h : IsSeries separates apart P ts as) (hsep : ∀ t, separates t → t.kind ≠ .unterminatedRaw)
    (hP : ∀ ts a, P ts a → EndsClosed ts) : EndsClosed ts := by
  induction h with
  | nil => exact .nil
  | separator ht _ ih => exact .cons (hsep _ ht) ih
  | member h _ _ ih => exact .append (hP _ _ h) ih

theorem IsParams.endsClosed {ts : List Token} {params : List Param} (h : IsParams ts params) :
    EndsClosed ts := by
  cases h with
  | absent => exact .nil
  | list _ _ hc => exact .concat (_ :: _) (by simp [hc])

theorem IsCall.endsClosed {ts : List Token} {call : Call} (h : IsCall ts call) :
    EndsClosed ts := by
  cases h with
  | plain hn h => exact .cons (by simp [kind_eq_of_isName hn]) h.endsClosed
  | qualified hm hdot hn h =>
    refine .cons (by simp [kind_eq_of_isName hm]) (.cons (by simp [hdot]) ?_)
    exact .cons (by simp [kind_eq_of_isName hn]) h.endsClosed

theorem IsSetup.endsClosed {ts : List Token} {setup : Setup} (h : IsSetup ts setup) :
    EndsClosed ts := by
  cases h with
  | setup hw h =>
    refine .cons (by simp [kind_eq_of_isKeyword hw]) ?_
    cases h with
    | inline h => exact .concat [] (by simp [h])
    | moduleSetup h => exact .concat [] (by simp [kind_eq_of_isName h])
    | call h => exact h.endsClosed
    | block _ _ hc => exact .concat (_ :: _) (by simp [hc])

theorem IsTopMember.endsClosed {ts : List Token} {m : TopMember} (h : IsTopMember ts m) :
    EndsClosed ts := by
  cases h with
  | importClause h =>
    cases h with
    | plain _ hpath => exact .concat [_] (by simp [hpath])
    | named _ _ hpath => exact .concat [_, _] (by simp [hpath])
  | query h =>
    cases h with
    | query _ _ hbody => exact .concat [_, _] (by simp [hbody])
  | setup h => exact h.endsClosed
  | teardown h =>
    cases h with
    | teardown _ hbody => exact .concat [_] (by simp [hbody])
  | scope h =>
    cases h with
    | scope _ h =>
      cases h with
      | body _ _ hc => exact .concat (_ :: _ :: _) (by simp [hc])

/-- A document does not end in an open query body. -/
theorem IsSuite.endsClosed {ts : List Token} {suite : Suite} (h : IsSuite ts suite) :
    EndsClosed ts := by
  cases h with
  | suite h => exact h.endsClosed (fun _ hf => hf.elim) fun _ _ hm => hm.endsClosed

/-- A suite that is spelled as the grammar says records no region. -/
theorem IsSuite.regionsOf_eq_nil {ts : List Token} {suite : Suite} (h : IsSuite ts suite) :
    regionsOf suite.nodes = [] := by
  -- The suite is what is read with recovery of a document that has these tokens.
  let s : State (.endOfFile .start) := ⟨⟨ts.map (⟨·, [], false⟩), .start⟩, []⟩
  have htokens : s.rest.map (·.token) = ts := by simp [s, Function.comp_def]
  have hread : (document .recovery s).Yields suite ⟨⟨[], stopAfter s.stop s.rest⟩, s.met⟩ := by
    refine document_complete rfl s.takes_all ?_ (by simp [Cursor.Next]) (Nat.zero_le _)
      members_nil_yields
    rw [htokens]
    exact h
  obtain ⟨hsize, hread⟩ := hread
  have haccount := document_accounts s
  rw [hread] at haccount
  obtain ⟨⟨used, skips, hacc⟩, -⟩ := haccount
  exact (hacc.met_eq_nil_iff rfl).1 rfl

end Grammar

/-! ## What a suite keeps -/

/-- What stands in `s` stands in `s'`, where more may follow it: imports, queries and scopes begin
with those of `s`, and a setup or a teardown of `s` is that of `s'`. -/
structure Suite.KeptIn (s s' : Suite) : Prop where
  imports : s.imports <+: s'.imports
  queries : s.queries <+: s'.queries
  scopes : s.scopes <+: s'.scopes
  setup : ∀ x, s.setup = some x → s'.setup = some x
  teardown : ∀ x, s.teardown = some x → s'.teardown = some x

namespace Suite.KeptIn

open Grammar

variable {s s' s'' : Suite} {eof : Token}

theorem refl (s : Suite) : s.KeptIn s :=
  ⟨List.prefix_rfl, List.prefix_rfl, List.prefix_rfl, fun _ => id, fun _ => id⟩

theorem trans (h : s.KeptIn s') (h' : s'.KeptIn s'') : s.KeptIn s'' where
  imports := h.imports.trans h'.imports
  queries := h.queries.trans h'.queries
  scopes := h.scopes.trans h'.scopes
  setup x hx := h'.setup x (h.setup x hx)
  teardown x hx := h'.teardown x (h.teardown x hx)

/-- A member that fits is added to what stands there. -/
theorem of_fits {m : TopMember} (h : m.Fits s) : s.KeptIn (placeTopMember s (.parsed m)) := by
  have hs := refl s
  cases m with
  | importClause i => exact { hs with imports := List.prefix_append _ _ }
  | query q => exact { hs with queries := List.prefix_append _ _ }
  | scope c => exact { hs with scopes := List.prefix_append _ _ }
  | setup c =>
    have hnone : s.setup = none := h
    exact { hs with setup := by simp [hnone] }
  | teardown t =>
    have hnone : s.teardown = none := h
    exact { hs with teardown := by simp [hnone] }

theorem of_skip (s : Suite) (r : Region) : s.KeptIn (skipInSuite s r) := by
  rcases skipInSuite_cases s r with ⟨m, h, -, fits⟩ | h
  · rw [h]
    exact of_fits fits
  · rw [h]
    exact { refl s with }

/-- A turn of reading keeps what stands in the suite. -/
theorem of_turn {t u : State eof}
    (turn : Turn .topLevel placeTopMember (topMember .recovery) (s, t) (s', u)) : s.KeptIn s' := by
  cases turn with
  | separator => exact refl s
  | @parsed _ p rest stop met m _ ht inside begins read =>
    have h := @topMember_accounts eof s p rest stop met
    rw [read] at h
    exact of_fits h.2.1
  | skipped => exact of_skip s _

end Suite.KeptIn

namespace Grammar

variable {eof : Token}

/-! ## Reading on -/

/-- What is noted and recorded on the way is not before the tokens that were left. -/
theorem Account.atOrBefore {s t : State eof} {used : List Piece} {skips : List Skip}
    {regions : List Region} (h : Account s used skips regions t) (hs : s.met = []) {q : Position}
    (hq : ∀ x ∈ s.tokens, q.AtOrBefore x.start) :
    (∀ e ∈ t.met, q.AtOrBefore e.position) ∧ ∀ r ∈ regions, q.AtOrBefore r.start := by
  constructor
  · intro e he
    rcases h.raised he with he | ⟨x, hx, hraised⟩
    · rw [hs] at he
      cases he
    · rw [ParseError.position, hraised.span_eq]
      exact hq x hx
  · intro r hr
    rcases h.mem_regions hr with ⟨k, hk, rfl⟩ | rfl
    · obtain ⟨before, behind, hused, -⟩ := h.covers.exists_eq_append hk
      refine hq k.lead.token ?_
      rw [Cursor.tokens, h.reads.rest_eq, hused, Skip.pieces]
      simp
    · exact hq eof (by simp [Cursor.tokens])

/-- The tokens at the front are taken, and the others are left. -/
theorem State.exists_takes {s : State eof} {ts us : List Token}
    (h : s.rest.map (·.token) = ts ++ us) :
    ∃ u, s.Takes ts u ∧ u.rest.map (·.token) = us := by
  obtain ⟨used, left, hrest, hused, hleft⟩ := List.map_eq_append_iff.1 h
  exact ⟨⟨⟨left, stopAfter s.stop used⟩, s.met⟩, ⟨⟨used, ⟨hrest, rfl⟩, hused⟩, rfl⟩, hleft⟩

/-- Reading on behind a document without errors: what stands in its suite is kept, and nothing is
noted or recorded before the tokens that follow it. -/
theorem document_behind (heof : eof.kind = .eof) {s : State eof} (hmet : s.met = [])
    {ts us : List Token} {suite : Suite} (htokens : s.rest.map (·.token) = ts ++ us)
    (hsuite : IsSuite ts suite) (hnext : ∀ t ∈ us.head?, Phrase.EndsCall t) {q : Position}
    (hq : ∀ t ∈ us ++ [eof], q.AtOrBefore t.start) :
    (document .recovery s).Gives fun suite' v => suite.KeptIn suite' ∧
      (∀ e ∈ v.met, q.AtOrBefore e.position) ∧
      ∀ r ∈ regionsOf suite'.nodes, q.AtOrBefore r.start := by
  obtain ⟨u, hts, hleft⟩ := State.exists_takes htokens
  have hu : u.size ≤ s.size := by
    have hsize := hts.size_eq
    omega
  have hends : u.Next Phrase.EndsCall := by
    intro p hp
    refine hnext p.token ?_
    rw [← hleft, List.head?_map, Option.mem_def.1 hp]
    rfl
  have hkept := members_invariant (fun suite' (_ : State eof) => suite.KeptIn suite')
    (fun _ _ _ _ _ turn h => h.trans (.of_turn turn)) hu (.refl suite)
  have haccounts :=
    members_accounts (topMember_ruleAccounts s.size) regionsOf_skipInSuite suite u hu
  obtain ⟨suite', v, hv, hrun, ⟨hkept, -⟩, ⟨added, ⟨used, skips, hacc⟩, hperm⟩, -⟩ :=
    (hkept.and haccounts).exists_eq
  obtain ⟨hsize, hread⟩ := document_complete heof hts hsuite hends hu ⟨hv, hrun⟩
  rw [hsuite.regionsOf_eq_nil, List.nil_append] at hperm
  rw [← hleft] at hq
  obtain ⟨herrors, hregions⟩ := hacc.atOrBefore (hts.2.trans hmet) hq
  rw [hread]
  exact ⟨hkept, herrors, fun r hr => hregions r (hperm.subset hr)⟩

end Grammar

/-! ## Documents with more behind them -/

theorem ParseError.flattenAll_eq_self {errors : List ParseError}
    (h : ∀ e ∈ errors, e.flatten = [e]) : flattenAll errors = errors := by
  induction errors with
  | nil => rw [flattenAll]
  | cons e errors ih =>
    rw [flattenAll, h e List.mem_cons_self, ih fun e' he' => h e' (List.mem_cons_of_mem e he')]
    rfl

/-- The parts of several errors held as one are those errors. -/
theorem ParseError.flatten_of_ofList {errors : List ParseError} (h : ∀ e ∈ errors, e.flatten = [e])
    {e : ParseError} (he : ofList errors = some e) : e.flatten = errors := by
  match errors with
  | [] => cases he
  | [e₁] =>
    cases he
    exact h e List.mem_cons_self
  | e₁ :: e₂ :: more =>
    cases he
    rw [flatten]
    exact flattenAll_eq_self h

namespace Token

/-- The kinds of the significant tokens do not depend on where the text stands. -/
theorem map_kind_significant (p q : Position) (text : List Char) :
    (significant (scanFrom p text)).map (·.kind) =
      (significant (scanFrom q text)).map (·.kind) := by
  have hkinds (r : Position) : (significant (scanFrom r text)).map (·.kind) =
      (((scanFrom r text).map fun t => (t.kind, t.text)).map (·.1)).filter (!·.isTrivia) := by
    rw [List.map_map, List.filter_map]
    rfl
  rw [hkinds p, hkinds q, map_kind_scanFrom p q]

/-- What the first token of a text is can be told wherever the text stands. -/
theorem exists_kind_eq_of_head? {p : Position} {text : List Char} {t : Token}
    (h : t ∈ (beforeEnd (scanFrom p text)).head?) (q : Position) :
    ∃ u ∈ (significant (scanFrom q text)).head?, u.kind = t.kind := by
  rw [beforeEnd, List.head?_takeWhile, Option.mem_def, Option.filter_eq_some_iff] at h
  have hkinds := congrArg List.head? (map_kind_significant p q text)
  rw [List.head?_map, List.head?_map, h.1, Option.map_some] at hkinds
  exact Option.map_eq_some_iff.1 hkinds.symm

end Token

/-- Where a text starts that is written on a new line behind the document `a`. -/
def Position.newLineBehind (a : String) : Position := Position.start.advance (a ++ "\n").toList

/-- The tokens of the document come first, and behind them those of the text. -/
theorem Token.beforeEnd_scan_append (a b : String)
    (h : Grammar.EndsClosed (beforeEnd (scan a))) :
    beforeEnd (scan (a ++ "\n" ++ b)) =
      beforeEnd (scan a) ++ beforeEnd (scanFrom (.newLineBehind a) b.toList) := by
  have hline : (a ++ "\n").toList = a.toList ++ ['\n'] := String.toList_append
  have htext : (a ++ "\n" ++ b).toList = a.toList ++ '\n' :: b.toList := by
    rw [String.toList_append, hline, List.append_assoc]
    rfl
  rw [Position.newLineBehind, hline, scan, htext, beforeEnd_append_line _ _ _ h]
  rfl

namespace Grammar

/-- The end token of a document stands where its text ends. -/
theorem endToken_scan (source : String) :
    endToken (Token.scan source) = Token.endOfFile (Position.start.advance source.toList) := by
  have hlast := congrArg List.getLast? (Stream.tokens_ofSource source)
  rw [Stream.tokens, List.getLast?_concat, Token.scan, Token.getLast?_scanFrom] at hlast
  exact Option.some_inj.1 hlast

/-- The tokens of the text and the end token stand behind the place where the text starts. -/
theorem newLineBehind_atOrBefore {a b : String} {t : Token}
    (h : t ∈ Token.beforeEnd (Token.scanFrom (.newLineBehind a) b.toList) ++
      [endToken (Token.scan (a ++ "\n" ++ b))]) :
    (Position.newLineBehind a).AtOrBefore t.start := by
  rcases List.mem_append.1 h with ht | ht
  · exact Token.atOrBefore_of_mem_beforeEnd ht
  · rw [List.mem_singleton.1 ht, endToken_scan, String.toList_append, Position.advance_append]
    exact Position.atOrBefore_advance _ b.toList

/-- Reading a document without errors, with a text behind it. -/
theorem document_append {a b : String} {suite : Suite}
    (hsuite : IsSuite (Token.beforeEnd (Token.scan a)) suite)
    (hb : ∀ t ∈ (Token.significant (Token.scan b)).head?, Phrase.EndsCall t) :
    (document .recovery (initial (Token.scan (a ++ "\n" ++ b)))).Gives fun suite' v =>
      suite.KeptIn suite' ∧
      (∀ e ∈ v.met, (Position.newLineBehind a).AtOrBefore e.position) ∧
      ∀ r ∈ regionsOf suite'.nodes, (Position.newLineBehind a).AtOrBefore r.start := by
  have htokens := Token.beforeEnd_scan_append a b hsuite.endsClosed
  rw [← pieces_ofSource] at htokens
  have hnext : ∀ t ∈ (Token.beforeEnd (Token.scanFrom (.newLineBehind a) b.toList)).head?,
      Phrase.EndsCall t := by
    intro t ht
    obtain ⟨u, hu, hk⟩ := Token.exists_kind_eq_of_head? ht .start
    rw [Phrase.EndsCall, ← hk]
    exact hb u hu
  have heof : (endToken (Token.scan (a ++ "\n" ++ b))).kind = .eof := Stream.split_eof none _
  exact document_behind heof rfl htokens hsuite hnext fun t ht => newLineBehind_atOrBefore ht

end Grammar

/-- A document without errors, with a text behind it that starts on a new line and not with a dot or
a bracket. Whatever else the text is, reading with recovery gives a suite that keeps all that stands
in the document, and every error and every region is in the text. -/
theorem appended_text_keeps_suite {a : String} {suite : Suite}
    (ha : (parse .strict a).suite = some suite) (b : String)
    (hb : ∀ t ∈ (Token.significant (Token.scan b)).head?, t.kind ≠ .dot ∧ t.kind ≠ .lparen) :
    ∃ suite', (parse .recovery (a ++ "\n" ++ b)).suite = some suite' ∧ suite.KeptIn suite' ∧
      (∀ e, (parse .recovery (a ++ "\n" ++ b)).error = some e → ∀ e' ∈ e.flatten,
        (Position.newLineBehind a).AtOrBefore e'.position) ∧
      ∀ node ∈ suite'.nodes, ∀ r ∈ node.info.recovery.regions,
        (Position.newLineBehind a).AtOrBefore r.start := by
  obtain ⟨body, hbody, rfl⟩ := (Grammar.parse_strict_suite_iff a suite).1 ha
  obtain ⟨suite', v, hrun, hkept, herrors, hregions⟩ :=
    Grammar.parse_of_gives (Grammar.document_append hbody hb)
  have hparse : parse .recovery (a ++ "\n" ++ b) =
      ⟨some (Grammar.complete (Token.scan (a ++ "\n" ++ b)) suite'), ParseError.ofList v.met,
        Trivia.collect (Token.scan (a ++ "\n" ++ b))⟩ := by
    unfold parse
    dsimp only
    rw [hrun]
  rw [hparse]
  refine ⟨_, rfl, { hkept with }, ?_, ?_⟩
  · intro e he e' he'
    rw [ParseError.flatten_of_ofList (Grammar.parse_recovery_flatten hrun) he] at he'
    exact herrors e' he'
  · intro node hnode r hr
    have hmem : r ∈ regionsOf (Grammar.complete (Token.scan (a ++ "\n" ++ b)) suite').nodes :=
      List.mem_flatMap.2 ⟨node, hnode, hr⟩
    exact hregions r hmem

/-- A second setup and a scope that is not closed, written behind a setup that ends in a name. -/
theorem appended_text_keeps_suite_duplicate : ∃ suite suite',
    (parse .strict "setup m").suite = some suite ∧
    suite.setup.map (·.body) = some (some (.moduleSetup "m")) ∧
    (Token.significant (Token.scan "setup n\nq\x7b")).head?.map (·.kind) = some .keyword ∧
    (parse .recovery "setup m\nsetup n\nq\x7b").error.map (·.flatten.map (·.position)) =
      some [⟨2, 1, 8⟩, ⟨3, 3, 18⟩] ∧
    (parse .recovery "setup m\nsetup n\nq\x7b").suite = some suite' ∧ suite.KeptIn suite' ∧
    ∀ node ∈ suite'.nodes, ∀ r ∈ node.info.recovery.regions,
      (⟨2, 1, 8⟩ : Position).AtOrBefore r.start := by
  have hstrict : (parse .strict "setup m").suite.map (·.setup.map (·.body)) =
      some (some (some (.moduleSetup "m"))) := by cbv
  have hfirst : (Token.significant (Token.scan "setup n\nq\x7b")).head?.map (·.kind) =
      some .keyword := by cbv
  have herrors : (parse .recovery "setup m\nsetup n\nq\x7b").error.map
      (·.flatten.map (·.position)) = some [⟨2, 1, 8⟩, ⟨3, 3, 18⟩] := by cbv
  obtain ⟨suite, hsuite, hsetup⟩ := Option.map_eq_some_iff.1 hstrict
  have hb : ∀ t ∈ (Token.significant (Token.scan "setup n\nq\x7b")).head?,
      t.kind ≠ .dot ∧ t.kind ≠ .lparen := by
    intro t ht
    rw [Option.mem_def.1 ht, Option.map_some, Option.some_inj] at hfirst
    simp [hfirst]
  obtain ⟨suite', hparse, hkept, -, hregions⟩ :=
    appended_text_keeps_suite hsuite "setup n\nq\x7b" hb
  exact ⟨suite, suite', hsuite, hsetup, hfirst, herrors, hparse, hkept, hregions⟩

end QuerySuite
