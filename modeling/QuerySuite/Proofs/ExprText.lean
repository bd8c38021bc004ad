import Mathlib
import QuerySuite.Parse
import QuerySuite.Proofs.Appended
import QuerySuite.Proofs.ExprTokens
import QuerySuite.Proofs.Gathering

/-!
# The text of an expression, scanned again

The text of an expression puts a blank between two tokens or nothing. It is scanned as the tokens of
the expression again, unless one of three things is written in it: a line break inside a string, a
negation with an operator behind it that begins with an equals sign, and a whole number with a dot
and a number behind it. All three can stand in a document, the first as an escape and the others
with blanks or brackets that are not kept.

Results:

* `ExprToken.scans_of_isApart`, `ExprToken.garbled_of_not_isApart`: a token with the text behind it.
* `ExprToken.reread_textFrom_iff`: a run of tokens.
* `Expr.readsBack_iff_isLegible`: the expressions of a document.
* `Expr.string_scans_back_iff`: a string that stands alone.
-/

namespace QuerySuite

/-! ## Scanning a text for an expression -/

namespace Token

/-- The tokens before the end are all but blanks, comments and the end itself. -/
theorem mem_beforeEnd_scan_iff {source : String} {t : Token} :
    t ∈ beforeEnd (scan source) ↔ t ∈ scan source ∧ t.isTrivia = false ∧ t.kind ≠ .eof := by
  constructor
  · intro ht
    obtain ⟨hscan, htrivia⟩ := List.mem_filter.1 ((List.takeWhile_sublist _).subset ht)
    exact ⟨hscan, by simpa using htrivia, by simpa using List.mem_takeWhile_imp ht⟩
  · rintro ⟨hscan, htrivia, heof⟩
    have hspace : t.kind ≠ .whitespace := by
      intro hk
      rw [isTrivia, hk] at htrivia
      cases htrivia
    rw [scan, beforeEnd_scanFrom]
    refine List.mem_filter.2 ⟨List.mem_filter.2 ⟨hscan, ?_⟩, by simp [htrivia]⟩
    simp [hspace, heof]

/-- What the tokens of a text stand for in an expression, blanks and comments left out. -/
def reread (p : Position) (text : List Char) : List (Option ExprToken) :=
  (beforeEnd (scanFrom p text)).map exprToken?

theorem reread_nil (p : Position) : reread p [] = [] := by
  rw [reread, beforeEnd_scanFrom_nil, List.map_nil]

theorem reread_cons (p : Position) {c : Char} {rest : List Char}
    (h : (lexeme c rest).1.isTrivia = false) (heof : (lexeme c rest).1 ≠ .eof) :
    reread p (c :: rest) =
      (first p c rest).exprToken? :: reread (first p c rest).stop (afterFirst c rest) := by
  rw [reread, reread, beforeEnd_scanFrom_cons p h heof, List.map_cons]

/-- A blank before a token changes nothing. -/
theorem exists_reread_blank (p : Position) {c : Char} (hc : isSpace c = false) (rest : List Char) :
    ∃ q, reread p (' ' :: c :: rest) = reread q (c :: rest) := by
  have hlexeme : lexeme ' ' (c :: rest) = (.whitespace, 0) := by
    have hrun : runLength isSpace (c :: rest) = 0 := by simp [runLength, hc]
    rw [← hrun]
    rfl
  refine ⟨(first p ' ' (c :: rest)).stop, ?_⟩
  have hvisible : visible [first p ' ' (c :: rest)] = [] := by
    simp [visible, first, hlexeme]
  rw [reread, reread, beforeEnd_scanFrom, beforeEnd_scanFrom, scanFrom_cons, visible_cons, hvisible,
    List.nil_append, afterFirst, hlexeme]
  rfl

end Token

namespace ExprToken

variable {t : ExprToken} {rest : List ExprToken} {more : List Char}

theorem not_isTrivia_of_exprToken? {u : Token} (h : u.exprToken? = some t) :
    u.kind.isTrivia = false ∧ u.kind ≠ .eof := by
  constructor
  · by_contra htrivia
    rw [Bool.not_eq_false, Token.Kind.isTrivia_iff] at htrivia
    rcases htrivia with hk | hk <;> simp [Token.exprToken?, hk] at h
  · intro hk
    simp [Token.exprToken?, hk] at h

theorem Scans.exists_reread (h : t.Scans more) (p : Position) :
    ∃ q, Token.reread p (t.render ++ more) = some t :: Token.reread q more := by
  obtain ⟨c, u, k, hrender, hlexeme, htoken⟩ := h
  obtain ⟨htrivia, heof⟩ := not_isTrivia_of_exprToken? (htoken p)
  refine ⟨p.advance (c :: u), ?_⟩
  rw [hrender, List.cons_append, Token.reread, Token.reread,
    Token.beforeEnd_scanFrom_append p hlexeme htrivia heof, List.map_cons, htoken]

/-- With `more` behind it, the token that is written out is scanned as something else. -/
def Garbled (t : ExprToken) (more : List Char) : Prop :=
  ∃ c rest, t.render ++ more = c :: rest ∧ (Token.lexeme c rest).1.isTrivia = false ∧
    (Token.lexeme c rest).1 ≠ .eof ∧ ∀ p, (Token.first p c rest).exprToken? ≠ some t

theorem Garbled.reread_ne (h : t.Garbled more) (p : Position) (ts : List (Option ExprToken)) :
    Token.reread p (t.render ++ more) ≠ some t :: ts := by
  obtain ⟨c, rest, htext, htrivia, heof, hne⟩ := h
  rw [htext, Token.reread_cons p htrivia heof]
  intro heq
  exact hne p (List.cons.inj heq).1

/-! ## What can be told apart -/

/-- An operator that begins with an equals sign comes first. -/
def beginsWithEquals : List ExprToken → Bool
  | operator text :: _ => text.toList.head? == some '='
  | _ => false

/-- A dot and a number that begins with a digit come first. -/
def beginsWithFraction : List ExprToken → Bool
  | dot :: number text :: _ => text.toList.head?.any Char.isDigit
  | _ => false

/-- What is written for the token can be told from what is written for the tokens behind it. -/
def isApart (rest : List ExprToken) : ExprToken → Bool
  | string text => !text.toList.contains '\n'
  | number text => text.toList.contains '.' || !beginsWithFraction rest
  | operator text => text != "!" || !beginsWithEquals rest
  | _ => true

/-- Each token can be told from those behind it. -/
def isLegible : List ExprToken → Bool
  | [] => true
  | t :: rest => t.isApart rest && isLegible rest

/-- What is written for a token begins with no blank. An equals sign comes first only in an
operator, and a digit only in a number. -/
theorem Written.exists_cons (h : t.Written) :
    ∃ c u, t.render = c :: u ∧ Token.isSpace c = false ∧
      (c = '=' → ∃ text, t = .operator text) ∧ (c.isDigit = true → ∃ text, t = .number text) := by
  cases h with
  | string text => exact ⟨'"', _, rfl, rfl, nofun, nofun⟩
  | @number text h =>
    obtain ⟨sign, digits, fraction, hsign, ⟨hne, hdigits⟩, -, htext⟩ :=
      Token.mem_numberPattern_iff.1 h
    obtain ⟨d, more, rfl⟩ := List.exists_cons_of_ne_nil hne
    have hd : d.isDigit = true := hdigits d List.mem_cons_self
    rcases hsign with rfl | rfl
    · refine ⟨d, _, htext, (Token.not_letter_of_isDigit hd).1, ?_, fun _ => ⟨text, rfl⟩⟩
      rintro rfl
      cases hd
    · exact ⟨'-', _, htext, rfl, nofun, nofun⟩
  | @name c u hc hu hword =>
    refine ⟨c, u, String.toList_ofList, Token.isSpace_of_isNameStart hc, ?_, ?_⟩
    · rintro rfl
      cases hc
    · intro hd
      rw [(Token.not_letter_of_isDigit hd).2.1] at hc
      cases hc
  | @parameter u hu => exact ⟨'$', u, String.toList_ofList, rfl, nofun, nofun⟩
  | @operator text h =>
    have hsymbols : ∀ s ∈ Token.symbols, s.2.toList ≠ [] ∧
        s.2.toList.head?.any (fun c => Token.isSpace c || c.isDigit) = false := by decide +kernel
    obtain ⟨hne, hhead⟩ := hsymbols _ h
    obtain ⟨c, u, htext⟩ := List.exists_cons_of_ne_nil hne
    rw [htext] at hhead
    obtain ⟨hspace, hdigit⟩ := Bool.or_eq_false_iff.1 hhead
    refine ⟨c, u, htext, hspace, fun _ => ⟨text, rfl⟩, fun hd => ?_⟩
    rw [hdigit] at hd
    cases hd
  | dot => exact ⟨'.', [], rfl, rfl, nofun, nofun⟩
  | colon => exact ⟨':', [], rfl, rfl, nofun, nofun⟩
  | comma => exact ⟨',', [], rfl, rfl, nofun, nofun⟩
  | @bracket c h => fin_cases h <;> exact ⟨_, [], rfl, rfl, nofun, nofun⟩

/-- Only single characters are drawn to the token before them. -/
theorem exists_render_of_joined (h : t.closes = true ∨ t.applies = true) :
    ∃ c, t.render = [c] ∧ c ∈ ['.', ',', ':', '(', ')', '[', ']'] ∧ (c = '.' → t = dot) := by
  cases t with
  | dot => exact ⟨'.', rfl, by decide, fun _ => rfl⟩
  | colon => exact ⟨':', rfl, by decide, nofun⟩
  | comma => exact ⟨',', rfl, by decide, nofun⟩
  | bracket c =>
    refine ⟨c, rfl, ?_⟩
    simp only [closes, applies, Bool.or_eq_true, beq_iff_eq] at h
    rcases h with (rfl | rfl) | (rfl | rfl) <;> exact ⟨by decide, nofun⟩
  | _ => simp [closes, applies] at h

/-- What stands behind a token that does not draw the next one to it: a blank and the next token, or
a single character that is drawn to it. -/
theorem textFrom_cons_of_not_opens (h : t.opens = false) (u : ExprToken) (rest : List ExprToken) :
    Expr.textFrom t (u :: rest) = ' ' :: (u.render ++ Expr.textFrom u rest) ∨
      ∃ c ∈ ['.', ',', ':', '(', ')', '[', ']'], (c = '.' → u = dot) ∧
        Expr.textFrom t (u :: rest) = c :: Expr.textFrom u rest := by
  rw [Expr.textFrom_cons, separator, h, Bool.false_or]
  split_ifs with hjoined
  · have hu : u.closes = true ∨ u.applies = true := by
      rw [Bool.or_eq_true, Bool.and_eq_true] at hjoined
      exact hjoined.imp_right And.right
    obtain ⟨c, hrender, hc, hdot⟩ := exists_render_of_joined hu
    exact .inr ⟨c, hc, hdot, by rw [hrender]; rfl⟩
  · exact .inl rfl

/-- What stands behind a token that draws the next one to it. -/
theorem textFrom_cons_of_opens (h : t.opens = true) (u : ExprToken) (rest : List ExprToken) :
    Expr.textFrom t (u :: rest) = u.render ++ Expr.textFrom u rest := by
  rw [Expr.textFrom_cons, separator, h, Bool.true_or, Bool.true_or, if_pos rfl, List.nil_append]

/-- Behind a token that does not draw the next one to it stands nothing that could belong to it. -/
theorem quiet_textFrom (h : t.opens = false) (rest : List ExprToken) :
    Quiet (Expr.textFrom t rest) := by
  cases rest with
  | nil => exact nofun
  | cons u rest =>
    intro c hc
    rcases textFrom_cons_of_not_opens h u rest with htext | ⟨d, hd, -, htext⟩
    · rw [htext] at hc
      obtain rfl : ' ' = c := Option.some.inj hc
      exact List.mem_cons_self
    · rw [htext] at hc
      obtain rfl : d = c := Option.some.inj hc
      exact List.mem_cons_of_mem ' ' hd

/-- A negation runs into the equals sign of an operator behind it, and into nothing else. -/
theorem head?_textFrom_negation (hrest : ∀ u ∈ rest, u.Written) :
    (Expr.textFrom (operator "!") rest).head? = some '=' ↔ beginsWithEquals rest = true := by
  cases rest with
  | nil => simp [Expr.textFrom, beginsWithEquals]
  | cons u rest =>
    obtain ⟨c, v, hrender, -, hequals, -⟩ := (hrest u List.mem_cons_self).exists_cons
    rw [textFrom_cons_of_opens rfl, hrender, List.cons_append, List.head?_cons, Option.some_inj]
    constructor
    · rintro rfl
      obtain ⟨text, rfl⟩ := hequals rfl
      have htext : text.toList = '=' :: v := hrender
      simp [beginsWithEquals, htext]
    · intro h
      cases u with
      | operator text =>
        have htext : text.toList = c :: v := hrender
        simpa [beginsWithEquals, htext] using h
      | _ => cases h

/-- A number runs into a dot and a number behind it, and into nothing else. -/
theorem fractional_textFrom_number (text : String) (hrest : ∀ u ∈ rest, u.Written) :
    Fractional (Expr.textFrom (number text) rest) ↔ beginsWithFraction rest = true := by
  constructor
  · rintro ⟨d, more, htext, hd⟩
    rcases rest with _ | ⟨u, rest⟩
    · cases htext
    · rcases textFrom_cons_of_not_opens (t := number text) rfl u rest with hu | ⟨c, -, hdot, hu⟩
      · rw [htext] at hu
        cases hu
      · rw [htext] at hu
        obtain ⟨rfl, hbehind⟩ := List.cons.inj hu
        obtain rfl := hdot rfl
        rcases rest with _ | ⟨v, rest⟩
        · cases hbehind
        · have hv : v.Written := hrest v (List.mem_cons_of_mem _ List.mem_cons_self)
          obtain ⟨c, w, hrender, -, -, hdigit⟩ := hv.exists_cons
          rw [textFrom_cons_of_opens rfl, hrender] at hbehind
          obtain ⟨rfl, -⟩ := List.cons.inj hbehind
          obtain ⟨digits, rfl⟩ := hdigit hd
          have hdigits : digits.toList = d :: w := hrender
          simpa [beginsWithFraction, hdigits] using hd
  · intro h
    unfold beginsWithFraction at h
    split at h
    · next digits rest =>
      obtain ⟨d, hhead, hd⟩ := (Option.any_eq_true _ _).1 h
      obtain ⟨w, hdigits⟩ := List.head?_eq_some_iff.1 hhead
      refine ⟨d, w ++ Expr.textFrom (number digits) rest, ?_, hd⟩
      have hrender : (number digits).render = d :: w := hdigits
      rw [Expr.textFrom_cons, textFrom_cons_of_opens rfl, hrender]
      rfl
    · cases h

theorem scans_of_isApart (ht : t.Written) (hrest : ∀ u ∈ rest, u.Written)
    (h : t.isApart rest = true) : t.Scans (Expr.textFrom t rest) := by
  cases ht with
  | string text => exact scans_string (by simpa [isApart] using h) _
  | @number text hnumber =>
    refine scans_number hnumber (quiet_textFrom rfl rest) ?_
    rw [fractional_textFrom_number text hrest]
    simpa [isApart] using h
  | name hc hu hword => exact scans_name hc hu hword (quiet_textFrom rfl rest)
  | parameter hu => exact scans_parameter hu (quiet_textFrom rfl rest)
  | @operator text hoperator =>
    by_cases hnot : text = "!"
    · subst hnot
      have hequals : (Expr.textFrom (operator "!") rest).head? ≠ some '=' := by
        rw [Ne, head?_textFrom_negation hrest]
        simpa [isApart] using h
      exact scans_operator hoperator hequals nofun nofun
    · have hquiet : Quiet (Expr.textFrom (operator text) rest) :=
        quiet_textFrom (by simp [opens, hnot]) rest
      exact scans_operator hoperator (hquiet.head?_ne (by decide))
        (fun _ => hquiet.head?_ne (by decide)) fun _ => hquiet.any_eq_false rfl
  | dot => exact scans_dot _
  | colon => exact scans_colon _
  | comma => exact scans_comma _
  | bracket hc => exact scans_bracket hc _

/-- A whole number takes a fraction behind it with it. -/
theorem garbled_number {text : String} (h : text.toList ∈ Token.numberPattern.language)
    (hplain : '.' ∉ text.toList) {d : Char} (hd : d.isDigit = true) (more : List Char) :
    (number text).Garbled ('.' :: d :: more) := by
  obtain ⟨sign, digits, fraction, hsign, ⟨hne, hdigits⟩, hpoint, htext⟩ :=
    Token.mem_numberPattern_iff.1 h
  obtain rfl : fraction = [] := by
    rcases hpoint with rfl | ⟨behind, -, rfl⟩
    · rfl
    · exact absurd (by simp [htext]) hplain
  obtain ⟨c, u, hfront, hlexeme⟩ := lexeme_number_append hne hdigits hsign ('.' :: d :: more)
  rw [List.append_nil, hfront] at htext
  refine ⟨c, u ++ '.' :: d :: more, ?_, by rw [hlexeme]; rfl, by rw [hlexeme]; rintro ⟨⟩, ?_⟩
  · rw [render, htext]
    rfl
  · -- What is scanned is longer than the number.
    intro p heq
    rw [Token.first, hlexeme, numberLength_fraction hd] at heq
    have hscanned := congrArg String.toList (number.inj (Option.some.inj heq))
    rw [String.toList_ofList, htext] at hscanned
    have hlength := congrArg List.length hscanned
    simp only [List.length_cons, List.length_take, List.length_append] at hlength
    omega

theorem garbled_of_not_isApart (ht : t.Written) (hrest : ∀ u ∈ rest, u.Written)
    (h : t.isApart rest = false) : t.Garbled (Expr.textFrom t rest) := by
  cases ht with
  | string text =>
    have hline : '\n' ∈ text.toList := by simpa [isApart] using h
    have herror := lexeme_string_of_mem hline (Expr.textFrom (string text) rest)
    refine ⟨'"', text.toList.flatMap escape ++ '"' :: Expr.textFrom (string text) rest, ?_, ?_⟩
    · simp [render]
    · refine ⟨by rw [herror]; rfl, by rw [herror]; rintro ⟨⟩, fun p => ?_⟩
      simp [Token.exprToken?, Token.first, herror]
  | @number text hnumber =>
    obtain ⟨hplain, hfraction⟩ : '.' ∉ text.toList ∧ beginsWithFraction rest = true := by
      simpa [isApart] using h
    obtain ⟨d, more, htextFrom, hd⟩ := (fractional_textFrom_number text hrest).2 hfraction
    rw [htextFrom]
    exact garbled_number hnumber hplain hd more
  | @operator text hoperator =>
    obtain ⟨rfl, hequals⟩ : text = "!" ∧ beginsWithEquals rest = true := by
      simpa [isApart] using h
    obtain ⟨more, htextFrom⟩ :=
      List.head?_eq_some_iff.1 ((head?_textFrom_negation hrest).2 hequals)
    rw [htextFrom]
    refine ⟨'!', '=' :: more, rfl, rfl, by rintro ⟨⟩, fun p heq => ?_⟩
    have htext : String.ofList ['!', '='] = "!" := operator.inj (Option.some.inj heq)
    exact absurd htext (by decide)
  | _ => cases h

/-! ## Runs of tokens -/

/-- What is put between two tokens changes nothing. -/
theorem exists_reread_separator (p : Position) (t : ExprToken) {u : ExprToken} (hu : u.Written)
    (more : List Char) :
    ∃ q, Token.reread p (t.separator u ++ (u.render ++ more)) =
      Token.reread q (u.render ++ more) := by
  unfold separator
  split_ifs
  · exact ⟨p, rfl⟩
  · obtain ⟨c, v, hrender, hspace, -, -⟩ := hu.exists_cons
    rw [hrender]
    exact Token.exists_reread_blank p hspace (v ++ more)

/-- A token before a run of tokens. -/
theorem reread_cons_iff (ht : t.Written) (hrest : ∀ u ∈ rest, u.Written)
    (htail : ∀ q, Token.reread q (Expr.textFrom t rest) = rest.map some ↔ isLegible rest = true)
    (p : Position) :
    Token.reread p (t.render ++ Expr.textFrom t rest) = (t :: rest).map some ↔
      isLegible (t :: rest) = true := by
  rw [isLegible, List.map_cons]
  cases hapart : t.isApart rest with
  | false =>
    have hne := (garbled_of_not_isApart ht hrest hapart).reread_ne p (rest.map some)
    simp [hne]
  | true =>
    obtain ⟨q, hq⟩ := (scans_of_isApart ht hrest hapart).exists_reread p
    rw [hq, Bool.true_and, List.cons.injEq, and_iff_right rfl]
    exact htail q

/-- The run of tokens behind a token. -/
theorem reread_textFrom_iff (hrest : ∀ u ∈ rest, u.Written) (t : ExprToken) (p : Position) :
    Token.reread p (Expr.textFrom t rest) = rest.map some ↔ isLegible rest = true := by
  induction rest generalizing t p with
  | nil => simp [Expr.textFrom, Token.reread_nil, isLegible]
  | cons u rest ih =>
    obtain ⟨hu, hmore⟩ := List.forall_mem_cons.1 hrest
    rw [Expr.textFrom_cons, List.append_assoc]
    obtain ⟨q, hq⟩ := exists_reread_separator p t hu (Expr.textFrom u rest)
    rw [hq]
    exact reread_cons_iff hu hmore (ih hmore u) q

end ExprToken

/-! ## Expressions -/

namespace Expr

/-- The text of the expression is scanned as the expression again: its tokens are trivia, the end of
the text, or such as expressions admit, and these stand for the tokens of the expression. -/
def ReadsBack (e : Expr) : Prop :=
  (∀ t ∈ Token.scan e.text, t.isTrivia = true ∨ t.kind = .eof ∨ t.exprToken?.isSome = true) ∧
    (Token.beforeEnd (Token.scan e.text)).filterMap Token.exprToken? = e.tokens

theorem readsBack_iff_reread (e : Expr) :
    e.ReadsBack ↔ Token.reread .start e.text.toList = e.tokens.map some := by
  change _ ↔ (Token.beforeEnd (Token.scan e.text)).map Token.exprToken? = e.tokens.map some
  constructor
  · rintro ⟨hall, htokens⟩
    rw [← htokens, List.map_filterMap_some_eq_filter_map_isSome, List.filter_eq_self.2]
    intro x hx
    obtain ⟨t, ht, rfl⟩ := List.mem_map.1 hx
    obtain ⟨hscan, htrivia, heof⟩ := Token.mem_beforeEnd_scan_iff.1 ht
    exact ((hall t hscan).resolve_left (Bool.eq_false_iff.1 htrivia)).resolve_left heof
  · intro hmap
    refine ⟨fun t ht => ?_, ?_⟩
    · by_contra hnone
      rw [not_or, not_or] at hnone
      have hbefore := Token.mem_beforeEnd_scan_iff.2
        ⟨ht, Bool.eq_false_iff.2 hnone.1, hnone.2.1⟩
      have hx := List.mem_map_of_mem (f := Token.exprToken?) hbefore
      rw [hmap] at hx
      obtain ⟨y, -, hy⟩ := List.mem_map.1 hx
      rw [← hy] at hnone
      exact hnone.2.2 rfl
    · calc (Token.beforeEnd (Token.scan e.text)).filterMap Token.exprToken?
          = ((Token.beforeEnd (Token.scan e.text)).map Token.exprToken?).filterMap id := by
            rw [List.filterMap_map]
            rfl
        _ = e.tokens := by
            rw [hmap, List.filterMap_map]
            exact List.filterMap_some

/-- Whatever tokens of a document an expression is made of, its text is scanned as the expression
again if and only if each token can be told from those behind it. -/
theorem readsBack_iff_of_written {e : Expr} (h : ∀ t ∈ e.tokens, t.Written) :
    e.ReadsBack ↔ ExprToken.isLegible e.tokens = true := by
  rw [readsBack_iff_reread, text]
  cases htokens : e.tokens with
  | nil => simp [Token.reread_nil, ExprToken.isLegible]
  | cons t rest =>
    rw [htokens] at h
    obtain ⟨ht, hrest⟩ := List.forall_mem_cons.1 h
    dsimp only
    rw [String.toList_ofList]
    exact ExprToken.reread_cons_iff ht hrest (ExprToken.reread_textFrom_iff hrest t) .start

end Expr

/-- The expression that the element is. -/
def Element.expr? : Element → Option Expr
  | expr e => some e
  | _ => none

/-- The expressions of a suite, in the order of the walk. -/
def Suite.exprs (s : Suite) : List Expr := s.elements.filterMap Element.expr?

theorem Suite.mem_exprs {s : Suite} {e : Expr} (h : e ∈ s.exprs) : .expr e ∈ s.elements := by
  obtain ⟨x, hx, he⟩ := List.mem_filterMap.1 h
  cases x with
  | expr y =>
    obtain rfl : y = e := Option.some.inj he
    exact hx
  | _ => cases he

namespace Expr

/-- The tokens of the expressions of a document stand for tokens of the document. -/
theorem written_of_strict {source : String} {suite : Suite}
    (h : (parse .strict source).suite = some suite) {e : Expr} (he : e ∈ suite.exprs) :
    ∀ t ∈ e.tokens, t.Written := by
  obtain ⟨-, hplain⟩ := Grammar.parse_gathered h .start
  intro t ht
  obtain ⟨p, hp, htoken⟩ := (hplain _ (Suite.mem_exprs he)).tokens e rfl t ht
  have hbefore : p.token ∈ Token.beforeEnd (Token.scan source) := by
    rw [← Grammar.pieces_ofSource]
    exact List.mem_map_of_mem hp
  exact Token.written_of_mem_scan (Token.mem_beforeEnd_scan_iff.1 hbefore).1 htoken

/-- For every source that is read strictly and every expression of it: the text of the expression is
scanned as the expression again if and only if no string in it has a line break, no negation stands
before an operator that begins with an equals sign, and no whole number stands before a dot and a
number without a sign. -/
theorem readsBack_iff_isLegible {source : String} {suite : Suite}
    (h : (parse .strict source).suite = some suite) {e : Expr} (he : e ∈ suite.exprs) :
    e.ReadsBack ↔ ExprToken.isLegible e.tokens = true :=
  readsBack_iff_of_written (written_of_strict h he)

/-- A negated call on a field, with a fraction and a string. -/
theorem readsBack_negated_call :
    ∃ suite e, (parse .strict
        "q\x7btest t\x7bassert\x7b!a.b(1.5)==\"x\"\x7d\x7d\x7d").suite = some suite ∧
      e ∈ suite.exprs ∧ e.text = "!a.b(1.5) == \"x\"" ∧ e.ReadsBack := by
  have hexprs : (parse .strict
      "q\x7btest t\x7bassert\x7b!a.b(1.5)==\"x\"\x7d\x7d\x7d").suite.map
        (fun s => s.exprs.map fun e => (e.text, ExprToken.isLegible e.tokens)) =
      some [("!a.b(1.5) == \"x\"", true)] := by cbv
  obtain ⟨suite, hsuite, hexprs⟩ := Option.map_eq_some_iff.1 hexprs
  obtain ⟨e, hexpr, he⟩ := List.map_eq_singleton_iff.1 hexprs
  have hmem : e ∈ suite.exprs := by
    rw [hexpr]
    exact List.mem_singleton_self e
  obtain ⟨htext, hlegible⟩ := Prod.mk.inj he
  exact ⟨suite, e, hsuite, hmem, htext, (readsBack_iff_isLegible hsuite hmem).2 hlegible⟩

/-- The three ways in which a text is not scanned as its expression: a line break in a string, a
negation before an equals sign, and a whole number before a dot and a number. -/
theorem text_not_readsBack :
    ∃ suite, (parse .strict
        "q\x7btest t\x7bassert\x7b\"a\\nb\";! = a;1 . 2\x7d\x7d\x7d").suite = some suite ∧
      suite.exprs.map text = ["\"a\nb\"", "!= a", "1.2"] ∧ ∀ e ∈ suite.exprs, ¬e.ReadsBack := by
  have hexprs : (parse .strict
      "q\x7btest t\x7bassert\x7b\"a\\nb\";! = a;1 . 2\x7d\x7d\x7d").suite.map
        (fun s => (s.exprs.map text, s.exprs.any fun e => ExprToken.isLegible e.tokens)) =
      some (["\"a\nb\"", "!= a", "1.2"], false) := by cbv
  obtain ⟨suite, hsuite, hexprs⟩ := Option.map_eq_some_iff.1 hexprs
  obtain ⟨htexts, hlegible⟩ := Prod.mk.inj hexprs
  refine ⟨suite, hsuite, htexts, fun e he => ?_⟩
  rw [readsBack_iff_of_written (written_of_strict hsuite he)]
  exact List.any_eq_false.1 hlegible e he

/-! ## Strings by themselves -/

/-- The text of a string that stands alone is the string as it is written out. -/
theorem text_string (info : NodeInfo) (s : String) :
    ({ toNodeInfo := info, tokens := [.string s] } : Expr).text =
      String.ofList (ExprToken.string s).render := by
  rw [text]
  dsimp only
  rw [textFrom, List.append_nil]

/-- A string as it is written out, at the start of a text. -/
def stringToken (s : String) : Token :=
  ⟨.string, String.ofList (ExprToken.string s).render, .start⟩

/-- Without a line break, a string that is written out is one token. -/
theorem scan_string {s : String} (h : '\n' ∉ s.toList) :
    Token.scan (String.ofList (ExprToken.string s).render) =
      [stringToken s, Token.endOfFile (stringToken s).stop] := by
  have hlexeme := ExprToken.lexeme_string h []
  rw [List.append_nil] at hlexeme
  rw [stringToken, Token.scan, String.toList_ofList, ExprToken.render, Token.scanFrom_cons,
    Token.first, Token.afterFirst, hlexeme]
  dsimp only
  rw [List.take_length, List.drop_length, Token.scanFrom_nil]

/-- With a line break, its first token is no string. -/
theorem head?_scan_string {s : String} (h : '\n' ∈ s.toList) :
    (Token.scan (String.ofList (ExprToken.string s).render)).head?.map (·.kind) = some .error := by
  rw [Token.scan, String.toList_ofList, ExprToken.render, Token.scanFrom_cons, List.head?_cons,
    Option.map_some, Token.first]
  exact congrArg some (ExprToken.lexeme_string_of_mem h [])

/-- The text of a string that stands alone is scanned as one string and the end, and the contents of
that string are those of the first, if and only if they have no line break. -/
theorem string_scans_back_iff (info : NodeInfo) (s : String) :
    (∃ t, Token.scan ({ toNodeInfo := info, tokens := [.string s] } : Expr).text =
        [t, Token.endOfFile t.stop] ∧ t.kind = .string ∧ Token.unquote t.text = s) ↔
      '\n' ∉ s.toList := by
  rw [text_string]
  constructor
  · rintro ⟨t, hscan, hkind, -⟩ hline
    have hhead := head?_scan_string hline
    rw [hscan, List.head?_cons, Option.map_some, hkind] at hhead
    cases hhead
  · intro hline
    exact ⟨stringToken s, scan_string hline, rfl, ExprToken.unquote_render s⟩

end Expr

end QuerySuite
