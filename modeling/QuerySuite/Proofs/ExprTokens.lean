import Mathlib.Tactic.FinCases
import Mathlib.Tactic.SplitIfs
import QuerySuite.Proofs.Acceptance
import QuerySuite.Proofs.LongestMatch
import QuerySuite.Token.Contents

/-!
# Tokens of expressions, scanned again

An expression keeps what its tokens stand for. Written out, such a token is scanned as a token that
stands for the same again, provided that what is written behind it does not run into it, and that
the contents of a string have no line break.

Results:

* `Token.written_of_mem_scan`: what can be said of the tokens of a document.
* `ExprToken.scans_string`, `ExprToken.scans_number`, `ExprToken.scans_name`,
  `ExprToken.scans_parameter`, `ExprToken.scans_operator`: what is written out is scanned as one
  token.
-/

namespace QuerySuite

namespace ExprToken

/-- The token is one that a scanned token can stand for. -/
inductive Written : ExprToken → Prop where
  | string (text : String) : Written (.string text)
  | number {text : String} (h : text.toList ∈ Token.numberPattern.language) : Written (.number text)
  | name {c : Char} {u : List Char} (hc : Token.isNameStart c = true)
      (hu : ∀ d ∈ u, Token.isNameChar d = true)
      (hword : String.ofList (c :: u) ∉ Token.keywords ∨
        String.ofList (c :: u) ∈ ["true", "false", "null"]) :
      Written (.ident (String.ofList (c :: u)))
  | parameter {u : List Char} (hu : ∀ d ∈ u, Token.isNameChar d = true) :
      Written (.ident (String.ofList ('$' :: u)))
  | operator {text : String} (h : (.operator, text) ∈ Token.symbols) : Written (.operator text)
  | dot : Written .dot
  | colon : Written .colon
  | comma : Written .comma
  | bracket {c : Char} (h : c ∈ ['(', ')', '[', ']']) : Written (.bracket c)

end ExprToken

namespace Token

/-- The scanner takes a name for what begins like one and is no reserved word, and a parameter for
what begins with the sigil. -/
theorem lexeme_ident {c : Char} {rest : List Char} (h : (lexeme c rest).1 = .ident) :
    (isNameStart c = true ∧ String.ofList (c :: rest.take (lexeme c rest).2) ∉ keywords ∨ c = '$') ∧
      (lexeme c rest).2 = runLength isNameChar rest := by
  unfold lexeme at h ⊢
  split_ifs at h ⊢ with hspace hname hparam hdigit hquote hraw
  · simp only [wordLexeme] at h ⊢
    split_ifs at h with hword
    refine ⟨.inl ⟨hname, ?_⟩, trivial⟩
    simpa using hword
  · exact ⟨.inr hparam, rfl⟩
  · simp only [stringLexeme] at h
    split at h <;> cases h
  · simp only [rawLexeme] at h
    split_ifs at h
  · revert h
    fun_cases symbolLexeme c rest <;> simp

theorem mem_numberPattern_of_admits {w : List Char} (h : Admits .number w) :
    w ∈ numberPattern.language := by
  rcases admits_iff.1 h with ⟨hk, -⟩ | ⟨word, hword, -⟩ | ⟨p, hp, hw⟩
  · cases hk
  · simp [symbols] at hword
  · obtain rfl : p = numberPattern := by simpa [openClasses] using hp
    exact hw

theorem mem_symbols_of_admits {text : String} (h : Admits .operator text.toList) :
    (.operator, text) ∈ symbols := by
  rcases admits_iff.1 h with ⟨hk, -⟩ | ⟨word, hword, hw⟩ | ⟨p, hp, -⟩
  · cases hk
  · rw [String.toList_inj.1 hw]
    exact hword
  · simp [openClasses] at hp

/-- The reserved words that are values. -/
theorem written_literal {text : String} (h : text ∈ ["true", "false", "null"]) :
    (ExprToken.ident text).Written := by
  have hword := h
  simp only [List.mem_cons, List.not_mem_nil, or_false] at h
  rcases h with rfl | rfl | rfl
  · exact .name (c := 't') (u := ['r', 'u', 'e']) rfl (by simp [isNameChar]) (.inr hword)
  · exact .name (c := 'f') (u := ['a', 'l', 's', 'e']) rfl (by simp [isNameChar]) (.inr hword)
  · exact .name (c := 'n') (u := ['u', 'l', 'l']) rfl (by simp [isNameChar]) (.inr hword)

/-- What a token of a document stands for. -/
theorem written_of_exprToken? {t : Token} {c : Char} {rest : List Char} {y : ExprToken}
    (hkind : t.kind = (lexeme c rest).1) (htext : t.text.toList = c :: rest.take (lexeme c rest).2)
    (h : t.exprToken? = some y) : y.Written := by
  have hadmits (hk : t.kind ≠ .error) : Admits t.kind t.text.toList := by
    rw [htext, hkind]
    exact admits_lexeme (hkind ▸ hk)
  unfold exprToken? at h
  split at h
  case h_1 =>
    cases h
    exact .string _
  case h_2 hk =>
    cases h
    rw [hk] at hadmits
    exact .number (mem_numberPattern_of_admits (hadmits (by decide)))
  case h_3 hk =>
    cases h
    rw [hk] at hkind
    obtain ⟨hfront, hlength⟩ := lexeme_ident hkind.symm
    have hu : ∀ d ∈ rest.take (lexeme c rest).2, isNameChar d = true := by
      rw [hlength]
      exact forall_mem_take_runLength isNameChar rest
    rw [← String.ofList_toList (s := t.text), htext]
    rcases hfront with ⟨hc, hword⟩ | rfl
    · exact .name hc hu (.inl hword)
    · exact .parameter hu
  case h_4 =>
    split_ifs at h with hword
    cases h
    exact written_literal (by simpa [or_assoc] using hword)
  case h_5 hk =>
    cases h
    rw [hk] at hadmits
    exact .operator (mem_symbols_of_admits (hadmits (by decide)))
  case h_6 =>
    cases h
    exact .dot
  case h_7 =>
    cases h
    exact .colon
  case h_8 =>
    cases h
    exact .comma
  case h_13 => cases h
  all_goals
    cases h
    exact .bracket (by decide)

/-- The expression tokens of a document. -/
theorem written_of_mem_scan {source : String} {t : Token} (ht : t ∈ scan source) {y : ExprToken}
    (h : t.exprToken? = some y) : y.Written := by
  obtain ⟨before, after, hscan⟩ := List.append_of_mem ht
  have hkind : t.kind ≠ .eof := by
    intro hk
    simp [exprToken?, hk] at h
  obtain ⟨c, rest, -, hkind, htext⟩ := exists_lexeme_of_scanFrom hscan hkind
  exact written_of_exprToken? hkind htext h

end Token

/-! ## What is written out -/

namespace ExprToken

/-- With `more` behind it, the token that is written out is scanned as one token, which stands for
the same. -/
def Scans (t : ExprToken) (more : List Char) : Prop :=
  ∃ c u k, t.render = c :: u ∧ Token.lexeme c (u ++ more) = (k, u.length) ∧
    ∀ p, (⟨k, String.ofList (c :: u), p⟩ : Token).exprToken? = some t

/-- The text begins with nothing that could belong to a token before it. -/
def Quiet (more : List Char) : Prop :=
  ∀ c ∈ more.head?, c ∈ [' ', '.', ',', ':', '(', ')', '[', ']']

theorem Quiet.head?_ne {more : List Char} (h : Quiet more) {c : Char}
    (hc : c ∉ [' ', '.', ',', ':', '(', ')', '[', ']']) : more.head? ≠ some c :=
  fun hhead => hc (h c hhead)

/-- A class of characters to which none of those belongs. -/
theorem Quiet.any_eq_false {more : List Char} (h : Quiet more) {q : Char → Bool}
    (hq : [' ', '.', ',', ':', '(', ')', '[', ']'].any q = false) : more.head?.any q = false := by
  cases hhead : more.head? with
  | none => rfl
  | some c => exact Bool.not_eq_true _ ▸ List.any_eq_false.1 hq c (h c hhead)

/-- A run ends where what follows begins with another character. -/
theorem runLength_append {q : Char → Bool} {u more : List Char} (hu : ∀ c ∈ u, q c = true)
    (hmore : more.head?.any q = false) : Token.runLength q (u ++ more) = u.length := by
  cases more with
  | nil =>
    rw [List.append_nil, Token.runLength, List.takeWhile_eq_self_iff.2 hu]
  | cons d more => exact Token.runLength_eq hu hmore more

/-- A word ends where what follows begins with another character. -/
theorem lexeme_word {c : Char} {u : List Char} (hc : Token.isNameStart c = true)
    (hu : ∀ d ∈ u, Token.isNameChar d = true) {more : List Char}
    (hmore : more.head?.any Token.isNameChar = false) :
    Token.lexeme c (u ++ more) =
      (if Token.keywords.contains (String.ofList (c :: u)) then .keyword else .ident,
        u.length) := by
  rw [Token.lexeme_letter hc, Token.wordLexeme, runLength_append hu hmore, List.take_left]

theorem scans_name {c : Char} {u : List Char} (hc : Token.isNameStart c = true)
    (hu : ∀ d ∈ u, Token.isNameChar d = true)
    (hword : String.ofList (c :: u) ∉ Token.keywords ∨
      String.ofList (c :: u) ∈ ["true", "false", "null"])
    {more : List Char} (hmore : Quiet more) : (ident (String.ofList (c :: u))).Scans more := by
  have hlexeme := lexeme_word hc hu (hmore.any_eq_false rfl)
  refine ⟨c, u, _, String.toList_ofList, hlexeme, fun p => ?_⟩
  clear hlexeme
  generalize String.ofList (c :: u) = text at hword ⊢
  split_ifs with hkeyword
  · have hliteral : text ∈ ["true", "false", "null"] :=
      hword.resolve_left fun hnot => hnot (by simpa using hkeyword)
    simp only [List.mem_cons, List.not_mem_nil, or_false] at hliteral
    rcases hliteral with rfl | rfl | rfl <;> rfl
  · rfl

theorem scans_parameter {u : List Char} (hu : ∀ d ∈ u, Token.isNameChar d = true)
    {more : List Char} (hmore : Quiet more) : (ident (String.ofList ('$' :: u))).Scans more := by
  have hlength : Token.runLength Token.isNameChar (u ++ more) = u.length :=
    runLength_append hu (hmore.any_eq_false rfl)
  refine ⟨'$', u, .ident, String.toList_ofList, ?_, fun p => rfl⟩
  rw [Token.lexeme_sigil, hlength]

/-! ## Strings -/

/-- The contents of a string that are written out are units of a string. -/
theorem mem_units_escape {text : List Char} (h : '\n' ∉ text) :
    text.flatMap escape ∈ (Pattern.many Token.stringUnit).language := by
  induction text with
  | nil => exact Pattern.nil_mem_many _
  | cons c text ih =>
    rw [List.mem_cons, not_or] at h
    obtain ⟨hc, htext⟩ := h
    rw [List.flatMap_cons, escape]
    split_ifs with hescaped
    · exact Token.mem_stringUnits_cons_iff.2 (.inr ⟨c, _, rfl, Ne.symm hc, rfl, ih htext⟩)
    · rw [not_or] at hescaped
      exact Token.mem_stringUnits_cons_iff.2
        (.inl ⟨hescaped.1, hescaped.2, Ne.symm hc, ih htext⟩)

theorem strip_cons_append (c : Char) (text : List Char) :
    Token.strip c (c :: (text ++ [c])) = text := by
  rw [Token.strip, Token.dropFront, if_pos rfl, List.reverse_append, List.reverse_singleton,
    List.singleton_append, Token.dropFront, if_pos rfl, List.reverse_reverse]

/-- The quotes around the contents are taken off again. -/
theorem unquote_render (text : String) :
    Token.unquote (String.ofList (string text).render) = text := by
  rw [Token.unquote, String.toList_ofList, render, strip_cons_append, Token.unescape_escape,
    String.ofList_toList]

/-- A string without a line break in its contents ends at its own quote. -/
theorem lexeme_string {text : List Char} (h : '\n' ∉ text) (more : List Char) :
    Token.lexeme '"' (text.flatMap escape ++ ['"'] ++ more) =
      (.string, (text.flatMap escape ++ ['"']).length) := by
  have hlength : Token.stringLength (text.flatMap escape ++ '"' :: more) =
      (true, 1 + (text.flatMap escape).length) :=
    Token.stringLength_units (mem_units_escape h) ('"' :: more)
  rw [Token.lexeme_quote, List.append_assoc, List.singleton_append, Token.stringLexeme, hlength,
    List.length_append, Nat.add_comm]
  rfl

theorem scans_string {text : String} (h : '\n' ∉ text.toList) (more : List Char) :
    (string text).Scans more :=
  ⟨'"', text.toList.flatMap escape ++ ['"'], .string, rfl, lexeme_string h more, fun _ =>
    congrArg (fun text => some (string text)) (unquote_render text)⟩

/-- A line break in the contents cuts the string off. -/
theorem lexeme_string_of_mem {text : String} (h : '\n' ∈ text.toList) (more : List Char) :
    (Token.lexeme '"' (text.toList.flatMap escape ++ '"' :: more)).1 = .error := by
  obtain ⟨front, back, htext, hfront⟩ := List.eq_append_cons_of_mem h
  have hlength : Token.stringLength (text.toList.flatMap escape ++ '"' :: more) =
      (false, 0 + (front.flatMap escape).length) := by
    rw [htext, List.flatMap_append, List.append_assoc]
    exact Token.stringLength_units (mem_units_escape hfront) _
  rw [Token.lexeme_quote, Token.stringLexeme, hlength]

/-! ## Numbers -/

/-- Digits are counted one by one, and then what goes on the number behind them. -/
theorem numberLength_digits {digits : List Char} (h : ∀ c ∈ digits, c.isDigit = true)
    (more : List Char) :
    Token.numberLength (digits ++ more) = digits.length + Token.numberLength more := by
  induction digits with
  | nil => simp
  | cons c digits ih =>
    obtain ⟨hc, hdigits⟩ := List.forall_mem_cons.1 h
    rw [List.cons_append, Token.numberLength_cons hc, ih hdigits, List.length_cons]
    omega

/-- The text goes on a number with a point and a digit behind it. -/
def Fractional (more : List Char) : Prop :=
  ∃ d rest, more = '.' :: d :: rest ∧ d.isDigit = true

theorem numberLength_fraction {d : Char} (hd : d.isDigit = true) (rest : List Char) :
    Token.numberLength ('.' :: d :: rest) = 2 + Token.runLength Char.isDigit rest := by
  have hrun : Token.runLength Char.isDigit ('.' :: d :: rest) = 0 := rfl
  rw [Token.numberLength]
  simp [hrun, hd]

/-- Nothing goes on a number. -/
theorem numberLength_eq_zero {more : List Char} (h : more.head?.any Char.isDigit = false)
    (hfraction : ¬Fractional more) : Token.numberLength more = 0 := by
  have hrun : Token.runLength Char.isDigit more = 0 := runLength_append (u := []) (by simp) h
  unfold Token.numberLength
  simp only [hrun, List.drop_zero]
  split
  · next d rest =>
    split_ifs with hd
    · exact absurd ⟨d, rest, rfl, hd⟩ hfraction
    · rfl
  · rfl

/-- The scanner takes a number from its first digit on, or from the minus before it. -/
theorem lexeme_number_append {digits : List Char} (hne : digits ≠ [])
    (hdigits : ∀ c ∈ digits, c.isDigit = true) {sign : List Char}
    (hsign : sign = [] ∨ sign = ['-']) (more : List Char) :
    ∃ c u, sign ++ digits = c :: u ∧
      Token.lexeme c (u ++ more) = (.number, u.length + Token.numberLength more) := by
  obtain ⟨c, u, rfl⟩ := List.exists_cons_of_ne_nil hne
  obtain ⟨hc, hu⟩ := List.forall_mem_cons.1 hdigits
  rcases hsign with rfl | rfl
  · refine ⟨c, u, rfl, ?_⟩
    rw [Token.lexeme_digit hc, numberLength_digits hu]
  · refine ⟨'-', c :: u, rfl, ?_⟩
    have hhead : (c :: u ++ more).head?.any Char.isDigit = true := hc
    have hminus : Token.lexeme '-' (c :: u ++ more) =
        (.number, Token.numberLength (c :: u ++ more)) := if_pos hhead
    rw [hminus, numberLength_digits hdigits]

/-- There is no point before the fraction of a number. -/
theorem not_mem_sign_append {sign digits : List Char} (hsign : sign = [] ∨ sign = ['-'])
    (hdigits : ∀ c ∈ digits, c.isDigit = true) : '.' ∉ sign ++ digits := by
  intro h
  rcases List.mem_append.1 h with h | h
  · rcases hsign with rfl | rfl <;> simp at h
  · have hpoint := hdigits '.' h
    cases hpoint

theorem scans_number {text : String} (h : text.toList ∈ Token.numberPattern.language)
    {more : List Char} (hmore : Quiet more)
    (hfraction : '.' ∈ text.toList ∨ ¬Fractional more) : (number text).Scans more := by
  have hhead : more.head?.any Char.isDigit = false := hmore.any_eq_false rfl
  obtain ⟨sign, digits, fraction, hsign, ⟨hne, hdigits⟩, hpoint, htext⟩ :=
    Token.mem_numberPattern_iff.1 h
  have hrender : (number text).render = sign ++ digits ++ fraction := by
    rw [List.append_assoc, ← htext]
    rfl
  obtain ⟨c, u, hfront, hlexeme⟩ := lexeme_number_append hne hdigits hsign (fraction ++ more)
  refine ⟨c, u ++ fraction, .number, ?_, ?_, ?_⟩
  · rw [hrender, hfront, List.cons_append]
  · rw [List.append_assoc, hlexeme, List.length_append]
    rcases hpoint with rfl | ⟨behind, ⟨hbehind, hmoreDigits⟩, rfl⟩
    · have hplain : '.' ∉ text.toList := by
        rw [htext, List.append_nil]
        exact not_mem_sign_append hsign hdigits
      rw [List.nil_append, numberLength_eq_zero hhead (hfraction.resolve_left hplain)]
      rfl
    · obtain ⟨d, behind, rfl⟩ := List.exists_cons_of_ne_nil hbehind
      obtain ⟨hd, hrest⟩ := List.forall_mem_cons.1 hmoreDigits
      rw [List.cons_append, List.cons_append, numberLength_fraction hd,
        runLength_append hrest hhead, List.length_cons, List.length_cons, Nat.add_comm 2]
  · intro p
    rw [← List.cons_append, ← hfront, ← hrender]
    exact congrArg (fun text => some (number text)) String.ofList_toList

/-! ## Symbols -/

theorem scans_dot (more : List Char) : dot.Scans more := ⟨'.', [], .dot, rfl, rfl, fun _ => rfl⟩

theorem scans_colon (more : List Char) : colon.Scans more :=
  ⟨':', [], .colon, rfl, rfl, fun _ => rfl⟩

theorem scans_comma (more : List Char) : comma.Scans more :=
  ⟨',', [], .comma, rfl, rfl, fun _ => rfl⟩

theorem scans_bracket {c : Char} (h : c ∈ ['(', ')', '[', ']']) (more : List Char) :
    (bracket c).Scans more := by
  fin_cases h
  · exact ⟨'(', [], .lparen, rfl, rfl, fun _ => rfl⟩
  · exact ⟨')', [], .rparen, rfl, rfl, fun _ => rfl⟩
  · exact ⟨'[', [], .lbracket, rfl, rfl, fun _ => rfl⟩
  · exact ⟨']', [], .rbracket, rfl, rfl, fun _ => rfl⟩

/-- An operator, where nothing behind it makes it a longer one, a number or a comment. -/
theorem scans_operator {text : String} (h : (.operator, text) ∈ Token.symbols) {more : List Char}
    (hequals : more.head? ≠ some '=') (hslash : text = "/" → more.head? ≠ some '/')
    (hdigit : text = "-" → more.head?.any Char.isDigit = false) : (operator text).Scans more := by
  have hcompare {c : Char}
      (hc : Token.lexeme c more = (.operator, if more.head? = some '=' then 1 else 0)) :
      Token.lexeme c more = (.operator, 0) := by
    rw [hc, if_neg hequals]
  simp only [Token.symbols, List.mem_cons, Prod.mk.injEq, true_and, reduceCtorEq, false_and,
    List.not_mem_nil, or_false] at h
  rcases h with rfl | rfl | rfl | rfl | rfl | rfl | rfl | rfl | rfl | rfl | rfl | rfl | rfl | rfl |
    rfl
  · exact ⟨'=', ['='], .operator, rfl, rfl, fun _ => rfl⟩
  · exact ⟨'!', ['='], .operator, rfl, rfl, fun _ => rfl⟩
  · exact ⟨'<', ['='], .operator, rfl, rfl, fun _ => rfl⟩
  · exact ⟨'>', ['='], .operator, rfl, rfl, fun _ => rfl⟩
  · exact ⟨'<', [], .operator, rfl, hcompare rfl, fun _ => rfl⟩
  · exact ⟨'>', [], .operator, rfl, hcompare rfl, fun _ => rfl⟩
  · exact ⟨'&', ['&'], .operator, rfl, rfl, fun _ => rfl⟩
  · exact ⟨'|', ['|'], .operator, rfl, rfl, fun _ => rfl⟩
  · exact ⟨'!', [], .operator, rfl, hcompare rfl, fun _ => rfl⟩
  · exact ⟨'=', [], .operator, rfl, hcompare rfl, fun _ => rfl⟩
  · exact ⟨'+', [], .operator, rfl, rfl, fun _ => rfl⟩
  · have hplain : ¬more.head?.any Char.isDigit = true := by
      rw [hdigit rfl]
      exact Bool.false_ne_true
    exact ⟨'-', [], .operator, rfl, if_neg hplain, fun _ => rfl⟩
  · exact ⟨'*', [], .operator, rfl, rfl, fun _ => rfl⟩
  · exact ⟨'/', [], .operator, rfl, if_neg (hslash rfl), fun _ => rfl⟩
  · exact ⟨'%', [], .operator, rfl, rfl, fun _ => rfl⟩

end ExprToken

end QuerySuite
