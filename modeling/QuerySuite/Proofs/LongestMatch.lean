import Mathlib
import QuerySuite.Proofs.Coordinates
import QuerySuite.Proofs.LineScan
import QuerySuite.Proofs.NumberTokens
import QuerySuite.Proofs.Patterns

/-!
# The longest match

At each place the scanner takes the longest piece of text that a class of tokens admits. What stands
first decides which classes can come into question, and then how far they reach; where two classes
reach equally far, a reserved word goes before a name. Where no class admits anything, the token is
an error.

Results:

* `Token.admits_lexeme`: the piece that the scanner takes is admitted by a class of its kind.
* `Token.reaches_of_admits`: no class admits a longer piece, or an equally long one of another kind.
* `Token.lexeme_error`: what is taken where no class admits anything.
* `Token.scan_longest_match`: every token of a document is a longest match.
-/

namespace QuerySuite.Token

/-! ## Classes of characters -/

theorem within_digits (c : Char) : within '0' '9' c = c.isDigit := rfl

theorem letter_eq (c : Char) :
    (within 'a' 'z' c || within 'A' 'Z' c || c == '_') = isNameStart c := by
  simp [within, isNameStart, Char.isAlpha, Char.isUpper, Char.isLower, Char.le_def, Bool.or_comm]

theorem wordCharacter_eq (c : Char) :
    (within 'a' 'z' c || within 'A' 'Z' c || within '0' '9' c || c == '_') = isNameChar c := by
  simp [within, isNameChar, Char.isAlphanum, Char.isDigit, Char.isAlpha, Char.isUpper, Char.isLower,
    Char.le_def, Bool.or_comm]

theorem contains_spaces_eq (c : Char) :
    [' ', '\t', '\r', '\n', '\x0c'].contains c = isSpace c := by
  rw [Bool.eq_iff_iff]
  simp [isSpace, or_assoc]

/-- A letter is no white space. -/
theorem isSpace_of_isNameStart {c : Char} (h : isNameStart c = true) : isSpace c = false := by
  rw [← Bool.not_eq_true]
  intro hspace
  simp only [isSpace, Bool.or_eq_true, beq_iff_eq] at hspace
  rcases hspace with (((rfl | rfl) | rfl) | rfl) | rfl <;> revert h <;> decide

/-- A digit is neither white space nor a letter nor the sigil. -/
theorem not_letter_of_isDigit {c : Char} (h : c.isDigit = true) :
    isSpace c = false ∧ isNameStart c = false ∧ c ≠ '$' := by
  refine ⟨?_, ?_, ?_⟩
  · rw [← Bool.not_eq_true]
    intro hspace
    simp only [isSpace, Bool.or_eq_true, beq_iff_eq] at hspace
    rcases hspace with (((rfl | rfl) | rfl) | rfl) | rfl <;> revert h <;> decide
  · rw [← Bool.not_eq_true]
    intro hletter
    simp only [Char.isDigit, isNameStart, Char.isAlpha, Char.isUpper, Char.isLower, ge_iff_le,
      Bool.or_eq_true, Bool.and_eq_true, decide_eq_true_eq, beq_iff_eq,
      UInt32.le_iff_toNat_le] at h hletter
    have hnine : '9'.val.toNat = 57 := rfl
    have hupper : 'A'.val.toNat = 65 := rfl
    have hlower : 'a'.val.toNat = 97 := rfl
    rcases hletter with (hletter | hletter) | rfl
    · omega
    · omega
    · have hline : '_'.val.toNat = 95 := rfl
      omega
  · rintro rfl
    revert h
    decide

/-! ## What the first character decides -/

theorem lexeme_letter {c : Char} (h : isNameStart c = true) (rest : List Char) :
    lexeme c rest = wordLexeme c rest := by
  simp [lexeme, isSpace_of_isNameStart h, h]

theorem lexeme_digit {c : Char} (h : c.isDigit = true) (rest : List Char) :
    lexeme c rest = (.number, numberLength rest) := by
  obtain ⟨hspace, hletter, hsigil⟩ := not_letter_of_isDigit h
  simp [lexeme, hspace, hletter, hsigil, h]

theorem lexeme_sigil (rest : List Char) :
    lexeme '$' rest = (.ident, runLength isNameChar rest) := rfl

theorem lexeme_quote (rest : List Char) : lexeme '"' rest = stringLexeme rest := rfl

theorem lexeme_backtick (rest : List Char) : lexeme backtick rest = rawLexeme rest := rfl

/-! ## Runs -/

/-- A run reaches at least as far as any stretch of its characters at the front. -/
theorem le_runLength {p : Char → Bool} {u rest : List Char} (hu : u <+: rest)
    (hp : ∀ c ∈ u, p c = true) : u.length ≤ runLength p rest := by
  obtain ⟨more, rfl⟩ := hu
  rw [runLength, List.takeWhile_append_of_pos hp, List.length_append]
  exact Nat.le_add_right _ _

theorem forall_mem_take_runLength (p : Char → Bool) (rest : List Char) :
    ∀ c ∈ rest.take (runLength p rest), p c = true := by
  rw [take_runLength]
  intro c hc
  exact List.mem_takeWhile_imp hc

/-- A run is exactly as long as a stretch of its characters before another one. -/
theorem runLength_eq {p : Char → Bool} {u : List Char} (hp : ∀ c ∈ u, p c = true) {d : Char}
    (hd : p d = false) (more : List Char) : runLength p (u ++ d :: more) = u.length := by
  rw [runLength_append_of_false hd, runLength, List.takeWhile_eq_self_iff.2 hp]

/-- Behind a run that ends within the text stands a character of another class. -/
theorem take_succ_runLength {p : Char → Bool} {rest : List Char}
    (h : runLength p rest < rest.length) : ∃ d, p d = false ∧
      rest.take (runLength p rest + 1) = rest.take (runLength p rest) ++ [d] := by
  refine ⟨rest[runLength p rest], ?_, (List.take_append_getElem h).symm⟩
  have hdrop := drop_runLength p rest
  rw [List.drop_eq_getElem_cons h] at hdrop
  have hhead := List.head?_dropWhile_not p rest
  rw [← hdrop, List.head?_cons] at hhead
  exact hhead

/-! ## Numbers -/

/-- A number: an optional minus, digits, and an optional point with digits behind it. -/
theorem mem_numberPattern_iff {w : List Char} :
    w ∈ numberPattern.language ↔ ∃ sign digits fraction, (sign = [] ∨ sign = ['-']) ∧
      (digits ≠ [] ∧ ∀ c ∈ digits, c.isDigit = true) ∧
      (fraction = [] ∨ ∃ more, (more ≠ [] ∧ ∀ c ∈ more, c.isDigit = true) ∧
        fraction = '.' :: more) ∧ w = sign ++ (digits ++ fraction) := by
  simp only [numberPattern, Pattern.mem_seq_iff, Pattern.mem_optional_iff, digit,
    Pattern.mem_repeated_oneOf_iff, within_digits, Pattern.mem_text_iff]
  constructor
  · rintro ⟨sign, hsign, w', ⟨digits, hdigits, fraction, hfraction, rfl⟩, rfl⟩
    refine ⟨sign, digits, fraction, hsign, hdigits, ?_, rfl⟩
    rcases hfraction with rfl | ⟨point, rfl, more, hmore, rfl⟩
    · exact .inl rfl
    · exact .inr ⟨more, hmore, rfl⟩
  · rintro ⟨sign, digits, fraction, hsign, hdigits, hfraction, rfl⟩
    refine ⟨sign, hsign, _, ⟨digits, hdigits, fraction, ?_, rfl⟩, rfl⟩
    rcases hfraction with rfl | ⟨more, hmore, rfl⟩
    · exact .inl rfl
    · exact .inr ⟨['.'], rfl, more, hmore, rfl⟩

/-- The scanner goes on a number at least as far as any unsigned number at the front. -/
theorem le_numberLength {digits fraction text : List Char}
    (hdigits : ∀ c ∈ digits, c.isDigit = true)
    (hfraction : fraction = [] ∨ ∃ more, (more ≠ [] ∧ ∀ c ∈ more, c.isDigit = true) ∧
      fraction = '.' :: more) (h : digits ++ fraction <+: text) :
    (digits ++ fraction).length ≤ numberLength text := by
  rcases hfraction with rfl | ⟨more, ⟨hne, hmore⟩, rfl⟩
  · rw [List.append_nil] at h ⊢
    have hrun := le_runLength h hdigits
    unfold numberLength
    dsimp only
    split
    · split_ifs <;> omega
    · exact hrun
  · obtain ⟨d, more, rfl⟩ := List.exists_cons_of_ne_nil hne
    obtain ⟨hd, hmore⟩ := List.forall_mem_cons.1 hmore
    obtain ⟨behind, rfl⟩ := h
    have htext : digits ++ '.' :: d :: more ++ behind = digits ++ '.' :: d :: (more ++ behind) := by
      simp
    have hwhole : runLength Char.isDigit (digits ++ '.' :: d :: (more ++ behind)) =
        digits.length := runLength_eq hdigits (by decide) _
    have hrun : more.length ≤ runLength Char.isDigit (more ++ behind) :=
      le_runLength (List.prefix_append _ _) hmore
    rw [htext, numberLength]
    simp only [hwhole, List.drop_left, hd, if_true, List.length_append, List.length_cons]
    omega

/-- What the scanner takes behind a digit makes up a number with it. -/
theorem mem_numberPattern_cons {c : Char} (hc : c.isDigit = true) (rest : List Char) :
    c :: rest.take (numberLength rest) ∈ numberPattern.language := by
  have hdigits : ∀ d ∈ c :: rest.takeWhile Char.isDigit, d.isDigit = true := by
    refine List.forall_mem_cons.2 ⟨hc, fun d hd => ?_⟩
    exact List.mem_takeWhile_imp hd
  rw [mem_numberPattern_iff]
  rcases take_numberLength rest with h | ⟨more, hne, hmore, h⟩
  · refine ⟨[], _, [], .inl rfl, ⟨List.cons_ne_nil _ _, hdigits⟩, .inl rfl, ?_⟩
    rw [h, List.append_nil, List.nil_append]
  · refine ⟨[], _, '.' :: more, .inl rfl, ⟨List.cons_ne_nil _ _, hdigits⟩,
      .inr ⟨more, ⟨hne, hmore⟩, rfl⟩, ?_⟩
    rw [h, List.cons_append, List.nil_append]

/-! ## Strings -/

theorem stringLength_plain {c : Char} (hquote : c ≠ '"') (hslash : c ≠ '\\') (hline : c ≠ '\n')
    (rest : List Char) :
    stringLength (c :: rest) = ((stringLength rest).1, (stringLength rest).2 + 1) := by
  rw [stringLength]
  · exact hquote
  · intro _ h
    exact absurd h hslash
  · intro _ _ h
    exact absurd h hslash
  · intro h
    exact absurd h hslash
  · exact hline

theorem stringLength_escaped {c : Char} (hc : c ≠ '\n') (rest : List Char) :
    stringLength ('\\' :: c :: rest) = ((stringLength rest).1, (stringLength rest).2 + 2) := by
  rw [stringLength]
  exact hc

section Units

variable {units rest : List Char}

/-- The units of a string are read one by one, and then what stands behind them. -/
theorem stringLength_units (h : units ∈ (Pattern.many stringUnit).language) (rest : List Char) :
    stringLength (units ++ rest) =
      ((stringLength rest).1, (stringLength rest).2 + units.length) := by
  induction hn : units.length using Nat.strong_induction_on generalizing units with
  | _ n ih =>
    cases units with
    | nil =>
      obtain rfl : 0 = n := hn
      rfl
    | cons c units =>
      rw [List.length_cons] at hn
      rcases mem_stringUnits_cons_iff.1 h with ⟨hquote, hslash, hline, hunits⟩ |
        ⟨d, units, rfl, hd, rfl, hunits⟩
      · rw [List.cons_append, stringLength_plain hquote hslash hline,
          ih units.length (by omega) hunits rfl, ← hn]
        rfl
      · rw [List.length_cons] at hn
        rw [List.cons_append, List.cons_append, stringLength_escaped hd,
          ih units.length (by omega) hunits rfl, ← hn]
        rfl

/-- A string is read at least as far as its units go. -/
theorem le_stringLength (h : units ∈ (Pattern.many stringUnit).language) (hu : units <+: rest) :
    units.length ≤ (stringLength rest).2 := by
  obtain ⟨more, rfl⟩ := hu
  rw [stringLength_units h]
  exact Nat.le_add_left _ _

/-- What is read of a string are units, with the closing quote behind them if it was found. -/
theorem take_stringLength (rest : List Char) :
    ∃ units ∈ (Pattern.many stringUnit).language,
      rest.take (stringLength rest).2 = units ++ if (stringLength rest).1 then ['"'] else [] := by
  fun_induction stringLength rest with
  | case1 => exact ⟨[], Pattern.nil_mem_many _, rfl⟩
  | case2 rest => exact ⟨[], Pattern.nil_mem_many _, rfl⟩
  | case3 rest => exact ⟨[], Pattern.nil_mem_many _, rfl⟩
  | case4 c rest hc closed n heq ih =>
    obtain ⟨units, hunits, htake⟩ := ih
    rw [heq] at htake
    refine ⟨'\\' :: c :: units, ?_, ?_⟩
    · exact mem_stringUnits_cons_iff.2 (.inr ⟨c, units, rfl, hc, rfl, hunits⟩)
    · rw [List.take_succ_cons, List.take_succ_cons, htake]
      rfl
  | case5 => exact ⟨[], Pattern.nil_mem_many _, rfl⟩
  | case6 rest => exact ⟨[], Pattern.nil_mem_many _, rfl⟩
  | case7 c rest hquote _ htake hlast hline closed n heq ih =>
    obtain ⟨units, hunits, hrest⟩ := ih
    rw [heq] at hrest
    have hslash : c ≠ '\\' := by
      intro hc
      cases rest with
      | nil => exact hlast hc rfl
      | cons d rest => exact htake d rest hc rfl
    refine ⟨c :: units, ?_, ?_⟩
    · exact mem_stringUnits_cons_iff.2 (.inl ⟨hquote, hslash, hline, hunits⟩)
    · rw [List.take_succ_cons, hrest]
      rfl

end Units

/-! ## No class reaches further -/

/-- The scanner takes at least the piece `c :: u` from the front of `c :: rest`; where it takes just
that piece, `k` is its kind, unless it finds a reserved word in a name. -/
structure Reaches (c : Char) (rest : List Char) (k : Kind) (u : List Char) : Prop where
  known : (lexeme c rest).1 ≠ .error
  le : u.length ≤ (lexeme c rest).2
  kind : u.length = (lexeme c rest).2 →
    k = (lexeme c rest).1 ∨ k = .ident ∧ (lexeme c rest).1 = .keyword

section Reach

variable {c : Char} {u rest : List Char} {k : Kind}

/-- A piece whose kind the scanner has found. -/
theorem Reaches.of_lexeme {n : Nat} (h : lexeme c rest = (k, n)) (hk : k ≠ .error)
    (hle : u.length ≤ n) : Reaches c rest k u where
  known := by rw [h]; exact hk
  le := by rw [h]; exact hle
  kind := by rw [h]; exact fun _ => .inl rfl

/-- A word: a name, or a reserved word. -/
theorem word_reaches (hc : isNameStart c = true) (hword : ∀ d ∈ u, isNameChar d = true)
    (hu : u <+: rest) (hk : k = .ident ∨ k = .keyword ∧ String.ofList (c :: u) ∈ keywords) :
    Reaches c rest k u := by
  have hlexeme : lexeme c rest = wordLexeme c rest := lexeme_letter hc rest
  unfold wordLexeme at hlexeme
  dsimp only at hlexeme
  have hle := le_runLength hu hword
  split_ifs at hlexeme with hreserved
  · refine ⟨by rw [hlexeme]; simp, by rw [hlexeme]; exact hle, fun _ => ?_⟩
    rw [hlexeme]
    rcases hk with rfl | ⟨rfl, -⟩
    · exact .inr ⟨rfl, rfl⟩
    · exact .inl rfl
  · refine ⟨by rw [hlexeme]; simp, by rw [hlexeme]; exact hle, fun hlength => ?_⟩
    rw [hlexeme] at hlength ⊢
    rcases hk with rfl | ⟨rfl, hmem⟩
    · exact .inl rfl
    · -- The whole run is the reserved word.
      refine absurd (List.elem_eq_true_of_mem hmem) ?_
      rwa [List.prefix_iff_eq_take.1 hu, hlength]

theorem keyword_reaches {word : String} (hword : word ∈ keywords) (h : c :: u = word.toList)
    (hu : u <+: rest) : Reaches c rest .keyword u := by
  have hletters : ∀ word ∈ keywords, ∀ d ∈ word.toList, isNameChar d = true := by
    simp [keywords, isNameChar]
  have hfirst : ∀ word ∈ keywords, ∀ d ∈ word.toList.head?, isNameStart d = true := by
    simp [keywords, isNameStart]
  have hall := hletters word hword
  have hhead := hfirst word hword c
  rw [← h] at hall hhead
  refine word_reaches (hhead rfl) (fun d hd => hall d (List.mem_cons_of_mem c hd)) hu ?_
  exact .inr ⟨rfl, by rwa [h, String.ofList_toList]⟩

theorem name_reaches (h : c :: u ∈ namePattern.language) (hu : u <+: rest) :
    Reaches c rest .ident u := by
  obtain ⟨d, v, hd, hv, heq⟩ := Pattern.mem_oneOf_seq_iff.1 h
  cases heq
  rw [letter_eq] at hd
  refine word_reaches hd (fun x hx => ?_) hu (.inl rfl)
  rw [← wordCharacter_eq]
  exact Pattern.mem_many_oneOf_iff.1 hv x hx

theorem parameter_reaches (h : c :: u ∈ parameterPattern.language) (hu : u <+: rest) :
    Reaches c rest .ident u := by
  obtain ⟨v, hv, heq⟩ := Pattern.mem_text_seq_iff.1 h
  cases heq
  refine .of_lexeme (lexeme_sigil rest) (by decide) (le_runLength hu fun x hx => ?_)
  rw [← wordCharacter_eq]
  exact Pattern.mem_many_oneOf_iff.1 hv x hx

theorem space_reaches (h : c :: u ∈ spacePattern.language) (hu : u <+: rest) :
    Reaches c rest .whitespace u := by
  obtain ⟨-, hall⟩ := Pattern.mem_repeated_oneOf_iff.1 h
  simp only [contains_spaces_eq] at hall
  obtain ⟨hc, hu'⟩ := List.forall_mem_cons.1 hall
  exact .of_lexeme (lexeme_space hc rest) (by decide) (le_runLength hu hu')

theorem comment_reaches (h : c :: u ∈ commentPattern.language) (hu : u <+: rest) :
    Reaches c rest .comment u := by
  obtain ⟨v, hv, heq⟩ := Pattern.mem_text_seq_iff.1 h
  obtain ⟨rfl, rfl⟩ : c = '/' ∧ u = '/' :: v := List.cons.inj heq
  have hlexeme : lexeme '/' rest = (.comment, runLength (· != '\n') rest) := by
    obtain ⟨more, rfl⟩ := hu
    rfl
  refine .of_lexeme hlexeme (by decide) (le_runLength hu ?_)
  exact List.forall_mem_cons.2 ⟨by decide, Pattern.mem_many_oneOf_iff.1 hv⟩

theorem number_reaches (h : c :: u ∈ numberPattern.language) (hu : u <+: rest) :
    Reaches c rest .number u := by
  obtain ⟨sign, digits, fraction, hsign, ⟨hne, hdigits⟩, hfraction, heq⟩ :=
    mem_numberPattern_iff.1 h
  obtain ⟨d, more, rfl⟩ := List.exists_cons_of_ne_nil hne
  have hd : d.isDigit = true := hdigits d List.mem_cons_self
  rcases hsign with rfl | rfl
  · obtain ⟨rfl, rfl⟩ : c = d ∧ u = more ++ fraction := List.cons.inj heq
    refine .of_lexeme (lexeme_digit hd rest) (by decide) ?_
    have hle := le_numberLength hdigits hfraction (List.cons_prefix_cons.2 ⟨rfl, hu⟩)
    rw [numberLength_cons hd, List.cons_append, List.length_cons] at hle
    omega
  · obtain ⟨rfl, rfl⟩ : c = '-' ∧ u = d :: more ++ fraction := List.cons.inj heq
    have hlexeme : lexeme '-' rest = (.number, numberLength rest) := by
      obtain ⟨behind, rfl⟩ := hu
      show symbolLexeme '-' (d :: (more ++ fraction ++ behind)) = _
      simp only [symbolLexeme, List.head?_cons, Option.any_some, hd, if_true]
      rfl
    exact .of_lexeme hlexeme (by decide) (le_numberLength hdigits hfraction hu)

theorem string_reaches (h : c :: u ∈ stringPattern.language) (hu : u <+: rest) :
    Reaches c rest .string u := by
  obtain ⟨v, hv, heq⟩ := Pattern.mem_text_seq_iff.1 h
  obtain ⟨units, hunits, quote, rfl, rfl⟩ := Pattern.mem_seq_iff.1 hv
  obtain ⟨rfl, rfl⟩ : c = '"' ∧ u = units ++ ['"'] := List.cons.inj heq
  have hlexeme : lexeme '"' rest = (.string, units.length + 1) := by
    obtain ⟨more, rfl⟩ := hu
    rw [lexeme_quote, stringLexeme, List.append_assoc, stringLength_units hunits]
    exact congrArg (Prod.mk _) (Nat.add_comm _ _)
  refine .of_lexeme hlexeme (by decide) ?_
  rw [List.length_append]
  rfl

theorem raw_reaches (h : c :: u ∈ rawPattern.language) (hu : u <+: rest) :
    Reaches c rest .rawString u := by
  obtain ⟨v, hv, heq⟩ := Pattern.mem_text_seq_iff.1 h
  obtain ⟨body, hbody, close, rfl, rfl⟩ := Pattern.mem_seq_iff.1 hv
  obtain ⟨rfl, rfl⟩ : c = backtick ∧ u = body ++ [backtick] := List.cons.inj heq
  have hlexeme : lexeme backtick rest = (.rawString, body.length + 1) := by
    obtain ⟨more, rfl⟩ := hu
    have hrun : runLength (· != backtick) (body ++ backtick :: more) = body.length :=
      runLength_eq (Pattern.mem_many_oneOf_iff.1 hbody) (by decide) more
    rw [lexeme_backtick, rawLexeme, List.append_assoc, List.singleton_append]
    simp only [hrun]
    rw [if_pos (by simp)]
  refine .of_lexeme hlexeme (by decide) ?_
  rw [List.length_append]
  rfl

/-- A query body that is left open is taken as one that is closed, if that reaches further. -/
theorem openRaw_reaches (h : c :: u ∈ openRawPattern.language) (hu : u <+: rest) :
    Reaches c rest .unterminatedRaw u := by
  obtain ⟨v, hv, heq⟩ := Pattern.mem_text_seq_iff.1 h
  obtain ⟨rfl, rfl⟩ : c = backtick ∧ u = v := List.cons.inj heq
  have hle := le_runLength hu (Pattern.mem_many_oneOf_iff.1 hv)
  have hlexeme : lexeme backtick rest = rawLexeme rest := rfl
  unfold rawLexeme at hlexeme
  dsimp only at hlexeme
  split_ifs at hlexeme
  · refine ⟨by rw [hlexeme]; simp, by rw [hlexeme]; exact Nat.le_succ_of_le hle, ?_⟩
    rw [hlexeme]
    intro hlength
    dsimp only at hlength
    omega
  · exact .of_lexeme hlexeme (by decide) hle

theorem slash_reaches (rest : List Char) : Reaches '/' rest .operator [] := by
  by_cases h : rest.head? = some '/'
  · have hlexeme : lexeme '/' rest = (.comment, runLength (· != '\n') rest) := if_pos h
    obtain ⟨more, rfl⟩ := List.head?_eq_some_iff.1 h
    refine ⟨by rw [hlexeme]; simp, Nat.zero_le _, ?_⟩
    rw [hlexeme]
    exact nofun
  · have hlexeme : lexeme '/' rest = (.operator, 0) := if_neg h
    exact .of_lexeme hlexeme (by decide) (Nat.zero_le 0)

theorem minus_reaches (rest : List Char) : Reaches '-' rest .operator [] := by
  by_cases h : rest.head?.any Char.isDigit = true
  · have hlexeme : lexeme '-' rest = (.number, numberLength rest) := if_pos h
    obtain ⟨d, hhead, hd⟩ := (Option.any_eq_true _ _).1 h
    obtain ⟨more, rfl⟩ := List.head?_eq_some_iff.1 hhead
    refine ⟨by rw [hlexeme]; simp, Nat.zero_le _, ?_⟩
    rw [hlexeme, numberLength_cons hd]
    exact nofun
  · have hlexeme : lexeme '-' rest = (.operator, 0) := if_neg h
    exact .of_lexeme hlexeme (by decide) (Nat.zero_le 0)

/-- A character that is a token of its own is not overlooked where it begins something longer. -/
theorem single_reaches {word : String} (hword : (k, word) ∈ symbols) (h : word.toList = [c]) :
    Reaches c rest k [] := by
  fin_cases hword <;> cases h
  case «11».refl => exact minus_reaches rest
  case «13».refl => exact slash_reaches rest
  all_goals exact .of_lexeme rfl (by decide) (Nat.zero_le _)

/-- The operators of two characters are taken where both of them stand. -/
theorem double_reaches {word : String} {d : Char} (hword : (k, word) ∈ symbols)
    (h : word.toList = [c, d]) (hu : [d] <+: rest) : Reaches c rest k [d] := by
  obtain ⟨more, rfl⟩ := hu
  fin_cases hword <;> cases h
  all_goals exact .of_lexeme rfl (by decide) (Nat.le_refl 1)

theorem symbol_reaches {word : String} (hword : (k, word) ∈ symbols) (h : c :: u = word.toList)
    (hu : u <+: rest) : Reaches c rest k u := by
  have hshort : ∀ s ∈ symbols, s.2.toList.length ≤ 2 := by decide +kernel
  have hlength := hshort _ hword
  rw [← h, List.length_cons] at hlength
  match u with
  | [] => exact single_reaches hword h.symm
  | [d] => exact double_reaches hword h.symm hu
  | _ :: _ :: _ => simp at hlength

/-- No class admits a longer piece than the scanner takes, or an equally long one of another kind,
but for reserved words, which are names. -/
theorem reaches_of_admits (h : Admits k (c :: u)) (hu : u <+: rest) : Reaches c rest k u := by
  rcases admits_iff.1 h with ⟨rfl, word, hword, heq⟩ | ⟨word, hword, heq⟩ | ⟨p, hp, hw⟩
  · exact keyword_reaches hword heq hu
  · exact symbol_reaches hword heq hu
  · simp only [openClasses, List.mem_cons, Prod.mk.injEq, List.not_mem_nil, or_false] at hp
    rcases hp with ⟨rfl, rfl⟩ | ⟨rfl, rfl⟩ | ⟨rfl, rfl⟩ | ⟨rfl, rfl⟩ | ⟨rfl, rfl⟩ | ⟨rfl, rfl⟩ |
      ⟨rfl, rfl⟩ | ⟨rfl, rfl⟩
    · exact number_reaches hw hu
    · exact string_reaches hw hu
    · exact raw_reaches hw hu
    · exact openRaw_reaches hw hu
    · exact name_reaches hw hu
    · exact parameter_reaches hw hu
    · exact space_reaches hw hu
    · exact comment_reaches hw hu

end Reach

/-! ## What is taken is admitted -/

section Taken

variable {c : Char} {rest : List Char}

theorem admits_open {k : Kind} {p : Pattern} {w : List Char} (hp : (k, p) ∈ openClasses)
    (hw : w ∈ p.language) : Admits k w := admits_iff.2 (.inr (.inr ⟨p, hp, hw⟩))

/-- A symbol of one character. -/
theorem admits_single {k : Kind} (h : (k, String.ofList [c]) ∈ symbols) :
    Admits k (c :: rest.take 0) :=
  admits_iff.2 (.inr (.inl ⟨_, h, String.toList_ofList.symm⟩))

/-- A symbol of two characters. -/
theorem admits_double {k : Kind} {d : Char} (h : (k, String.ofList [c, d]) ∈ symbols)
    (hd : rest.head? = some d) : Admits k (c :: rest.take 1) := by
  obtain ⟨more, rfl⟩ := List.head?_eq_some_iff.1 hd
  exact admits_iff.2 (.inr (.inl ⟨_, h, String.toList_ofList.symm⟩))

/-- An operator that an equality sign may lengthen. -/
theorem admits_comparison (h : (.operator, String.ofList [c]) ∈ symbols)
    (h' : (.operator, String.ofList [c, '=']) ∈ symbols) :
    Admits .operator (c :: rest.take (if rest.head? = some '=' then 1 else 0)) := by
  split_ifs with hd
  · exact admits_double h' hd
  · exact admits_single h

theorem admits_space (hc : isSpace c = true) :
    Admits .whitespace (c :: rest.take (runLength isSpace rest)) := by
  refine admits_open (p := spacePattern) (by simp [openClasses]) ?_
  rw [spacePattern, Pattern.mem_repeated_oneOf_iff]
  simp only [contains_spaces_eq]
  exact ⟨List.cons_ne_nil _ _, List.forall_mem_cons.2 ⟨hc, forall_mem_take_runLength _ _⟩⟩

theorem admits_word (hc : isNameStart c = true) :
    Admits (wordLexeme c rest).1 (c :: rest.take (wordLexeme c rest).2) := by
  unfold wordLexeme
  dsimp only
  split_ifs with hreserved
  · refine admits_iff.2 (.inl ⟨rfl, _, List.mem_of_elem_eq_true hreserved, ?_⟩)
    rw [String.toList_ofList]
  · refine admits_open (p := namePattern) (by simp [openClasses]) ?_
    refine Pattern.mem_oneOf_seq_iff.2 ⟨c, _, by rwa [letter_eq], ?_, rfl⟩
    refine Pattern.mem_many_oneOf_iff.2 fun d hd => ?_
    rw [wordCharacter_eq]
    exact forall_mem_take_runLength _ _ d hd

theorem admits_parameter : Admits .ident ('$' :: rest.take (runLength isNameChar rest)) := by
  refine admits_open (p := parameterPattern) (by simp [openClasses]) ?_
  refine Pattern.mem_text_seq_iff.2 ⟨_, ?_, rfl⟩
  refine Pattern.mem_many_oneOf_iff.2 fun d hd => ?_
  rw [wordCharacter_eq]
  exact forall_mem_take_runLength _ _ d hd

theorem admits_number (hc : c.isDigit = true) :
    Admits .number (c :: rest.take (numberLength rest)) :=
  admits_open (p := numberPattern) (by simp [openClasses]) (mem_numberPattern_cons hc rest)

theorem admits_negative (h : rest.head?.any Char.isDigit = true) :
    Admits .number ('-' :: rest.take (numberLength rest)) := by
  obtain ⟨d, hhead, hd⟩ := (Option.any_eq_true _ _).1 h
  obtain ⟨more, rfl⟩ := List.head?_eq_some_iff.1 hhead
  obtain ⟨sign, digits, fraction, hsign, hdigits, hfraction, heq⟩ :=
    mem_numberPattern_iff.1 (mem_numberPattern_cons hd more)
  refine admits_open (p := numberPattern) (by simp [openClasses]) (mem_numberPattern_iff.2 ?_)
  have htake : (d :: more).take (numberLength (d :: more)) = sign ++ (digits ++ fraction) := by
    rw [numberLength_cons hd, List.take_succ_cons, heq]
  rw [htake]
  rcases hsign with rfl | rfl
  · exact ⟨['-'], digits, fraction, .inr rfl, hdigits, hfraction, rfl⟩
  · -- A digit is no sign.
    obtain rfl : d = '-' := (List.cons.inj heq).1
    exact absurd hd (by decide)

theorem admits_comment (h : rest.head? = some '/') :
    Admits .comment ('/' :: rest.take (runLength (· != '\n') rest)) := by
  obtain ⟨more, rfl⟩ := List.head?_eq_some_iff.1 h
  refine admits_open (p := commentPattern) (by simp [openClasses]) ?_
  refine Pattern.mem_text_seq_iff.2 ⟨more.take (runLength (· != '\n') more), ?_, rfl⟩
  exact Pattern.mem_many_oneOf_iff.2 (forall_mem_take_runLength _ _)

theorem admits_string (h : (stringLexeme rest).1 ≠ .error) :
    Admits (stringLexeme rest).1 ('"' :: rest.take (stringLexeme rest).2) := by
  obtain ⟨units, hunits, htake⟩ := take_stringLength rest
  unfold stringLexeme at h ⊢
  rcases hread : stringLength rest with ⟨_ | _, n⟩
  · rw [hread] at h
    exact absurd rfl h
  · rw [hread] at htake
    refine admits_open (p := stringPattern) (by simp [openClasses]) ?_
    refine Pattern.mem_text_seq_iff.2 ⟨_, ?_, rfl⟩
    exact Pattern.mem_seq_iff.2 ⟨units, hunits, _, rfl, htake.symm⟩

theorem admits_raw : Admits (rawLexeme rest).1 (backtick :: rest.take (rawLexeme rest).2) := by
  have hrun := Pattern.mem_many_oneOf_iff.2 (forall_mem_take_runLength (· != backtick) rest)
  unfold rawLexeme
  dsimp only
  split_ifs with hlt
  · refine admits_open (p := rawPattern) (by simp [openClasses]) ?_
    refine Pattern.mem_text_seq_iff.2 ⟨_, ?_, rfl⟩
    refine Pattern.mem_seq_iff.2 ⟨_, hrun, [backtick], rfl, ?_⟩
    obtain ⟨d, hd, htake⟩ := take_succ_runLength hlt
    obtain rfl : d = backtick := by simpa using hd
    rw [htake]
  · refine admits_open (p := openRawPattern) (by simp [openClasses]) ?_
    exact Pattern.mem_text_seq_iff.2 ⟨_, hrun, rfl⟩

theorem admits_symbol (c : Char) (rest : List Char) : (symbolLexeme c rest).1 = .error ∨
    Admits (symbolLexeme c rest).1 (c :: rest.take (symbolLexeme c rest).2) := by
  fun_cases symbolLexeme c rest
  case case14 | case15 | case16 | case17 =>
    exact .inr (admits_comparison (by decide) (by decide))
  case case18 double | case20 double =>
    exact .inr (admits_double (d := _) (by decide) double)
  case case19 | case21 | case26 => exact .inl rfl
  case case22 slash => exact .inr (admits_comment slash)
  case case24 digit => exact .inr (admits_negative digit)
  all_goals exact .inr (admits_single (by decide))

/-- The piece that the scanner takes is admitted by a class of its kind. -/
theorem admits_lexeme (h : (lexeme c rest).1 ≠ .error) :
    Admits (lexeme c rest).1 (c :: rest.take (lexeme c rest).2) := by
  unfold lexeme at h ⊢
  split_ifs at h ⊢ with hspace hletter hsigil hdigit hquote hraw
  · exact admits_space hspace
  · exact admits_word hletter
  · subst hsigil
    exact admits_parameter
  · exact admits_number hdigit
  · subst hquote
    exact admits_string h
  · subst hraw
    exact admits_raw
  · exact (admits_symbol c rest).resolve_left h

end Taken

/-! ## Errors -/

/-- The text `w` is what an error takes from the front of `s`: one character, or an opening quote
with all the complete units behind it. -/
def ErrorExtent (s w : List Char) : Prop :=
  (∃ c rest, c ≠ '"' ∧ s = c :: rest ∧ w = [c]) ∨
    w ∈ openString.language ∧ w <+: s ∧ ∀ v ∈ openString.language, v <+: s → v.length ≤ w.length

theorem symbolLexeme_error {c : Char} {rest : List Char}
    (h : (symbolLexeme c rest).1 = .error) : (symbolLexeme c rest).2 = 0 := by
  revert h
  fun_cases symbolLexeme c rest <;> simp

theorem stringLexeme_error {rest : List Char} (h : (stringLexeme rest).1 = .error) :
    ErrorExtent ('"' :: rest) ('"' :: rest.take (stringLexeme rest).2) := by
  obtain ⟨units, hunits, htake⟩ := take_stringLength rest
  have hread : (stringLength rest).1 = false ∧
      (stringLexeme rest).2 = (stringLength rest).2 := by
    unfold stringLexeme at h ⊢
    split at h
    · cases h
    · next heq => exact ⟨by rw [heq], by rw [heq]⟩
  rw [hread.1, if_neg Bool.false_ne_true, List.append_nil] at htake
  rw [hread.2]
  refine .inr ⟨?_, ?_, ?_⟩
  · rw [htake]
    exact Pattern.mem_text_seq_iff.2 ⟨units, hunits, rfl⟩
  · exact List.cons_prefix_cons.2 ⟨rfl, List.take_prefix _ _⟩
  · intro v hv hfront
    obtain ⟨units', hunits', rfl⟩ := Pattern.mem_text_seq_iff.1 hv
    have hle := le_stringLength hunits' (List.cons_prefix_cons.1 hfront).2
    have hbound := stringLength_le rest
    rw [List.length_cons, List.length_take_of_le hbound]
    exact Nat.succ_le_succ hle

/-- What is taken where no class admits anything. -/
theorem lexeme_error {c : Char} {rest : List Char} (h : (lexeme c rest).1 = .error) :
    ErrorExtent (c :: rest) (c :: rest.take (lexeme c rest).2) := by
  unfold lexeme at h ⊢
  split_ifs at h ⊢ with hspace hletter hsigil hdigit hquote hraw
  · unfold wordLexeme at h
    dsimp only at h
    split_ifs at h
  · subst hquote
    exact stringLexeme_error h
  · unfold rawLexeme at h
    dsimp only at h
    split_ifs at h
  · rw [symbolLexeme_error h]
    exact .inl ⟨c, rest, hquote, rfl, rfl⟩

/-! ## The tokens of a document -/

/-- Some class admits a piece at the front of `s`. -/
def Matches (s : List Char) : Prop := ∃ k w, w ≠ [] ∧ w <+: s ∧ Admits k w

/-- The text `w` is the longest piece at the front of `s` that a class admits, and `k` is the kind
of the class; only a reserved word is in classes of two kinds, and is not taken as a name. -/
structure LongestMatch (s : List Char) (k : Kind) (w : List Char) : Prop where
  front : w <+: s
  admits : Admits k w
  longest : ∀ k' v, v <+: s → Admits k' v → v.length ≤ w.length
  kind : ∀ k', Admits k' w → k' = k ∨ k' = .ident ∧ k = .keyword

section Longest

variable {c : Char} {rest : List Char}

/-- A text at whose front a class admits something has no error there. -/
theorem lexeme_ne_error_iff : (lexeme c rest).1 ≠ .error ↔ Matches (c :: rest) := by
  constructor
  · intro h
    refine ⟨_, _, List.cons_ne_nil _ _, ?_, admits_lexeme h⟩
    exact List.cons_prefix_cons.2 ⟨rfl, List.take_prefix _ _⟩
  · rintro ⟨k, w, hne, hfront, hadmits⟩
    obtain ⟨d, u, rfl⟩ := List.exists_cons_of_ne_nil hne
    obtain ⟨rfl, hu⟩ := List.cons_prefix_cons.1 hfront
    exact (reaches_of_admits hadmits hu).known

theorem longestMatch_lexeme (h : Matches (c :: rest)) :
    LongestMatch (c :: rest) (lexeme c rest).1 (c :: rest.take (lexeme c rest).2) := by
  have hlength : (rest.take (lexeme c rest).2).length = (lexeme c rest).2 :=
    List.length_take_of_le (lexeme_le c rest)
  refine ⟨?_, admits_lexeme (lexeme_ne_error_iff.2 h), ?_, ?_⟩
  · exact List.cons_prefix_cons.2 ⟨rfl, List.take_prefix _ _⟩
  · intro k' v hfront hadmits
    cases v with
    | nil => exact Nat.zero_le _
    | cons d u =>
      obtain ⟨rfl, hu⟩ := List.cons_prefix_cons.1 hfront
      rw [List.length_cons, List.length_cons, hlength]
      exact Nat.succ_le_succ (reaches_of_admits hadmits hu).le
  · intro k' hadmits
    exact (reaches_of_admits hadmits (List.take_prefix _ _)).kind hlength

end Longest

/-- A token other than the end is what the scanner takes where the texts before it end. -/
theorem exists_lexeme_of_scanFrom {p : Position} {text : List Char} {before after : List Token}
    {t : Token} (h : scanFrom p text = before ++ t :: after) (ht : t.kind ≠ .eof) :
    ∃ c rest, text = textsOf before ++ c :: rest ∧ t.kind = (lexeme c rest).1 ∧
      t.text.toList = c :: rest.take (lexeme c rest).2 := by
  induction before generalizing p text with
  | nil =>
    cases text with
    | nil =>
      rw [scanFrom_nil, List.nil_append] at h
      obtain ⟨rfl, -⟩ := List.cons.inj h
      exact absurd rfl ht
    | cons c rest =>
      rw [scanFrom_cons, List.nil_append] at h
      obtain ⟨rfl, -⟩ := List.cons.inj h
      exact ⟨c, rest, rfl, rfl, String.toList_ofList⟩
  | cons u before ih =>
    cases text with
    | nil =>
      rw [scanFrom_nil, List.cons_append] at h
      have hnil := (List.cons.inj h).2
      simp at hnil
    | cons c rest =>
      rw [scanFrom_cons, List.cons_append] at h
      obtain ⟨rfl, hrest⟩ := List.cons.inj h
      obtain ⟨d, more, htext, hkind⟩ := ih hrest
      refine ⟨d, more, ?_, hkind⟩
      rw [textsOf_cons, List.append_assoc, ← htext, text_first_append]

/-- Every token of a document but the last stands at the text that the tokens before it leave. Where
a class admits something at the front of that text, the token is the longest such piece, a reserved
word before a name; it is an error where no class admits anything, and only there. -/
theorem scan_longest_match {source : String} {before after : List Token} {t : Token}
    (h : scan source = before ++ t :: after) (ht : t.kind ≠ .eof) :
    ∃ s, source.toList = textsOf before ++ s ∧
      t.start = Position.start.advance (textsOf before) ∧
      (Matches s → LongestMatch s t.kind t.text.toList) ∧
      (t.kind = .error ↔ ¬ Matches s) ∧
      (t.kind = .error → ErrorExtent s t.text.toList) := by
  obtain ⟨c, rest, hsource, hkind, htext⟩ := exists_lexeme_of_scanFrom h ht
  refine ⟨c :: rest, hsource, (start_stop_of_scan h).1, ?_, ?_, ?_⟩
  · intro hmatches
    rw [hkind, htext]
    exact longestMatch_lexeme hmatches
  · rw [hkind, ← lexeme_ne_error_iff, not_not]
  · intro herror
    rw [htext]
    exact lexeme_error (hkind ▸ herror)

/-- The fraction belongs to the number, the point behind it does not. -/
theorem scan_longest_match_fraction :
    scan "a-1.5." = [⟨.ident, "a", ⟨1, 1, 0⟩⟩] ++ ⟨.number, "-1.5", ⟨1, 2, 1⟩⟩ ::
      [⟨.dot, ".", ⟨1, 6, 5⟩⟩, ⟨.eof, "", ⟨1, 7, 6⟩⟩] ∧
    LongestMatch "-1.5.".toList .number "-1.5".toList := by
  have hscan : scan "a-1.5." = [⟨.ident, "a", ⟨1, 1, 0⟩⟩] ++ ⟨.number, "-1.5", ⟨1, 2, 1⟩⟩ ::
      [⟨.dot, ".", ⟨1, 6, 5⟩⟩, ⟨.eof, "", ⟨1, 7, 6⟩⟩] := by cbv
  obtain ⟨s, hsource, -, hlongest, herror, -⟩ := scan_longest_match hscan (by decide)
  obtain rfl : "-1.5.".toList = s := (List.cons.inj hsource).2
  exact ⟨hscan, hlongest (not_not.1 fun h => Kind.noConfusion (herror.2 h))⟩

end QuerySuite.Token
