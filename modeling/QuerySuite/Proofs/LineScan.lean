import Mathlib.Data.List.TakeWhile
import Mathlib.Tactic.SplitIfs
import QuerySuite.Proofs.Locations

/-!
# Scanning line by line

No token but white space and an open query body reaches over the end of a line. So what is written
on a new line leaves the tokens before it as they are, and is itself scanned as if it stood alone.

Results:

* `Token.lexeme_append_line`: a new line behind a text does not change its first token.
* `Token.visible_append_line`: the tokens of two texts with a line break between them.
* `Token.map_kind_scanFrom`: kinds and texts of tokens do not depend on where the text stands.
* `Token.eq_concat_of_unterminatedRaw`: an open query body is the last token of its text.
-/

namespace QuerySuite.Token

/-! ## Runs of characters -/

theorem runLength_le (p : Char → Bool) (text : List Char) : runLength p text ≤ text.length :=
  (List.takeWhile_prefix p).length_le

/-- A run ends before a character that does not belong to it. -/
theorem runLength_append_of_false {p : Char → Bool} {d : Char} (hd : p d = false)
    (text more : List Char) : runLength p (text ++ d :: more) = runLength p text := by
  induction text with
  | nil => simp [runLength, hd]
  | cons c text ih =>
    unfold runLength at ih ⊢
    rw [List.cons_append, List.takeWhile_cons, List.takeWhile_cons]
    split
    · rw [List.length_cons, List.length_cons, ih]
    · rfl

/-- A run that ends within a text ends there whatever follows the text. -/
theorem runLength_append_of_lt {p : Char → Bool} {text : List Char}
    (h : runLength p text < text.length) (more : List Char) :
    runLength p (text ++ more) = runLength p text := by
  induction text with
  | nil => simp at h
  | cons c text ih =>
    by_cases hc : p c = true
    · have hlt : runLength p text < text.length := by
        rw [runLength, List.takeWhile_cons_of_pos hc, List.length_cons, List.length_cons] at h
        exact Nat.lt_of_succ_lt_succ h
      have ih := ih hlt
      unfold runLength at ih ⊢
      rw [List.cons_append, List.takeWhile_cons_of_pos hc, List.takeWhile_cons_of_pos hc,
        List.length_cons, List.length_cons, ih]
    · unfold runLength
      rw [List.cons_append, List.takeWhile_cons_of_neg hc, List.takeWhile_cons_of_neg hc]

/-! ## Lexemes before a line break -/

section Line

variable (more : List Char)

theorem numberLength_append_line (text : List Char) :
    numberLength (text ++ '\n' :: more) = numberLength text := by
  have hrun : runLength Char.isDigit (text ++ '\n' :: more) = runLength Char.isDigit text :=
    runLength_append_of_false (by decide) _ _
  have hdrop : (text ++ '\n' :: more).drop (runLength Char.isDigit text) =
      text.drop (runLength Char.isDigit text) ++ '\n' :: more :=
    List.drop_append_of_le_length (runLength_le _ text)
  unfold numberLength
  dsimp only
  rw [hrun, hdrop]
  cases text.drop (runLength Char.isDigit text) with
  | nil => rfl
  | cons c rest =>
    cases rest with
    | nil =>
      by_cases hc : c = '.'
      · subst hc
        rfl
      · simp [hc]
    | cons d rest =>
      by_cases hc : c = '.'
      · subst hc
        simp only [List.cons_append]
        rw [runLength_append_of_false (by decide)]
      · simp [hc]

theorem stringLength_append_line (text : List Char) :
    stringLength (text ++ '\n' :: more) = stringLength text := by
  fun_induction stringLength text with
  | case1 => rfl
  | case2 rest => rfl
  | case3 rest => rfl
  | case4 c rest hc closed n heq ih => simp [stringLength, ih, heq]
  | case5 => rfl
  | case6 rest => rfl
  | case7 c rest hquote _ htake hlast hline closed n heq ih =>
    have hbackslash : c ≠ '\\' := by
      intro hc
      cases rest with
      | nil => exact hlast hc rfl
      | cons d rest => exact htake d rest hc rfl
    simp [stringLength, hbackslash, ih, heq]

theorem rawLexeme_append {rest : List Char} (h : (rawLexeme rest).1 ≠ .unterminatedRaw) :
    rawLexeme (rest ++ more) = rawLexeme rest := by
  have hlt : runLength (· != backtick) rest < rest.length := by
    by_contra hle
    simp [rawLexeme, hle] at h
  unfold rawLexeme
  dsimp only
  rw [runLength_append_of_lt hlt, if_pos hlt, if_pos (by rw [List.length_append]; omega)]

theorem wordLexeme_append_line (c : Char) (rest : List Char) :
    wordLexeme c (rest ++ '\n' :: more) = wordLexeme c rest := by
  unfold wordLexeme
  dsimp only
  rw [runLength_append_of_false (by decide), List.take_append_of_le_length (runLength_le _ rest)]

theorem symbolLexeme_append_line (c : Char) (rest : List Char) :
    symbolLexeme c (rest ++ '\n' :: more) = symbolLexeme c rest := by
  cases rest with
  | nil =>
    unfold symbolLexeme
    split <;> simp
  | cons d rest =>
    have hcomment : runLength (· != '\n') (d :: rest ++ '\n' :: more) =
        runLength (· != '\n') (d :: rest) := runLength_append_of_false rfl _ _
    have hnumber := numberLength_append_line more (d :: rest)
    have hhead : (d :: rest ++ '\n' :: more).head? = (d :: rest).head? := rfl
    unfold symbolLexeme
    rw [hcomment, hnumber, hhead]

theorem stringLexeme_append_line (rest : List Char) :
    stringLexeme (rest ++ '\n' :: more) = stringLexeme rest := by
  rw [stringLexeme, stringLength_append_line, stringLexeme]

/-- A new line behind a text does not change its first token, if this is no white space and no open
query body. -/
theorem lexeme_append_line {c : Char} {rest : List Char} (hspace : isSpace c = false)
    (hraw : (lexeme c rest).1 ≠ .unterminatedRaw) :
    lexeme c (rest ++ '\n' :: more) = lexeme c rest := by
  unfold lexeme at hraw ⊢
  simp only [hspace, Bool.false_eq_true, if_false] at hraw ⊢
  split_ifs at hraw ⊢
  · exact wordLexeme_append_line more c rest
  · rw [runLength_append_of_false (by decide)]
  · rw [numberLength_append_line]
  · exact stringLexeme_append_line more rest
  · exact rawLexeme_append _ hraw
  · exact symbolLexeme_append_line more c rest

end Line

/-! ## A token stays within its text -/

theorem numberLength_le (text : List Char) : numberLength text ≤ text.length := by
  have hrun := runLength_le Char.isDigit text
  unfold numberLength
  dsimp only
  split
  · next d more hdrop =>
    have hlength := congrArg List.length hdrop
    have hmore := runLength_le Char.isDigit more
    rw [List.length_drop, List.length_cons, List.length_cons] at hlength
    split_ifs <;> omega
  · exact hrun

theorem stringLength_le (text : List Char) : (stringLength text).2 ≤ text.length := by
  fun_induction stringLength text with
  | case1 => rfl
  | case2 rest => simp
  | case3 rest => simp
  | case4 c rest hc closed n heq ih =>
    rw [heq] at ih
    simpa using ih
  | case5 => simp
  | case6 rest => simp
  | case7 c rest _ _ _ _ _ closed n heq ih =>
    rw [heq] at ih
    simpa using ih

theorem symbolLexeme_le (c : Char) (rest : List Char) :
    (symbolLexeme c rest).2 ≤ rest.length := by
  have hhead {d : Char} (h : rest.head? = some d) : 1 ≤ rest.length := by
    obtain ⟨more, rfl⟩ := List.head?_eq_some_iff.1 h
    simp
  have hnext (d : Char) : (if rest.head? = some d then 1 else 0) ≤ rest.length := by
    split_ifs with h
    · exact hhead h
    · exact Nat.zero_le _
  unfold symbolLexeme
  split <;> try exact Nat.zero_le _
  · exact hnext '='
  · exact hnext '='
  · exact hnext '='
  · exact hnext '='
  · split_ifs with h
    · exact hhead h
    · exact Nat.zero_le _
  · split_ifs with h
    · exact hhead h
    · exact Nat.zero_le _
  · split_ifs
    · exact runLength_le _ rest
    · exact Nat.zero_le _
  · split_ifs
    · exact numberLength_le rest
    · exact Nat.zero_le _

theorem lexeme_le (c : Char) (rest : List Char) : (lexeme c rest).2 ≤ rest.length := by
  unfold lexeme
  split_ifs
  · exact runLength_le _ rest
  · exact runLength_le _ rest
  · exact runLength_le _ rest
  · exact numberLength_le rest
  · have h := stringLength_le rest
    unfold stringLexeme
    split
    · next n heq =>
      rw [heq] at h
      exact h
    · next n heq =>
      rw [heq] at h
      exact h
  · have h := runLength_le (· != backtick) rest
    unfold rawLexeme
    dsimp only
    split_ifs with hlt
    · exact hlt
    · exact h
  · exact symbolLexeme_le c rest

/-! ## Texts with a line break between them -/

/-- The tokens other than white space and the end of the document. -/
def visible (tokens : List Token) : List Token :=
  tokens.filter fun t => t.kind != .whitespace && t.kind != .eof

theorem visible_append (ts us : List Token) : visible (ts ++ us) = visible ts ++ visible us :=
  List.filter_append ts us

theorem visible_cons (t : Token) (ts : List Token) :
    visible (t :: ts) = visible [t] ++ visible ts := visible_append [t] ts

theorem visible_cons_of_whitespace {t : Token} (h : t.kind = .whitespace) (ts : List Token) :
    visible (t :: ts) = visible ts := by
  simp [visible, h]

theorem first_eq (p : Position) (c : Char) (rest : List Char) :
    first p c rest =
      ⟨(lexeme c rest).1, String.ofList (c :: rest.take (lexeme c rest).2), p⟩ := rfl

/-- What is left after the first token starts where that token ends. -/
theorem stop_first_advance (p : Position) (c : Char) (rest more : List Char) :
    (first p c rest).stop.advance (afterFirst c rest ++ more) = p.advance (c :: rest ++ more) := by
  have hstop : (first p c rest).stop = p.advance (first p c rest).text.toList := rfl
  rw [hstop, ← Position.advance_append, ← List.append_assoc, text_first_append]

theorem lexeme_space {c : Char} (hc : isSpace c = true) (rest : List Char) :
    lexeme c rest = (.whitespace, runLength isSpace rest) := by
  rw [lexeme, if_pos hc]

/-- White space at the front of a text is one token, behind which scanning goes on. -/
theorem visible_scanFrom_cons_space {c : Char} (hc : isSpace c = true) (p : Position)
    (rest : List Char) :
    visible (scanFrom p (c :: rest)) =
      visible (scanFrom (p.advance (c :: rest.takeWhile isSpace)) (rest.dropWhile isSpace)) := by
  have hstop : (first p c rest).stop = p.advance (c :: rest.takeWhile isSpace) := by
    rw [first_eq, lexeme_space hc, take_runLength, stop, String.toList_ofList]
  have hkind : (first p c rest).kind = .whitespace := by rw [first_eq, lexeme_space hc]
  rw [scanFrom_cons, visible_cons_of_whitespace hkind, hstop, afterFirst, lexeme_space hc,
    drop_runLength]

/-- A character of white space at the front of a text can be left out. -/
theorem visible_scanFrom_space {c : Char} (hc : isSpace c = true) (p : Position)
    (rest : List Char) :
    visible (scanFrom p (c :: rest)) = visible (scanFrom (p.advance [c]) rest) := by
  rw [visible_scanFrom_cons_space hc]
  cases rest with
  | nil => rfl
  | cons d rest =>
    by_cases hd : isSpace d = true
    · rw [visible_scanFrom_cons_space hd, List.takeWhile_cons_of_pos hd,
        List.dropWhile_cons_of_pos hd, ← Position.advance_append]
      rfl
    · rw [List.takeWhile_cons_of_neg hd, List.dropWhile_cons_of_neg hd]

/-- A token that ends before the line break is scanned as if nothing followed. -/
theorem scanFrom_cons_append_line {c : Char} {rest : List Char} (hspace : isSpace c = false)
    (hraw : (lexeme c rest).1 ≠ .unterminatedRaw) (p : Position) (more : List Char) :
    scanFrom p (c :: rest ++ '\n' :: more) =
      first p c rest :: scanFrom (first p c rest).stop (afterFirst c rest ++ '\n' :: more) := by
  have hlexeme := lexeme_append_line more hspace hraw
  have hle := lexeme_le c rest
  have hfirst : first p c (rest ++ '\n' :: more) = first p c rest := by
    rw [first_eq, first_eq, hlexeme, List.take_append_of_le_length hle]
  have hafter : afterFirst c (rest ++ '\n' :: more) = afterFirst c rest ++ '\n' :: more := by
    unfold afterFirst
    rw [hlexeme, List.drop_append_of_le_length hle]
  rw [List.cons_append, scanFrom_cons, hfirst, hafter]

/-- The tokens of two texts with a line break between them are those of the first text and those of
the second, which starts on a new line. No query body of the first text is left open. -/
theorem visible_append_line (p : Position) (text more : List Char)
    (h : ∀ t ∈ visible (scanFrom p text), t.kind ≠ .unterminatedRaw) :
    visible (scanFrom p (text ++ '\n' :: more)) =
      visible (scanFrom p text) ++ visible (scanFrom (p.advance (text ++ ['\n'])) more) := by
  induction hn : text.length using Nat.strong_induction_on generalizing p text with
  | _ n ih =>
    cases text with
    | nil =>
      have hline : isSpace '\n' = true := by decide
      have hnil : visible (scanFrom p []) = [] := by
        rw [scanFrom_nil]
        rfl
      rw [hnil, List.nil_append, List.nil_append, List.nil_append]
      exact visible_scanFrom_space hline p more
    | cons c rest =>
      rw [List.length_cons] at hn
      by_cases hspace : isSpace c = true
      · have hrest := visible_scanFrom_space hspace p rest
        rw [hrest] at h ⊢
        rw [List.cons_append, visible_scanFrom_space hspace,
          ih rest.length (by omega) (p.advance [c]) rest h rfl]
        rfl
      · rw [Bool.not_eq_true] at hspace
        rw [scanFrom_cons, visible_cons] at h
        have hraw : (lexeme c rest).1 ≠ .unterminatedRaw := by
          intro hk
          have hfirst : (first p c rest).kind = .unterminatedRaw := hk
          refine h (first p c rest) (List.mem_append_left _ ?_) hfirst
          simp [visible, hfirst]
        have hlength := length_afterFirst_le c rest
        rw [scanFrom_cons_append_line hspace hraw, scanFrom_cons, visible_cons,
          ih (afterFirst c rest).length (by omega) _ _
            (fun t ht => h t (List.mem_append_right _ ht)) rfl,
          stop_first_advance, ← List.append_assoc, ← visible_cons]

/-! ## Where a text stands -/

/-- Kinds and texts of tokens do not depend on where the text stands. -/
theorem map_kind_scanFrom (p q : Position) (text : List Char) :
    (scanFrom p text).map (fun t => (t.kind, t.text)) =
      (scanFrom q text).map fun t => (t.kind, t.text) := by
  induction hn : text.length using Nat.strong_induction_on generalizing p q text with
  | _ n ih =>
    cases text with
    | nil =>
      rw [scanFrom_nil, scanFrom_nil]
      rfl
    | cons c rest =>
      rw [List.length_cons] at hn
      have hlength := length_afterFirst_le c rest
      rw [scanFrom_cons, scanFrom_cons, List.map_cons, List.map_cons,
        ih (afterFirst c rest).length (by omega) _ (first q c rest).stop _ rfl]
      rfl

/-! ## The end of a text -/

/-- The end of the document stands where its text ends. -/
theorem getLast?_scanFrom (p : Position) (text : List Char) :
    (scanFrom p text).getLast? = some (endOfFile (p.advance text)) := by
  fun_induction scanFrom p text with
  | case1 p => rfl
  | case2 p c rest t ih =>
    have hend := stop_first_advance p c rest []
    rw [List.append_nil, List.append_nil] at hend
    rw [List.getLast?_cons, ih, Option.getD_some, ← hend]

/-- An open query body takes all that is left. -/
theorem length_of_unterminatedRaw {c : Char} {rest : List Char}
    (h : (lexeme c rest).1 = .unterminatedRaw) : (lexeme c rest).2 = rest.length := by
  unfold lexeme at h ⊢
  split_ifs at h ⊢
  · unfold wordLexeme at h
    dsimp only at h
    split_ifs at h
  · unfold stringLexeme at h
    split at h <;> simp at h
  · have hle := runLength_le (· != backtick) rest
    unfold rawLexeme at h ⊢
    dsimp only at h ⊢
    split_ifs at h ⊢
    dsimp only
    omega
  · exact absurd h (symbolLexeme_ne c rest).2

/-- An open query body is the last token of its text. -/
theorem eq_concat_of_unterminatedRaw {p : Position} {text : List Char} {t : Token}
    (ht : t ∈ scanFrom p text) (hk : t.kind = .unterminatedRaw) :
    ∃ ts q, scanFrom p text = ts ++ [t, endOfFile q] := by
  fun_induction scanFrom p text with
  | case1 p =>
    rw [List.mem_singleton.1 ht] at hk
    cases hk
  | case2 p c rest u ih =>
    rcases List.mem_cons.1 ht with rfl | ht
    · have hlength : (lexeme c rest).2 = rest.length := length_of_unterminatedRaw hk
      have hafter : afterFirst c rest = [] := by rw [afterFirst, hlength, List.drop_length]
      rw [hafter, scanFrom_nil]
      exact ⟨[], _, rfl⟩
    · obtain ⟨ts, q, hscan⟩ := ih ht
      exact ⟨u :: ts, q, by rw [hscan, List.cons_append]⟩

end QuerySuite.Token
