import Mathlib.Data.List.TakeWhile
import Mathlib.Tactic.SplitIfs
import QuerySuite.Number
import QuerySuite.Proofs.Locations

/-!
# Tokens that are numbers

What the scanner takes for a number can be read as one. The scanner asks for digits, with a point
among them only where digits follow it; the reader admits more.

Results:

* `Token.read?_isSome`: every number token of a text has a value.
-/

namespace QuerySuite

/-! ## Plain decimals -/

/-- The text is a run of digits, perhaps with a point and more digits behind it. -/
inductive PlainDecimal : List Char → Prop where
  | whole {digits : List Char} (h : digits ≠ []) (hd : ∀ c ∈ digits, c.isDigit = true) :
      PlainDecimal digits
  | fraction {digits more : List Char} (h : digits ≠ []) (hd : ∀ c ∈ digits, c.isDigit = true)
      (hm : ∀ c ∈ more, c.isDigit = true) : PlainDecimal (digits ++ '.' :: more)

namespace PlainDecimal

theorem unsigned?_isSome {text : List Char} (h : PlainDecimal text) (negative : Bool) :
    (Decimal.unsigned? negative text).isSome = true := by
  cases h with
  | whole hne hd =>
    have htake : text.takeWhile Char.isDigit = text := List.takeWhile_eq_self_iff.2 hd
    have hdrop : text.dropWhile Char.isDigit = [] := List.dropWhile_eq_nil_iff.2 hd
    simp [Decimal.unsigned?, htake, hdrop, hne, Decimal.powerOfTen?]
  | @fraction digits more hne hd hm =>
    have hdot : ('.' : Char).isDigit = false := by decide
    have htake : (digits ++ '.' :: more).takeWhile Char.isDigit = digits := by
      rw [List.takeWhile_append_of_pos hd, List.takeWhile_cons, hdot]
      simp
    have hdrop : (digits ++ '.' :: more).dropWhile Char.isDigit = '.' :: more := by
      rw [List.dropWhile_append_of_pos hd, List.dropWhile_cons, hdot]
      rfl
    have hmore : more.dropWhile Char.isDigit = [] := List.dropWhile_eq_nil_iff.2 hm
    simp [Decimal.unsigned?, htake, hdrop, hmore, hne, Decimal.powerOfTen?]

/-- A plain decimal begins with a digit. -/
theorem exists_cons {text : List Char} (h : PlainDecimal text) :
    ∃ c rest, text = c :: rest ∧ c.isDigit = true := by
  cases h with
  | whole hne hd | fraction hne hd =>
    obtain ⟨c, rest, rfl⟩ := List.exists_cons_of_ne_nil hne
    exact ⟨c, _, rfl, hd c List.mem_cons_self⟩

/-- A plain decimal has no sign to split off. -/
theorem splitSign_eq {text : List Char} (h : PlainDecimal text) :
    Decimal.splitSign text = (false, text) := by
  obtain ⟨c, rest, rfl, hc⟩ := h.exists_cons
  unfold Decimal.splitSign
  split
  · exact absurd hc (by simp_all)
  · exact absurd hc (by simp_all)
  · rfl

end PlainDecimal

namespace Number

theorem read?_isSome_of_decimal {text : String}
    (h : (Decimal.read? text.toList).isSome = true) : (read? text).isSome = true := by
  unfold read?
  dsimp only
  split_ifs
  · rfl
  · rfl
  · rw [Option.isSome_map]
    exact h

/-- A plain decimal has a value, with a minus before it or without. -/
theorem read?_isSome {text : String} {digits : List Char} (h : PlainDecimal digits)
    (htext : text.toList = digits ∨ text.toList = '-' :: digits) : (read? text).isSome = true := by
  apply read?_isSome_of_decimal
  rcases htext with htext | htext
  · rw [htext, Decimal.read?, h.splitSign_eq]
    exact h.unsigned?_isSome false
  · rw [htext]
    exact h.unsigned?_isSome true

end Number

/-! ## Number tokens -/

namespace Token

/-- What goes on a number: digits, and perhaps a point with digits behind it. -/
theorem take_numberLength (text : List Char) :
    text.take (numberLength text) = text.takeWhile Char.isDigit ∨
      ∃ more, more ≠ [] ∧ (∀ c ∈ more, c.isDigit = true) ∧
        text.take (numberLength text) = text.takeWhile Char.isDigit ++ '.' :: more := by
  unfold numberLength
  dsimp only
  split
  · next d more hdrop =>
    split_ifs with hd
    · right
      refine ⟨d :: more.takeWhile Char.isDigit, List.cons_ne_nil _ _, ?_, ?_⟩
      · intro c hc
        rcases List.mem_cons.1 hc with rfl | hc
        · exact hd
        · exact List.mem_takeWhile_imp hc
      · rw [Nat.add_assoc, List.take_add, hdrop, take_runLength, Nat.add_comm 2,
          List.take_succ_cons, List.take_succ_cons, take_runLength]
    · exact .inl (take_runLength _ text)
  · exact .inl (take_runLength _ text)

/-- Among the symbols only a minus before a digit begins a number. -/
theorem symbolLexeme_number {c : Char} {rest : List Char}
    (h : (symbolLexeme c rest).1 = .number) :
    c = '-' ∧ rest.head?.any Char.isDigit = true ∧
      (symbolLexeme c rest).2 = numberLength rest := by
  unfold symbolLexeme at h ⊢
  split at h <;> try cases h
  · split_ifs at h
  · split_ifs at h
  · split_ifs at h
  · split_ifs at h ⊢ with hdigit
    exact ⟨rfl, hdigit, rfl⟩

/-- Where the scanner takes a number, a digit stands there or a minus before one. -/
theorem lexeme_number {c : Char} {rest : List Char} (h : (lexeme c rest).1 = .number) :
    (c.isDigit = true ∨ c = '-' ∧ rest.head?.any Char.isDigit = true) ∧
      (lexeme c rest).2 = numberLength rest := by
  unfold lexeme at h ⊢
  split_ifs at h ⊢ with hspace hname hparam hdigit hquote hraw
  · simp only [wordLexeme] at h
    split_ifs at h
  · exact ⟨.inl hdigit, rfl⟩
  · simp only [stringLexeme] at h
    split at h <;> cases h
  · simp only [rawLexeme] at h
    split_ifs at h
  · obtain ⟨hc, hhead, hlength⟩ := symbolLexeme_number h
    exact ⟨.inr ⟨hc, hhead⟩, hlength⟩

/-- What goes on a number makes up a plain decimal with a digit before it. -/
theorem plainDecimal_cons {c : Char} (hc : c.isDigit = true) (rest : List Char) :
    PlainDecimal (c :: rest.take (numberLength rest)) := by
  have hdigits : ∀ d ∈ c :: rest.takeWhile Char.isDigit, d.isDigit = true := by
    intro d hd
    rcases List.mem_cons.1 hd with rfl | hd
    · exact hc
    · exact List.mem_takeWhile_imp hd
  rcases take_numberLength rest with h | ⟨more, -, hmore, h⟩
  · rw [h]
    exact .whole (List.cons_ne_nil _ _) hdigits
  · rw [h, ← List.cons_append]
    exact .fraction (List.cons_ne_nil _ _) hdigits hmore

/-- A number that begins with a digit goes on behind that digit. -/
theorem numberLength_cons {c : Char} (hc : c.isDigit = true) (rest : List Char) :
    numberLength (c :: rest) = numberLength rest + 1 := by
  unfold numberLength
  have hrun : runLength Char.isDigit (c :: rest) = runLength Char.isDigit rest + 1 := by
    simp [runLength, hc]
  simp only [hrun, List.drop_succ_cons]
  split
  · split_ifs <;> omega
  · rfl

theorem first_number {p : Position} {c : Char} {rest : List Char}
    (h : (first p c rest).kind = .number) : (Number.read? (first p c rest).text).isSome = true := by
  obtain ⟨hfront, hlength⟩ := lexeme_number h
  have htext : (first p c rest).text.toList = c :: rest.take (numberLength rest) := by
    rw [← hlength]
    simp [first]
  rcases hfront with hc | ⟨rfl, hhead⟩
  · exact Number.read?_isSome (plainDecimal_cons hc rest) (.inl htext)
  · cases rest with
    | nil => simp at hhead
    | cons d rest =>
      have hd : d.isDigit = true := by simpa using hhead
      rw [numberLength_cons hd, List.take_succ_cons] at htext
      exact Number.read?_isSome (plainDecimal_cons hd rest) (.inr htext)

/-- Every number token of a text has a value. -/
theorem read?_isSome {p : Position} {text : List Char} {t : Token} (ht : t ∈ scanFrom p text)
    (hk : t.kind = .number) : (Number.read? t.text).isSome = true := by
  fun_induction scanFrom p text with
  | case1 p =>
    rw [List.mem_singleton] at ht
    rw [ht] at hk
    cases hk
  | case2 p c rest u ih =>
    rcases List.mem_cons.1 ht with rfl | ht
    · exact first_number hk
    · exact ih ht

end Token

end QuerySuite
