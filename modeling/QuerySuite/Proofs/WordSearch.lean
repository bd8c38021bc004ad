import Mathlib
import QuerySuite.QueryBody

/-!
# Looking for words in a text

The words of the query language are looked for at every place of a text, in any case of letters,
and count only where they stand alone. In a text that is made of names with other characters between
them, such a word can only be found where a name begins, and there only if it is the whole name.

A search is a test of a place, which is told by the character before it and the text behind it.

Results:

* `QueryBody.wordAt?_name`: a word is found at a name exactly if it is that name.
* `QueryBody.wordPairAt?_name`: when no pair of words is found at a name.
* `QueryBody.PassesOver.of_name`, `QueryBody.PassesOver.of_mark`: a search for words passes over a
  name as a whole, and over every character that is no part of a word.
* `QueryBody.cutClause_append`, `QueryBody.afterReturn?_append`: what a search passes over is kept,
  and does not matter.
-/

namespace QuerySuite

/-! ## Characters of words -/

namespace Text

/-- The characters of names are characters of words. -/
theorem isWord_of_isNameChar {c : Char} (h : Token.isNameChar c = true) : isWord c = true := by
  have hranges : wordRanges = (48, 57) :: (65, 90) :: (95, 95) :: (97, 122) :: wordRanges.drop 4 :=
    rfl
  have hc : (48 ≤ c.toNat ∧ c.toNat ≤ 57) ∨ (65 ≤ c.toNat ∧ c.toNat ≤ 90) ∨ c.toNat = 95 ∨
      (97 ≤ c.toNat ∧ c.toNat ≤ 122) := by
    simp only [Token.isNameChar, Char.isAlphanum, Char.isAlpha, Char.isUpper, Char.isLower,
      Char.isDigit, Bool.or_eq_true, Bool.and_eq_true, decide_eq_true_eq, beq_iff_eq] at h
    rcases h with ((h | h) | h) | rfl
    · exact .inr (.inl h)
    · exact .inr (.inr (.inr h))
    · exact .inl h
    · exact .inr (.inr (.inl rfl))
  rw [isWord, hranges]
  simp only [inRanges, Bool.and_eq_true, Bool.or_eq_true, decide_eq_true_eq]
  omega

theorem dropWhile_of_head? {p : Char → Bool} {text : List Char}
    (h : ∀ c ∈ text.head?, p c = false) : text.dropWhile p = text := by
  cases text with
  | nil => rfl
  | cons c text => rw [List.dropWhile_cons_of_neg (by simp [h c rfl])]

/-- The code points of blanks. -/
def blankPoints : List Nat :=
  [9, 10, 11, 12, 13, 0x20, 0x85, 0xA0, 0x1680, 0x2000, 0x2001, 0x2002, 0x2003, 0x2004, 0x2005,
    0x2006, 0x2007, 0x2008, 0x2009, 0x200A, 0x2028, 0x2029, 0x202F, 0x205F, 0x3000]

/-- No blank is part of a word. -/
theorem isWord_eq_false_of_isBlank {c : Char} (h : isBlank c = true) : isWord c = false := by
  have hpoint : c.toNat ∈ blankPoints := by
    simp only [isBlank, Bool.or_eq_true, Bool.and_eq_true, decide_eq_true_eq, beq_iff_eq] at h
    simp only [blankPoints, List.mem_cons, List.not_mem_nil, or_false]
    omega
  have hnone : ∀ n ∈ blankPoints, inRanges n wordRanges = false := by decide +kernel
  exact hnone _ hpoint

end Text

namespace QueryBody

/-- Among the characters of names, only a letter in either case stands for a letter. -/
theorem isLetter_of_isNameChar {c : Char} (h : Token.isNameChar c = true) (letter : Char) :
    isLetter letter c = (c.toLower == letter) := by
  have hother {d : Char} (hd : Token.isNameChar d = false) : (c == d) = false := by
    rw [beq_eq_false_iff_ne]
    rintro rfl
    rw [h] at hd
    cases hd
  rw [isLetter, hother (by decide), hother (by decide), Bool.and_false, Bool.and_false,
    Bool.or_false, Bool.or_false]

/-- What stands for a letter is part of a word. -/
theorem isWord_of_isLetter {letter c : Char} (hletter : letter.isLower = true)
    (h : isLetter letter c = true) : Text.isWord c = true := by
  simp only [isLetter, Bool.or_eq_true, Bool.and_eq_true, beq_iff_eq] at h
  rcases h with (rfl | ⟨-, rfl⟩) | ⟨-, rfl⟩
  · have hc : c.isAlpha = true := by
      unfold Char.toLower at hletter
      rw [Char.isAlpha, Bool.or_eq_true]
      split_ifs at hletter with hupper
      · exact .inl (by simpa [Char.isUpper] using hupper)
      · exact .inr hletter
    exact Text.isWord_of_isNameChar (by simp [Token.isNameChar, Char.isAlphanum, hc])
  · decide
  · decide +kernel

/-! ## Names -/

/-- The name is the word, in any case of letters. -/
def isSpelled (word : String) (name : List Char) : Bool := name.map Char.toLower == word.toList

/-- A word is made of small letters. -/
def IsWord (word : String) : Prop := word ≠ "" ∧ word.toList.all Char.isLower = true

instance (word : String) : Decidable (IsWord word) := inferInstanceAs (Decidable (_ ∧ _))

theorem IsWord.isLower {word : String} (h : IsWord word) :
    ∀ letter ∈ word.toList, letter.isLower = true := List.all_eq_true.1 h.2

theorem endsWord_iff {text : List Char} :
    endsWord text = true ↔ ∀ c ∈ text.head?, Text.isWord c = false := by
  cases text <;> simp [endsWord]

variable {name rest : List Char}

theorem isNameChar_of_isName (h : isName name = true) : ∀ c ∈ name, Token.isNameChar c = true := by
  cases name with
  | nil => simp
  | cons d name =>
    rw [isName, Bool.and_eq_true, List.all_eq_true] at h
    intro c hc
    rcases List.mem_cons.1 hc with rfl | hc
    · have hstart := h.1
      simp only [Token.isNameStart, Bool.or_eq_true] at hstart
      rcases hstart with hstart | hstart
      · simp [Token.isNameChar, Char.isAlphanum, hstart]
      · simp [Token.isNameChar, hstart]
    · exact h.2 c hc

theorem isWord_of_isName (h : isName name = true) : ∀ c ∈ name, Text.isWord c = true :=
  fun c hc => Text.isWord_of_isNameChar (isNameChar_of_isName h c hc)

/-- A word is read off the front of a text as a word that stands alone exactly if the name there
is that word. -/
theorem filter_spell?_append {word : List Char} (hword : ∀ letter ∈ word, letter.isLower = true)
    (hname : ∀ c ∈ name, Token.isNameChar c = true) (hrest : endsWord rest = true) :
    (spell? word (name ++ rest)).filter endsWord =
      if name.map Char.toLower = word then some rest else none := by
  induction word generalizing name with
  | nil =>
    cases name with
    | nil => simp [spell?, hrest]
    | cons c name =>
      have hc := Text.isWord_of_isNameChar (hname c List.mem_cons_self)
      simp [spell?, endsWord, hc]
  | cons letter word ih =>
    obtain ⟨hletter, hword⟩ := List.forall_mem_cons.1 hword
    cases name with
    | nil =>
      cases rest with
      | nil => rfl
      | cons d rest =>
        have hd : isLetter letter d = false := by
          rw [← Bool.not_eq_true]
          intro hd
          have hnot := endsWord_iff.1 hrest d rfl
          rw [isWord_of_isLetter hletter hd] at hnot
          cases hnot
        simp [spell?, hd]
    | cons c name =>
      obtain ⟨hc, hname⟩ := List.forall_mem_cons.1 hname
      rw [List.cons_append, spell?, isLetter_of_isNameChar hc, List.map_cons]
      by_cases heq : c.toLower = letter
      · rw [if_pos (beq_iff_eq.2 heq), ih hword hname, heq]
        simp
      · rw [if_neg (by simpa using heq), if_neg (by simp [heq])]
        rfl

/-- At a name that stands alone, a word is found exactly if it is that name. -/
theorem wordAt?_name {word : String} (hword : IsWord word) (hname : isName name = true)
    {before : Option Char} (hbefore : before.any Text.isWord = false)
    (hrest : endsWord rest = true) :
    wordAt? word before (name ++ rest) = if isSpelled word name then some rest else none := by
  rw [wordAt?, hbefore, if_neg Bool.false_ne_true,
    filter_spell?_append hword.isLower (isNameChar_of_isName hname) hrest]
  simp [isSpelled]

/-- What a pair of words that was found says of the text. -/
theorem exists_of_wordPairAt? {first second : String} {before : Option Char}
    {text after : List Char} (h : wordPairAt? first second before text = some after) :
    before.any Text.isWord = false ∧ ∃ middle, spell? first.toList text = some middle ∧
      middle.head?.any Text.isBlank = true ∧
        spell? second.toList (middle.dropWhile Text.isBlank) = some after := by
  simp only [wordPairAt?, Option.bind_eq_bind] at h
  split_ifs at h with hbefore
  · cases h
  · obtain ⟨middle, hfirst, h⟩ := Option.bind_eq_some_iff.1 h
    refine ⟨Bool.eq_false_iff.2 hbefore, middle, hfirst, ?_⟩
    split_ifs at h with hblank
    · cases h
    · obtain ⟨last, hsecond, h⟩ := Option.bind_eq_some_iff.1 h
      split_ifs at h
      cases h
      exact ⟨by simpa using hblank, hsecond⟩

/-- At a name no pair of words is found, if the name is not the first word or the second does not
follow. -/
theorem wordPairAt?_name {first second : String} (hfirst : IsWord first)
    (hname : isName name = true) (before : Option Char) (hrest : endsWord rest = true)
    (hsecond : isSpelled first name = true →
      spell? second.toList (rest.dropWhile Text.isBlank) = none) :
    wordPairAt? first second before (name ++ rest) = none := by
  rw [Option.eq_none_iff_forall_ne_some]
  intro after h
  obtain ⟨-, middle, hspell, hblank, hafter⟩ := exists_of_wordPairAt? h
  have hend : endsWord middle = true := by
    rw [endsWord_iff]
    intro c hc
    rw [hc] at hblank
    exact Text.isWord_eq_false_of_isBlank hblank
  -- The blank ends the first word, which is then the whole name.
  have hwhole := filter_spell?_append hfirst.isLower (isNameChar_of_isName hname) hrest
  rw [hspell, Option.filter_some, if_pos hend] at hwhole
  split_ifs at hwhole with heq
  obtain rfl := Option.some_inj.1 hwhole
  rw [hsecond (by simpa [isSpelled] using heq)] at hafter
  cases hafter

/-! ## Searches -/

/-- The character before the place behind `text`, where `before` stands before it. -/
def charBefore (before : Option Char) (text : List Char) : Option Char :=
  text.foldl (fun _ c => some c) before

theorem charBefore_singleton (before : Option Char) (c : Char) : charBefore before [c] = some c :=
  rfl

theorem charBefore_concat (before : Option Char) (text : List Char) (c : Char) :
    charBefore before (text ++ [c]) = some c := by
  simp [charBefore]

/-- The test holds at no place in `text`, from its first character to its last, where `rest` stands
behind it. -/
def PassesOver (test : Option Char → List Char → Bool) (rest : List Char) :
    Option Char → List Char → Prop
  | _, [] => True
  | before, c :: text =>
    test before (c :: text ++ rest) = false ∧ PassesOver test rest (some c) text

/-- The test holds only where a word begins. -/
structure FindsWords (test : Option Char → List Char → Bool) : Prop where
  inside (before : Option Char) (text : List Char) :
    before.any Text.isWord = true → test before text = false
  outside (before : Option Char) (text : List Char) :
    endsWord text = true → test before text = false

theorem FindsWords.or {test test' : Option Char → List Char → Bool} (h : FindsWords test)
    (h' : FindsWords test') : FindsWords fun before text => test before text || test' before text :=
  ⟨fun before text hb => by rw [h.inside before text hb, h'.inside before text hb]; rfl,
    fun before text ht => by rw [h.outside before text ht, h'.outside before text ht]; rfl⟩

theorem spell?_eq_none_of_endsWord {word : String} (hword : IsWord word) {text : List Char}
    (h : endsWord text = true) : spell? word.toList text = none := by
  obtain ⟨letter, letters, hletters⟩ :=
    List.exists_cons_of_ne_nil (mt String.toList_eq_nil_iff.1 hword.1)
  have hletter : letter.isLower = true :=
    hword.isLower letter (by rw [hletters]; exact List.mem_cons_self)
  rw [hletters]
  cases text with
  | nil => rfl
  | cons c text =>
    rw [spell?, if_neg]
    intro hc
    have hnot := endsWord_iff.1 h c rfl
    rw [isWord_of_isLetter hletter hc] at hnot
    cases hnot

theorem findsWords_wordAt? {word : String} (hword : IsWord word) :
    FindsWords fun before text => (wordAt? word before text).isSome := by
  constructor
  · intro before text hbefore
    rw [wordAt?, if_pos hbefore]
    rfl
  · intro before text htext
    rw [wordAt?, spell?_eq_none_of_endsWord hword htext]
    split_ifs <;> rfl

theorem findsWords_wordPairAt? {first : String} (hfirst : IsWord first) (second : String) :
    FindsWords fun before text => (wordPairAt? first second before text).isSome := by
  constructor
  · intro before text hbefore
    rw [Option.isSome_eq_false_iff, Option.isNone_iff_eq_none, Option.eq_none_iff_forall_ne_some]
    intro after h
    rw [(exists_of_wordPairAt? h).1] at hbefore
    cases hbefore
  · intro before text htext
    rw [Option.isSome_eq_false_iff, Option.isNone_iff_eq_none, Option.eq_none_iff_forall_ne_some]
    intro after h
    obtain ⟨-, middle, hspell, -⟩ := exists_of_wordPairAt? h
    rw [spell?_eq_none_of_endsWord hfirst htext] at hspell
    cases hspell

/-- The end of a clause is marked by words. -/
theorem findsWords_endsClause : FindsWords endsClause :=
  (((findsWords_wordPairAt? (by decide) "by").or (findsWords_wordAt? (by decide))).or
    (findsWords_wordAt? (by decide))).or (findsWords_wordAt? (by decide))

namespace PassesOver

variable {test : Option Char → List Char → Bool} {before : Option Char} {u v : List Char}

theorem append (hu : PassesOver test (v ++ rest) before u)
    (hv : PassesOver test rest (charBefore before u) v) : PassesOver test rest before (u ++ v) := by
  induction u generalizing before with
  | nil => exact hv
  | cons c u ih =>
    refine ⟨?_, ih hu.2 hv⟩
    have htest := hu.1
    rwa [← List.append_assoc] at htest

/-- A search for words passes over what is no part of a word. -/
theorem of_mark (h : FindsWords test) {c : Char} (hc : Text.isWord c = false) :
    PassesOver test rest before [c] :=
  ⟨h.outside _ _ (endsWord_iff.2 (by simpa using hc)), trivial⟩

/-- Within a word nothing is found. -/
theorem inside (h : FindsWords test) (hbefore : before.any Text.isWord = true)
    (hu : ∀ c ∈ u, Text.isWord c = true) : PassesOver test rest before u := by
  induction u generalizing before with
  | nil => trivial
  | cons c u ih =>
    obtain ⟨hc, hu⟩ := List.forall_mem_cons.1 hu
    exact ⟨h.inside _ _ hbefore, ih hc hu⟩

/-- A search for words passes over a name as a whole, if it finds nothing where the name begins. -/
theorem of_name (h : FindsWords test) (hname : isName u = true)
    (htest : test before (u ++ rest) = false) : PassesOver test rest before u := by
  have hword := isWord_of_isName hname
  cases u with
  | nil => trivial
  | cons c u =>
    obtain ⟨hc, hu⟩ := List.forall_mem_cons.1 hword
    exact ⟨htest, inside h hc hu⟩

end PassesOver

/-- What the search for the end of a clause passes over is kept. -/
theorem cutClause_append {before : Option Char} {text : List Char}
    (h : PassesOver endsClause rest before text) :
    cutClause before (text ++ rest) = text ++ cutClause (charBefore before text) rest := by
  induction text generalizing before with
  | nil => rfl
  | cons c text ih =>
    have htest := h.1
    rw [List.cons_append] at htest ⊢
    rw [cutClause, htest, if_neg Bool.false_ne_true, ih h.2]
    rfl

theorem cutClause_of_endsClause {before : Option Char} {text : List Char}
    (h : endsClause before text = true) : cutClause before text = [] := by
  cases text with
  | nil => rfl
  | cons c text => rw [cutClause, if_pos h]

/-- The word RETURN stands alone at the place. -/
def beginsClause (before : Option Char) (text : List Char) : Bool :=
  (wordAt? "return" before text).isSome

theorem findsWords_beginsClause : FindsWords beginsClause := findsWords_wordAt? (by decide)

/-- What the search for the word RETURN passes over does not matter. -/
theorem afterReturn?_append {before : Option Char} {text : List Char}
    (h : PassesOver beginsClause rest before text) :
    afterReturn? before (text ++ rest) = afterReturn? (charBefore before text) rest := by
  induction text generalizing before with
  | nil => rfl
  | cons c text ih =>
    have htest := h.1
    rw [beginsClause, Option.isSome_eq_false_iff, Option.isNone_iff_eq_none, List.cons_append]
      at htest
    rw [List.cons_append, afterReturn?, htest, ih h.2]
    cases hlast : afterReturn? (charBefore (some c) text) rest with
    | none => exact hlast.symm
    | some clause => exact hlast.symm

/-- What stands before a word RETURN that was found does not matter. -/
theorem afterReturn?_of_some {before : Option Char} {text clause : List Char}
    (h : afterReturn? (charBefore before text) rest = some clause) :
    afterReturn? before (text ++ rest) = some clause := by
  induction text generalizing before with
  | nil => exact h
  | cons c text ih => rw [List.cons_append, afterReturn?, ih h]

end QueryBody

end QuerySuite
