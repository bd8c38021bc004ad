import Mathlib.Computability.Language
import QuerySuite.Token.Scan

/-!
# Patterns of tokens

What a token can look like, said without the scanner: each class of tokens is a regular expression
with the kind of the tokens that it describes. Characters are given by their ranges.

Results:

* `Pattern.mem_many_oneOf_iff`, `Pattern.mem_repeated_oneOf_iff`: runs of characters of a class.
* `Token.mem_stringUnits_cons_iff`: the inside of a string, one unit after another.
* `Token.admits_iff`: the pieces of text that the classes admit.
-/

namespace QuerySuite

open scoped Computability

/-! ## Regular expressions -/

/-- Regular expressions over characters. -/
inductive Pattern where
  /-- Exactly this text. -/
  | text (word : String)
  /-- One character of a class. -/
  | oneOf (p : Char → Bool)
  /-- One after the other. -/
  | seq (a b : Pattern)
  | either (a b : Pattern)
  /-- Any number of times. -/
  | many (a : Pattern)

namespace Pattern

/-- The texts that a regular expression matches. -/
def language : Pattern → Language Char
  | text word => {word.toList}
  | oneOf p => {w | ∃ c, p c = true ∧ w = [c]}
  | seq a b => a.language * b.language
  | either a b => a.language + b.language
  | many a => a.language∗

/-- Once or more. -/
def repeated (a : Pattern) : Pattern := seq a (many a)

/-- Once or not at all. -/
def optional (a : Pattern) : Pattern := either (text "") a

variable {a b : Pattern} {p : Char → Bool} {w : List Char}

@[simp]
theorem mem_text_iff {word : String} : w ∈ (text word).language ↔ w = word.toList := Iff.rfl

@[simp]
theorem mem_oneOf_iff : w ∈ (oneOf p).language ↔ ∃ c, p c = true ∧ w = [c] := Iff.rfl

theorem mem_seq_iff :
    w ∈ (seq a b).language ↔ ∃ u ∈ a.language, ∃ v ∈ b.language, u ++ v = w := Language.mem_mul

theorem mem_either_iff : w ∈ (either a b).language ↔ w ∈ a.language ∨ w ∈ b.language :=
  Language.mem_add _ _ _

theorem mem_optional_iff : w ∈ (optional a).language ↔ w = [] ∨ w ∈ a.language := mem_either_iff

theorem nil_mem_many (a : Pattern) : [] ∈ (many a).language := Language.nil_mem_kstar _

/-- A fixed text and something behind it. -/
theorem mem_text_seq_iff {word : String} :
    w ∈ (seq (text word) b).language ↔ ∃ v ∈ b.language, w = word.toList ++ v := by
  rw [mem_seq_iff]
  constructor
  · rintro ⟨u, rfl, v, hv, rfl⟩
    exact ⟨v, hv, rfl⟩
  · rintro ⟨v, hv, rfl⟩
    exact ⟨word.toList, rfl, v, hv, rfl⟩

/-- One character and something behind it. -/
theorem mem_oneOf_seq_iff :
    w ∈ (seq (oneOf p) b).language ↔ ∃ c v, p c = true ∧ v ∈ b.language ∧ w = c :: v := by
  rw [mem_seq_iff]
  constructor
  · rintro ⟨u, ⟨c, hc, rfl⟩, v, hv, rfl⟩
    exact ⟨c, v, hc, hv, rfl⟩
  · rintro ⟨c, v, hc, hv, rfl⟩
    exact ⟨[c], ⟨c, hc, rfl⟩, v, hv, rfl⟩

theorem append_mem_many {u v : List Char} (hu : u ∈ a.language) (hv : v ∈ (many a).language) :
    u ++ v ∈ (many a).language :=
  mul_kstar_le_kstar (a := a.language) (Language.append_mem_mul hu hv)

/-- A repetition that is not empty begins with a part that is not empty. -/
theorem exists_of_mem_many {c : Char} (h : c :: w ∈ (many a).language) :
    ∃ u v, c :: u ∈ a.language ∧ v ∈ (many a).language ∧ w = u ++ v := by
  obtain ⟨parts, hparts, hmem⟩ := Language.mem_kstar_iff_exists_nonempty.1 h
  cases parts with
  | nil => cases hparts
  | cons part parts =>
    obtain ⟨hpart, hne⟩ := hmem part List.mem_cons_self
    obtain ⟨d, u, rfl⟩ := List.exists_cons_of_ne_nil hne
    obtain ⟨rfl, rfl⟩ := List.cons.inj hparts
    refine ⟨u, parts.flatten, hpart, ?_, rfl⟩
    exact Language.join_mem_kstar fun x hx => (hmem x (List.mem_cons_of_mem _ hx)).1

/-- A run of characters of a class. -/
theorem mem_many_oneOf_iff : w ∈ (many (oneOf p)).language ↔ ∀ c ∈ w, p c = true := by
  induction w with
  | nil => simpa using nil_mem_many (oneOf p)
  | cons c w ih =>
    rw [List.forall_mem_cons, ← ih]
    constructor
    · intro h
      obtain ⟨u, v, ⟨d, hd, hu⟩, hv, rfl⟩ := exists_of_mem_many h
      cases hu
      exact ⟨hd, hv⟩
    · rintro ⟨hc, hw⟩
      exact append_mem_many (u := [c]) ⟨c, hc, rfl⟩ hw

/-- A run of characters of a class that is not empty. -/
theorem mem_repeated_oneOf_iff :
    w ∈ (repeated (oneOf p)).language ↔ w ≠ [] ∧ ∀ c ∈ w, p c = true := by
  rw [repeated, mem_oneOf_seq_iff]
  constructor
  · rintro ⟨c, v, hc, hv, rfl⟩
    exact ⟨List.cons_ne_nil _ _, List.forall_mem_cons.2 ⟨hc, mem_many_oneOf_iff.1 hv⟩⟩
  · rintro ⟨hne, hall⟩
    obtain ⟨c, v, rfl⟩ := List.exists_cons_of_ne_nil hne
    obtain ⟨hc, hv⟩ := List.forall_mem_cons.1 hall
    exact ⟨c, v, hc, mem_many_oneOf_iff.2 hv, rfl⟩

end Pattern

namespace Token

/-! ## Classes of tokens -/

/-- The character lies between `first` and `last`. -/
def within (first last c : Char) : Bool := decide (first ≤ c) && decide (c ≤ last)

/-- One of the ten digits. -/
def digit : Pattern := .oneOf (within '0' '9')

/-- A letter of ASCII or an underscore. -/
def letter : Pattern := .oneOf fun c => within 'a' 'z' c || within 'A' 'Z' c || c == '_'

/-- A letter of ASCII, a digit or an underscore. -/
def wordCharacter : Pattern :=
  .oneOf fun c => within 'a' 'z' c || within 'A' 'Z' c || within '0' '9' c || c == '_'

/-- Digits, perhaps with a minus before them, perhaps with a point and digits behind them. -/
def numberPattern : Pattern :=
  .seq (.optional (.text "-"))
    (.seq (.repeated digit) (.optional (.seq (.text ".") (.repeated digit))))

/-- A unit of a string: a character other than the quote, the backslash and the newline, or a
backslash with any character but the newline behind it. -/
def stringUnit : Pattern :=
  .either (.oneOf fun c => c != '"' && c != '\\' && c != '\n')
    (.seq (.text "\\") (.oneOf (· != '\n')))

/-- A string up to a place before its closing quote. -/
def openString : Pattern := .seq (.text "\"") (.many stringUnit)

/-- A string between double quotes. -/
def stringPattern : Pattern := .seq (.text "\"") (.seq (.many stringUnit) (.text "\""))

/-- A query body between backticks. -/
def rawPattern : Pattern := .seq (.text "`") (.seq (.many (.oneOf (· != backtick))) (.text "`"))

/-- A query body without its closing backtick. -/
def openRawPattern : Pattern := .seq (.text "`") (.many (.oneOf (· != backtick)))

/-- A name. -/
def namePattern : Pattern := .seq letter (.many wordCharacter)

/-- A parameter: the sigil and what may follow in a name. -/
def parameterPattern : Pattern := .seq (.text "$") (.many wordCharacter)

/-- Blanks, tabs, carriage returns, newlines and form feeds. -/
def spacePattern : Pattern :=
  .repeated (.oneOf fun c => [' ', '\t', '\r', '\n', '\x0c'].contains c)

/-- Two slashes and the rest of the line. -/
def commentPattern : Pattern := .seq (.text "//") (.many (.oneOf (· != '\n')))

/-- The tokens that always have the same text, the reserved words apart. -/
def symbols : List (Kind × String) :=
  [(.operator, "=="), (.operator, "!="), (.operator, "<="), (.operator, ">="), (.operator, "<"),
    (.operator, ">"), (.operator, "&&"), (.operator, "||"), (.operator, "!"), (.operator, "="),
    (.operator, "+"), (.operator, "-"), (.operator, "*"), (.operator, "/"), (.operator, "%"),
    (.lparen, "("), (.rparen, ")"), (.lbrace, "\x7b"), (.rbrace, "\x7d"), (.lbracket, "["),
    (.rbracket, "]"), (.comma, ","), (.colon, ":"), (.semicolon, ";"), (.dot, ".")]

/-- The classes whose tokens differ in their texts. -/
def openClasses : List (Kind × Pattern) :=
  [(.number, numberPattern), (.string, stringPattern), (.rawString, rawPattern),
    (.unterminatedRaw, openRawPattern), (.ident, namePattern), (.ident, parameterPattern),
    (.whitespace, spacePattern), (.comment, commentPattern)]

/-- The classes of tokens: the kind and the pattern of each. -/
def classes : List (Kind × Pattern) :=
  keywords.map (fun word => (.keyword, .text word)) ++
    symbols.map (fun s => (s.1, .text s.2)) ++ openClasses

/-- A class of the kind `k` admits the text `w`. -/
def Admits (k : Kind) (w : List Char) : Prop := ∃ p, (k, p) ∈ classes ∧ w ∈ p.language

/-- The pieces of text that the classes admit. -/
theorem admits_iff {k : Kind} {w : List Char} :
    Admits k w ↔ (k = .keyword ∧ ∃ word ∈ keywords, w = word.toList) ∨
      (∃ word, (k, word) ∈ symbols ∧ w = word.toList) ∨
      ∃ p, (k, p) ∈ openClasses ∧ w ∈ p.language := by
  unfold Admits classes
  constructor
  · rintro ⟨p, hp, hw⟩
    rcases List.mem_append.1 hp with hp | hp
    · rcases List.mem_append.1 hp with hp | hp
      · obtain ⟨word, hword, heq⟩ := List.mem_map.1 hp
        cases heq
        exact .inl ⟨rfl, word, hword, hw⟩
      · obtain ⟨⟨k', word⟩, hword, heq⟩ := List.mem_map.1 hp
        cases heq
        exact .inr (.inl ⟨word, hword, hw⟩)
    · exact .inr (.inr ⟨p, hp, hw⟩)
  · rintro (⟨rfl, word, hword, hw⟩ | ⟨word, hword, hw⟩ | ⟨p, hp, hw⟩)
    · exact ⟨.text word, List.mem_append_left _ (List.mem_append_left _
        (List.mem_map.2 ⟨word, hword, rfl⟩)), hw⟩
    · exact ⟨.text word, List.mem_append_left _ (List.mem_append_right _
        (List.mem_map.2 ⟨(k, word), hword, rfl⟩)), hw⟩
    · exact ⟨p, List.mem_append_right _ hp, hw⟩

/-! ## Strings by units -/

/-- The inside of a string begins with a plain character or with a backslash that takes the next
character with it. -/
theorem mem_stringUnits_cons_iff {c : Char} {w : List Char} :
    c :: w ∈ (Pattern.many stringUnit).language ↔
      (c ≠ '"' ∧ c ≠ '\\' ∧ c ≠ '\n' ∧ w ∈ (Pattern.many stringUnit).language) ∨
      ∃ d v, c = '\\' ∧ d ≠ '\n' ∧ w = d :: v ∧ v ∈ (Pattern.many stringUnit).language := by
  constructor
  · intro h
    obtain ⟨u, v, hunit, hv, rfl⟩ := Pattern.exists_of_mem_many h
    rcases Pattern.mem_either_iff.1 hunit with ⟨d, hd, heq⟩ | hescape
    · cases heq
      simp only [Bool.and_eq_true, bne_iff_ne] at hd
      exact .inl ⟨hd.1.1, hd.1.2, hd.2, hv⟩
    · obtain ⟨x, ⟨d, hd, rfl⟩, heq⟩ := Pattern.mem_text_seq_iff.1 hescape
      cases heq
      exact .inr ⟨d, v, rfl, bne_iff_ne.1 hd, rfl, hv⟩
  · rintro (⟨hquote, hslash, hline, hw⟩ | ⟨d, v, rfl, hd, rfl, hv⟩)
    · refine Pattern.append_mem_many (u := [c]) (Pattern.mem_either_iff.2 (.inl ⟨c, ?_, rfl⟩)) hw
      simp [hquote, hslash, hline]
    · refine Pattern.append_mem_many (u := ['\\', d]) (Pattern.mem_either_iff.2 (.inr ?_)) hv
      exact Pattern.mem_text_seq_iff.2 ⟨[d], ⟨d, bne_iff_ne.2 hd, rfl⟩, rfl⟩

end Token

end QuerySuite
