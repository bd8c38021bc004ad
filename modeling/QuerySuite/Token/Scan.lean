import QuerySuite.Token

/-!
# Scanning a document

`Token.scan` cuts a document into tokens. At each place the longest piece that one of the token
classes admits is taken, a reserved word before a name; a character no class admits is an error
token of its own, and an unterminated string is one error token that reaches as far as the string
could be read. The last token is always the end of the document.

A step says only how many characters follow the first one, so that nothing can be lost and every
token is at least one character long.

Results:

* `Token.scanFrom_cons`: the first token is the longest piece, and the rest is scanned after it.
* `Token.flatMap_text_scanFrom`: the texts of the tokens make up the document.
-/

namespace QuerySuite.Token

/-! ## Token classes -/

/-- The quote of query bodies. -/
def backtick : Char := Char.ofNat 96

/-- White space between tokens: blank, tab, carriage return, newline and form feed. -/
def isSpace (c : Char) : Bool :=
  c == ' ' || c == '\t' || c == '\r' || c == '\n' || c == '\x0c'

/-- First character of a name: a letter of ASCII or an underscore. -/
def isNameStart (c : Char) : Bool := c.isAlpha || c == '_'

/-- Further character of a name: a letter or digit of ASCII, or an underscore. -/
def isNameChar (c : Char) : Bool := c.isAlphanum || c == '_'

/-- How many characters at the front of `text` satisfy `p`. -/
def runLength (p : Char → Bool) (text : List Char) : Nat := (text.takeWhile p).length

theorem take_runLength (p : Char → Bool) (text : List Char) :
    text.take (runLength p text) = text.takeWhile p :=
  (List.prefix_iff_eq_take.1 (List.takeWhile_prefix p)).symm

theorem drop_runLength (p : Char → Bool) (text : List Char) :
    text.drop (runLength p text) = text.dropWhile p := by
  have h : text.takeWhile p ++ text.drop (runLength p text) =
      text.takeWhile p ++ text.dropWhile p := by
    rw [List.takeWhile_append_dropWhile, ← take_runLength, List.take_append_drop]
  exact List.append_cancel_left h

/-- How much of `text` goes on a number of which something has been read: digits, then a point
with at least one digit after it. -/
def numberLength (text : List Char) : Nat :=
  let whole := runLength Char.isDigit text
  match text.drop whole with
  | '.' :: d :: more => if d.isDigit then whole + 2 + runLength Char.isDigit more else whole
  | _ => whole

/-- Reads a string after its opening quote: whether the closing quote was found, and how many
characters were read, that quote included. A backslash takes the next character with it. Reading
stops before a newline, before the end, and before a backslash that has nothing to take. -/
def stringLength : List Char → Bool × Nat
  | [] => (false, 0)
  | '"' :: _ => (true, 1)
  | '\\' :: '\n' :: _ => (false, 0)
  | '\\' :: _ :: rest => let (closed, n) := stringLength rest; (closed, n + 2)
  | '\\' :: [] => (false, 0)
  | '\n' :: _ => (false, 0)
  | _ :: rest => let (closed, n) := stringLength rest; (closed, n + 1)

/-- A string, or what can be read of one that is not closed. -/
def stringLexeme (rest : List Char) : Kind × Nat :=
  match stringLength rest with
  | (true, n) => (.string, n)
  | (false, n) => (.error, n)

/-- A query body: up to the next backtick, or to the end of the document if there is none. -/
def rawLexeme (rest : List Char) : Kind × Nat :=
  let n := runLength (· != backtick) rest
  if n < rest.length then (.rawString, n + 1) else (.unterminatedRaw, n)

/-- A word is a reserved word or a name. -/
def wordLexeme (c : Char) (rest : List Char) : Kind × Nat :=
  let n := runLength isNameChar rest
  (if keywords.contains (String.ofList (c :: rest.take n)) then .keyword else .ident, n)

/-- Operators, brackets and punctuation, by their first character and the one after it. -/
def symbolLexeme (c : Char) (rest : List Char) : Kind × Nat :=
  match c with
  | '(' => (.lparen, 0)
  | ')' => (.rparen, 0)
  | '[' => (.lbracket, 0)
  | ']' => (.rbracket, 0)
  | '\x7b' => (.lbrace, 0)
  | '\x7d' => (.rbrace, 0)
  | ',' => (.comma, 0)
  | ':' => (.colon, 0)
  | ';' => (.semicolon, 0)
  | '.' => (.dot, 0)
  | '+' | '*' | '%' => (.operator, 0)
  | '=' | '!' | '<' | '>' => (.operator, if rest.head? = some '=' then 1 else 0)
  | '&' => if rest.head? = some '&' then (.operator, 1) else (.error, 0)
  | '|' => if rest.head? = some '|' then (.operator, 1) else (.error, 0)
  | '/' =>
    if rest.head? = some '/' then (.comment, runLength (· != '\n') rest) else (.operator, 0)
  | '-' => if rest.head?.any Char.isDigit then (.number, numberLength rest) else (.operator, 0)
  | _ => (.error, 0)

/-- What stands at the front of the text `c :: rest`: its kind, and how many characters of `rest`
belong to it. -/
def lexeme (c : Char) (rest : List Char) : Kind × Nat :=
  if isSpace c then (.whitespace, runLength isSpace rest)
  else if isNameStart c then wordLexeme c rest
  else if c = '$' then (.ident, runLength isNameChar rest)
  else if c.isDigit then (.number, numberLength rest)
  else if c = '"' then stringLexeme rest
  else if c = backtick then rawLexeme rest
  else symbolLexeme c rest

/-! ## The token stream -/

/-- The token at the front of `c :: rest`, which starts at `p`. -/
def first (p : Position) (c : Char) (rest : List Char) : Token :=
  let (kind, n) := lexeme c rest
  ⟨kind, String.ofList (c :: rest.take n), p⟩

/-- What is left of `c :: rest` after its first token. -/
def afterFirst (c : Char) (rest : List Char) : List Char := rest.drop (lexeme c rest).2

theorem length_afterFirst_le (c : Char) (rest : List Char) :
    (afterFirst c rest).length ≤ rest.length := by
  rw [afterFirst, List.length_drop]
  omega

/-- The end of a document at `p`. -/
def endOfFile (p : Position) : Token := ⟨.eof, "", p⟩

/-- The tokens of a text that starts at `p`, the end of the document last. -/
def scanFrom (p : Position) : List Char → List Token
  | [] => [endOfFile p]
  | c :: rest =>
    let t := first p c rest
    t :: scanFrom t.stop (afterFirst c rest)
termination_by text => text.length
decreasing_by exact Nat.lt_succ_of_le (length_afterFirst_le c rest)

/-- The tokens of a document. -/
def scan (source : String) : List Token := scanFrom .start source.toList

theorem scanFrom_nil (p : Position) : scanFrom p [] = [endOfFile p] := by rw [scanFrom]

theorem scanFrom_cons (p : Position) (c : Char) (rest : List Char) :
    scanFrom p (c :: rest)
      = first p c rest :: scanFrom (first p c rest).stop (afterFirst c rest) := by
  rw [scanFrom]

/-- A token and what is left after it make up the text. -/
theorem text_first_append (p : Position) (c : Char) (rest : List Char) :
    (first p c rest).text.toList ++ afterFirst c rest = c :: rest := by
  simp [first, afterFirst]

/-- The texts of the tokens make up the document. -/
theorem flatMap_text_scanFrom (p : Position) (text : List Char) :
    (scanFrom p text).flatMap (·.text.toList) = text := by
  fun_induction scanFrom p text with
  | case1 => simp [endOfFile]
  | case2 p c rest t ih =>
    rw [List.flatMap_cons, ih]
    exact text_first_append p c rest

end QuerySuite.Token
