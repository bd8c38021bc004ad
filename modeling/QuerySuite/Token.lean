import QuerySuite.Position
import QuerySuite.Text

/-!
# Tokens

A token is a piece of a document with its kind, its text and the place where it starts. White
space and comments are tokens too: they are trivia, which the grammar does not see.

Trivia are collected from a token stream in source order. Each item knows whether an empty line
stands before it, which is decided by the newlines met since the last token that is not white space.

Results:

* `Token.Kind.isTrivia_iff`: trivia are white space and comments, nothing else.
-/

namespace QuerySuite

namespace Token

/-- The kinds of tokens. -/
inductive Kind where
  /-- A name, or a parameter such as `$name`. -/
  | ident
  /-- A string in double quotes. -/
  | string
  /-- A query body between backticks. -/
  | rawString
  /-- A query body whose closing backtick is missing. -/
  | unterminatedRaw
  | number
  | keyword
  | operator
  | dot
  | colon
  | comma
  | semicolon
  | lparen
  | rparen
  | lbracket
  | rbracket
  | lbrace
  | rbrace
  | whitespace
  | comment
  /-- Text that belongs to no other kind. -/
  | error
  /-- The end of the document. -/
  | eof
  deriving DecidableEq

namespace Kind

/-- White space and comments, which stand outside the grammar. -/
def isTrivia : Kind → Bool
  | whitespace => true
  | comment => true
  | _ => false

/-- How a message names a token of this kind. -/
def describe : Kind → String
  | ident => "identifier"
  | string => "string"
  | rawString => "query body"
  | unterminatedRaw => "unterminated query body"
  | number => "number"
  | keyword => "keyword"
  | operator => "operator"
  | dot => "'.'"
  | colon => "':'"
  | comma => "','"
  | semicolon => "';'"
  | lparen => "'('"
  | rparen => "')'"
  | lbracket => "'['"
  | rbracket => "']'"
  | lbrace => "'\x7b'"
  | rbrace => "'\x7d'"
  | whitespace => "whitespace"
  | comment => "comment"
  | error => "invalid character"
  | eof => "end of file"

/-- All kinds. -/
def all : List Kind :=
  [ident, string, rawString, unterminatedRaw, number, keyword, operator, dot, colon, comma,
    semicolon, lparen, rparen, lbracket, rbracket, lbrace, rbrace, whitespace, comment, error, eof]

/-- The name of the kind in listings of tokens. -/
def name : Kind → String
  | ident => "Ident"
  | string => "String"
  | rawString => "RawString"
  | unterminatedRaw => "UnterminatedRaw"
  | number => "Number"
  | keyword => "Keyword"
  | operator => "Operator"
  | dot => "Dot"
  | colon => "Colon"
  | comma => "Comma"
  | semicolon => "Semicolon"
  | lparen => "LParen"
  | rparen => "RParen"
  | lbracket => "LBracket"
  | rbracket => "RBracket"
  | lbrace => "LBrace"
  | rbrace => "RBrace"
  | whitespace => "Whitespace"
  | comment => "Comment"
  | error => "Error"
  | eof => "Eof"

theorem isTrivia_iff (k : Kind) : k.isTrivia = true ↔ k = whitespace ∨ k = comment := by
  cases k <;> simp [isTrivia]

end Kind

end Token

/-- A piece of a document: its kind, its text and the place of its first character. -/
structure Token where
  kind : Token.Kind
  text : String
  start : Position
  deriving DecidableEq

namespace Token

/-- The reserved words. -/
def keywords : List String :=
  ["import", "query", "setup", "teardown", "test", "group", "assert", "true", "false", "null"]

/-- The place just after the token. -/
def stop (t : Token) : Position := t.start.advance t.text.toList

/-- From the token's first character to the place just after it. -/
def span (t : Token) : Span := ⟨t.start, t.stop⟩

/-- White space or a comment. -/
def isTrivia (t : Token) : Bool := t.kind.isTrivia

/-- The reserved word `word`. -/
def isKeyword (t : Token) (word : String) : Bool := t.kind == .keyword && t.text == word

/-- A name, a parameter or a reserved word. -/
def isIdentLike (t : Token) : Bool := t.kind == .ident || t.kind == .keyword

/-- The text starts with the sigil `$`. -/
def isParameter (t : Token) : Bool := t.text.toList.head? == some '$'

/-- A plain name: an identifier that is no parameter. -/
def isName (t : Token) : Bool := t.kind == .ident && !t.isParameter

/-- The tokens the grammar sees, in order. -/
def significant (tokens : List Token) : List Token := tokens.filter (!·.isTrivia)

/-- How a message names this token: a reserved word by its text, a token whose kind leaves the text
open by both, and any other by its kind. -/
def describe (t : Token) : String :=
  match t.kind with
  | .keyword => s!"'{t.text}'"
  | .ident | .string | .number | .operator | .error => s!"{t.kind.describe} '{t.text}'"
  | k => k.describe

end Token

/-! ## Trivia -/

namespace Trivia

/-- The two kinds of trivia. -/
inductive Kind where
  | comment
  | whitespace
  deriving DecidableEq

end Trivia

/-- A comment or a run of white space outside the grammar. -/
structure Trivia where
  kind : Trivia.Kind
  text : String
  span : Span
  /-- An empty line separates the item from what stands before it. -/
  afterBlankLine : Bool
  deriving DecidableEq

namespace Trivia

/-- Collects the trivia of `tokens`, `newlines` having been met since the last token that is not
white space. A run of white space counts its own newlines; a comment ends the count. -/
def collectFrom (newlines : Nat) : List Token → List Trivia
  | [] => []
  | t :: rest =>
    match t.kind with
    | .whitespace =>
      let total := newlines + t.text.toList.count '\n'
      ⟨.whitespace, t.text, t.span, decide (2 ≤ total)⟩ :: collectFrom total rest
    | .comment => ⟨.comment, t.text, t.span, decide (2 ≤ newlines)⟩ :: collectFrom 0 rest
    | _ => collectFrom 0 rest

/-- The trivia of a token stream, in source order. -/
def collect (tokens : List Token) : List Trivia := collectFrom 0 tokens

/-- The item is a comment. -/
def isComment (t : Trivia) : Bool := t.kind == .comment

/-- What a comment says: its text without the marker `//` and without the blanks around it. -/
def body (t : Trivia) : String :=
  match t.text.toList with
  | '/' :: '/' :: rest => String.ofList (Text.trim rest)
  | text => String.ofList (Text.trim text)

end Trivia

end QuerySuite
