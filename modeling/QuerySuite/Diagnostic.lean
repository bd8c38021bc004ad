import QuerySuite.Token

/-!
# Errors and diagnostics

What can go wrong when a document is read, where it went wrong, and the message for each cause.
Several errors can be held together as one.

A diagnostic tells of a problem at a place of a document: how severe it is, what it is, and which
tool found it.

Results:

* `ParseError.flatten_of_ne_multiple`: an error with a place of its own is its only part.
-/

namespace QuerySuite

/-! ## Errors of reading -/

/-- A cause for which a document cannot be read, with its place. -/
inductive ParseError where
  /-- Another token stands where `expected` was required. -/
  | unexpectedToken (expected found : String) (span : Span)
  /-- The document ends where `expected` was required. -/
  | unexpectedEof (expected : String) (span : Span)
  /-- A query body has no closing backtick. -/
  | unterminatedBody (span : Span)
  /-- Text that is no token. -/
  | invalidCharacter (text : String) (span : Span)
  /-- A clause that may stand only once stands again. -/
  | duplicate (what : String) (span : Span)
  /-- Several errors together. -/
  | multiple (errors : List ParseError)

namespace ParseError

instance : Inhabited ParseError := ⟨multiple []⟩

/-- The error for finding `found` where `expected` was required. -/
def unexpected (expected : String) (found : Token) : ParseError :=
  match found.kind with
  | .eof => unexpectedEof expected found.span
  | .unterminatedRaw => unterminatedBody found.span
  | .error => invalidCharacter found.text found.span
  | _ => unexpectedToken expected found.describe found.span

/-- Several errors as one; a single one stands for itself. -/
def ofList : List ParseError → Option ParseError
  | [] => none
  | [e] => some e
  | errors => some (multiple errors)

/-- Where the error is; several errors are where the first of them is. -/
def span : ParseError → Span
  | unexpectedToken _ _ s => s
  | unexpectedEof _ s => s
  | unterminatedBody s => s
  | invalidCharacter _ s => s
  | duplicate _ s => s
  | multiple [] => .zero
  | multiple (e :: _) => e.span

/-- The place where the error was noticed. -/
def position (e : ParseError) : Position := e.span.start

/-- The message for people. -/
def message : ParseError → String
  | unexpectedToken expected found _ => s!"unexpected token: expected {expected}, found {found}"
  | unexpectedEof expected _ => s!"unexpected end of file, expected {expected}"
  | unterminatedBody _ => "unterminated query body"
  | invalidCharacter text _ => s!"invalid character '{text}'"
  | duplicate what _ => s!"duplicate {what}"
  | multiple errors => s!"{errors.length} parse errors"

mutual

/-- The errors that have a place of their own. -/
def flatten : ParseError → List ParseError
  | multiple errors => flattenAll errors
  | e => [e]

/-- The errors with a place of their own in a list of errors, in order. -/
def flattenAll : List ParseError → List ParseError
  | [] => []
  | e :: errors => e.flatten ++ flattenAll errors

end

theorem flatten_of_ne_multiple {e : ParseError} (h : ∀ errors, e ≠ multiple errors) :
    e.flatten = [e] := by
  cases e <;> simp_all [flatten]

end ParseError

/-! ## Diagnostics -/

/-- How severe a problem is. -/
inductive Severity where
  | error
  | warning
  | info
  | hint
  deriving DecidableEq

/-- The name of a severity. -/
def Severity.name : Severity → String
  | error => "error"
  | warning => "warning"
  | info => "info"
  | hint => "hint"

/-- A problem at a place of a document. -/
structure Diagnostic where
  span : Span
  severity : Severity := .error
  message : String
  /-- The kind of the problem, for tools. -/
  code : String
  /-- The tool that found the problem. -/
  source : String := ""
  deriving DecidableEq

namespace Diagnostic

/-- The problem is an error. -/
def isError (d : Diagnostic) : Bool := d.severity == .error

/-- The text of a diagnostic on one line. -/
def display (d : Diagnostic) : String :=
  s!"{d.span.start.display}: {d.severity.name}: {d.message} [{d.code}]"

/-- The code of errors of reading. -/
def parseErrorCode : String := "parse-error"

/-- An error of reading, at its own place. -/
def ofError (source : String) (span : Span) (e : ParseError) : Diagnostic :=
  { span, message := e.message, code := parseErrorCode, source }

/-- One diagnostic for each error with a place of its own. An error without any place is told of
once, at the start of the document. -/
def ofParseError (source : String) (e : ParseError) : List Diagnostic :=
  match e.flatten with
  | [] => [ofError source .opening e]
  | errors => errors.map fun e => ofError source e.span e

end Diagnostic

end QuerySuite
