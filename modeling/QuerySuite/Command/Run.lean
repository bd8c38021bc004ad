import QuerySuite.Command.Arguments
import QuerySuite.Completion.Nearby
import QuerySuite.JsonValue
import QuerySuite.Library

/-!
# Running commands

What a run of the program prints, what it notes beside that, and how it ends: symbols and
completions as JSON values, tokens as lines of a listing. Documents are given by a reader, so that a
run is a function of its arguments and of the documents it can read.
-/

namespace QuerySuite

/-! ## Output -/

/-- A position as a JSON value. -/
def Position.json (p : Position) : JsonValue :=
  .object
    [("line", .number p.line), ("column", .number p.column), ("byte_offset", .number p.offset)]

/-- A span as a JSON value. -/
def Span.json (s : Span) : JsonValue := .object [("start", s.start.json), ("end", s.stop.json)]

/-- A token as a JSON value. -/
def Token.json (t : Token) : JsonValue :=
  .object [("kind", .string t.kind.name), ("text", .string t.text), ("pos", t.start.json)]

/-- An import as a JSON value. -/
def ImportSymbol.json (s : ImportSymbol) : JsonValue :=
  .object
    [("alias", .string s.name), ("path", .string s.path), ("span", .ofOption Span.json s.span),
     ("resolved", .ofOption .string s.resolved), ("queries", .strings s.queries)]

/-- A query as a JSON value. -/
def QuerySymbol.json (s : QuerySymbol) : JsonValue :=
  .object
    [("name", .string s.name), ("params", .strings s.params), ("returns", .strings s.returns),
     ("body", .string s.body), ("span", .ofOption Span.json s.span)]

/-- A test as a JSON value. -/
def TestSymbol.json (s : TestSymbol) : JsonValue :=
  .object
    [("path", .string s.path), ("scope", .string s.scope), ("groups", .strings s.groups),
     ("name", .string s.name), ("span", s.span.json)]

/-- A symbol table as a JSON value: each symbol under its name, in the order of definition. -/
def SymbolTable.json (t : SymbolTable) : JsonValue :=
  .object
    [("imports", .object (t.imports.map fun s => (s.name, s.json))),
     ("queries", .object (t.queries.map fun s => (s.name, s.json))),
     ("tests", .object (t.tests.map fun s => (s.path, s.json)))]

/-- A completion as a JSON value. -/
def Completion.json (c : Completion) : JsonValue :=
  .object
    [("kind", .string c.kind.name), ("prefix", .string c.typed),
     ("module_alias", .ofOption .string c.moduleName), ("in_setup", .bool c.inSetup),
     ("in_test", .bool c.inTest), ("in_assert", .bool c.inAssert),
     ("query_scope", .ofOption .string c.scope), ("error_pos", .ofOption Position.json c.errorAt),
     ("prev_token", .ofOption Token.json c.previous)]

/-- The line of a token in a listing: its place, its kind and its text in quotes. -/
def Token.listingLine (t : Token) : String :=
  Text.alignRight 4 (toString t.start.line) ++ ":" ++
    Text.alignLeft 4 (toString t.start.column) ++ " " ++ Text.alignLeft 16 t.kind.name ++ " " ++
    Text.quote t.text

/-! ## Runs -/

/-- What a run notes beside its output. -/
inductive Note where
  | usage (e : UsageError)
  | unreadable (file : String) (fault : ReadFault)
  | finding (file : String) (d : Diagnostic)
  /-- A file has errors, with the number of all its diagnostics. -/
  | problems (file : String) (count : Nat)

/-- The text of a note. -/
def Note.text : Note → String
  | usage e => e.message
  | unreadable file fault => s!"Error reading {file}: {fault.message}"
  | finding file d => s!"{file}:{d.display}"
  | problems file count => s!"✗ {file} - {count} problems"

/-- What a run of the program does: its output, its notes, and the code it ends with. -/
structure CommandResult where
  exitCode : Nat := 0
  output : String := ""
  notes : List Note := []

namespace CommandResult

/-- A run of two parts. It fails if one of them fails. -/
def followedBy (a b : CommandResult) : CommandResult where
  exitCode := max a.exitCode b.exitCode
  output := a.output ++ b.output
  notes := a.notes ++ b.notes

end CommandResult

namespace Command

/-- Does something with the text of a file, or notes that it cannot be read. -/
def withFile (read : Reader) (file : String) (f : String → CommandResult) : CommandResult :=
  match read file with
  | .ok source => f source
  | .error fault => { exitCode := 1, notes := [.unreadable file fault] }

/-- Tells of one file whether it has errors. -/
def checkFile (read : Reader) (config : Config) (file : String) : CommandResult :=
  withFile read file fun source =>
    let d := analyzeFile read config file source
    let found := d.diagnostics.map (Note.finding file)
    if d.hasErrors then
      { exitCode := 1, notes := found ++ [.problems file d.diagnostics.length] }
    else
      let queries := d.symbols.queries.length
      let tests := d.symbols.tests.length
      { output := s!"✓ {file} - {queries} queries, {tests} tests\n", notes := found }

/-- Runs a command. -/
def run (read : Reader) (config : Config) : Command → CommandResult
  | check files => (files.map (checkFile read config)).foldl .followedBy {}
  | symbols file pretty => withFile read file fun source =>
    let json := (analyzeFile read config file source).symbols.json
    { output := (if pretty then json.pretty else json.compact) ++ "\n" }
  | complete file line column => withFile read file fun source =>
    let found := (analyzeFile read config file source).completion (.ofLineColumn line column)
    { output := (JsonValue.ofOption Completion.json found).pretty ++ "\n" }
  | tokens file => withFile read file fun source =>
    { output := String.join ((Token.significant (Token.scan source)).map (·.listingLine ++ "\n")) }

end Command

namespace Request

/-- The configuration that a request asks for. -/
def config (recovery : Bool) : Config := { recovery }

/-- Does what is asked for. -/
def perform (read : Reader) : Request → CommandResult
  | help none => { output := Help.ofProgram }
  | help (some c) => { output := Help.ofCommand c }
  | run command recovery _ => command.run read (config recovery)

end Request

/-- A run of the program with these arguments. -/
def runProgram (read : Reader) (args : List String) : CommandResult :=
  match Request.ofArguments args with
  | .ok request => request.perform read
  | .error e => { exitCode := 2, notes := [.usage e] }

end QuerySuite
