import QuerySuite.Text

/-!
# Commands

The commands of the command line, with the parameters and the switches each of them takes, and what
the command line says of itself and of them: how they are called, and what their parameters and
switches are for.
-/

namespace QuerySuite

/-- The commands. -/
inductive CommandName where
  | check
  | symbols
  | complete
  | tokens
  | help
  deriving DecidableEq

/-- What a parameter of a command stands for. -/
inductive ParameterKind where
  | file
  /-- A line or a column. -/
  | number
  | command
  deriving DecidableEq

/-- A parameter of a command. -/
structure CommandParameter where
  name : String
  kind : ParameterKind
  /-- It can stand any number of times. -/
  many : Bool := false
  about : String

/-- The switches. -/
inductive Switch where
  /-- No tree is recovered of a document that cannot be read. -/
  | noRecovery
  | verbose
  /-- The output is spread over several lines. -/
  | pretty
  | help
  deriving DecidableEq

namespace CommandName

/-- All commands. -/
def all : List CommandName := [check, symbols, complete, tokens, help]

/-- The name of a command. -/
def name : CommandName → String
  | check => "check"
  | symbols => "symbols"
  | complete => "complete"
  | tokens => "tokens"
  | help => "help"

/-- The command of that name. -/
def ofName? (name : String) : Option CommandName := all.find? (·.name == name)

/-- What a command does. -/
def about : CommandName → String
  | check => "Analyze files and report diagnostics"
  | symbols => "Print the symbol table as JSON"
  | complete => "Print the completion context at a position as JSON"
  | tokens => "Print the token stream"
  | help => "Print this message or the help of the given subcommand(s)"

/-- The parameters of a command. Only the last one can stand more than once. -/
def parameters : CommandName → List CommandParameter
  | check => [{ name := "FILES", kind := .file, many := true, about := "Input file(s)" }]
  | symbols => [{ name := "FILE", kind := .file, about := "Input file" }]
  | complete =>
    [{ name := "FILE", kind := .file, about := "Input file" },
     { name := "LINE", kind := .number, about := "1-based line" },
     { name := "COLUMN", kind := .number, about := "1-based column" }]
  | tokens => [{ name := "FILE", kind := .file, about := "Input file" }]
  | help =>
    [{ name := "COMMAND", kind := .command, many := true,
       about := "Print help for the subcommand(s)" }]

/-- The parameter that the `n`-th value of a command is for, counted from zero. -/
def parameter? (c : CommandName) (n : Nat) : Option CommandParameter :=
  c.parameters[n]? <|> c.parameters.getLast?.filter (·.many)

/-- The switches of a command, its own before the general ones. -/
def switches : CommandName → List Switch
  | symbols => [.pretty, .noRecovery, .verbose, .help]
  | help => []
  | _ => [.noRecovery, .verbose, .help]

end CommandName

namespace Switch

/-- The switches that can stand before a command. -/
def general : List Switch := [noRecovery, verbose, help]

/-- The name of a switch, after two dashes. -/
def name : Switch → String
  | noRecovery => "no-recovery"
  | verbose => "verbose"
  | pretty => "pretty"
  | help => "help"

/-- The letter of a switch, after one dash. -/
def letter? : Switch → Option Char
  | noRecovery => none
  | verbose => some 'v'
  | pretty => some 'p'
  | help => some 'h'

/-- What a switch does. -/
def about : Switch → String
  | noRecovery => "Report only the strict parse error for broken files"
  | verbose => "Log analysis decisions to stderr"
  | pretty => "Pretty print the output"
  | help => "Print help"

end Switch

end QuerySuite

/-! ## Help -/

namespace QuerySuite.Help

/-- The name of the program. -/
def programName : String := "rehearse"

/-- What the program does. -/
def programAbout : String := "Analyzer for rehearse database test suites"

/-- Rows of two columns under a title, after an empty line. -/
def listing (title : String) (rows : List (String × String)) : List String :=
  if rows.isEmpty then []
  else
    let width := (rows.map (·.1.length)).foldl max 0
    "" :: (title ++ ":") :: rows.map fun (left, right) =>
      "  " ++ Text.alignLeft width left ++ "  " ++ right

/-- How a parameter is written in a call: in angles if it has to be given. -/
def parameterText (p : CommandParameter) : String :=
  if p.many then "[" ++ p.name ++ "]..." else "<" ++ p.name ++ ">"

/-- How a switch is written: its letter, if it has one, and its name. -/
def switchText (s : Switch) : String :=
  (match s.letter? with
    | some c => String.ofList ['-', c, ',', ' ']
    | none => "    ") ++ "--" ++ s.name

/-- The rows of switches. -/
def switchRows (switches : List Switch) : List (String × String) :=
  switches.map fun s => (switchText s, s.about)

/-- The lines of a help text: what it is about, how it is called, and its lists. -/
def text (about : String) (usage : List String) (listings : List String) : String :=
  let lines := about :: "" :: ("Usage: " ++ " ".intercalate (programName :: usage)) :: listings
  String.join (lines.map (· ++ "\n"))

/-- The help of the program. -/
def ofProgram : String :=
  text programAbout ["[OPTIONS]", "<COMMAND>"]
    (listing "Commands" (CommandName.all.map fun c => (c.name, c.about)) ++
      listing "Options" (switchRows Switch.general))

/-- The help of a command. -/
def ofCommand (c : CommandName) : String :=
  let options := if c.switches.isEmpty then [] else ["[OPTIONS]"]
  text c.about (c.name :: options ++ c.parameters.map parameterText)
    (listing "Arguments" (c.parameters.map fun p => (parameterText p, p.about)) ++
      listing "Options" (switchRows c.switches))

end QuerySuite.Help
