import QuerySuite.Command.Basic
import QuerySuite.Number

/-!
# Arguments of the command line

What a run of the program is asked to do. Arguments are read from left to right. Switches can stand
before the command and after it; letters of switches can be written together after one dash; after
two dashes alone every argument is a value. Help that is asked for ends the reading.
-/

namespace QuerySuite

/-- A command with its values. -/
inductive Command where
  | check (files : List String)
  | symbols (file : String) (pretty : Bool)
  | complete (file : String) (line column : Nat)
  | tokens (file : String)
  deriving DecidableEq

/-- The files a command is given. -/
def Command.files : Command → List String
  | check files => files
  | symbols file _ => [file]
  | complete file _ _ => [file]
  | tokens file => [file]

/-- What a run of the program is asked to do. -/
inductive Request where
  /-- Print the help of a command, or of the program. -/
  | help (topic : Option CommandName)
  | run (command : Command) (recovery verbose : Bool)
  deriving DecidableEq

/-- Why arguments cannot be understood. -/
inductive UsageError where
  | missingCommand
  | unknownCommand (name : String)
  | unexpectedArgument (text : String)
  | unexpectedValue (switch : Switch)
  | repeatedSwitch (switch : Switch)
  | invalidValue (text parameter : String)
  | missingParameter (name : String)
  deriving DecidableEq

/-- The message for people. -/
def UsageError.message : UsageError → String
  | missingCommand => "error: a command is missing"
  | unknownCommand name => s!"error: unknown command '{name}'"
  | unexpectedArgument text => s!"error: unexpected argument '{text}'"
  | unexpectedValue switch => s!"error: '--{switch.name}' takes no value"
  | repeatedSwitch switch => s!"error: '--{switch.name}' is given more than once"
  | invalidValue text parameter => s!"error: invalid value '{text}' for '{parameter}'"
  | missingParameter name => s!"error: '{name}' is missing"

/-- What ends the reading of arguments early. -/
inductive Halt where
  | help
  | usage (e : UsageError)
  deriving DecidableEq

/-! ## Switches -/

/-- The form of an argument. -/
inductive ArgumentForm where
  /-- Two dashes alone. -/
  | separator
  /-- The name of a switch after two dashes; a value may be attached to it. -/
  | long (name : String) (hasValue : Bool)
  /-- Letters of switches after one dash. -/
  | letters (letters : List Char)
  | value
  deriving DecidableEq

/-- The form of an argument. A lone dash is a value. -/
def ArgumentForm.of (text : String) : ArgumentForm :=
  match text.toList with
  | ['-', '-'] => separator
  | '-' :: '-' :: name => long (String.ofList (name.takeWhile (· != '='))) (name.contains '=')
  | '-' :: letter :: more => letters (letter :: more)
  | _ => value

/-- The switches met so far together with one more. A switch stands at most once. -/
def addSwitch (met : List Switch) (s : Switch) : Except Halt (List Switch) :=
  if s = .help then .error .help
  else if met.contains s then .error (.usage (.repeatedSwitch s))
  else .ok (s :: met)

/-- Reads the switch of that name, if it is one of those allowed. -/
def readLong (allowed met : List Switch) (text name : String) (hasValue : Bool) :
    Except Halt (List Switch) :=
  match allowed.find? (·.name == name) with
  | none => .error (.usage (.unexpectedArgument text))
  | some s => if hasValue then .error (.usage (.unexpectedValue s)) else addSwitch met s

/-- Reads a letter of a switch, if it is one of those allowed. -/
def readLetter (allowed : List Switch) (text : String) (met : List Switch) (letter : Char) :
    Except Halt (List Switch) :=
  match allowed.find? (·.letter? == some letter) with
  | none => .error (.usage (.unexpectedArgument text))
  | some s => addSwitch met s

/-- Reads an argument that has the form of switches. -/
def readSwitches (allowed met : List Switch) (text : String) :
    ArgumentForm → Except Halt (List Switch)
  | .long name hasValue => readLong allowed met text name hasValue
  | .letters letters => letters.foldlM (readLetter allowed text) met
  | _ => .ok met

/-! ## Values -/

/-- A line or a column: a whole number that is neither negative nor greater than 32 bits hold. -/
def cursorNumber? (text : String) : Option Nat :=
  match Decimal.wholeNumber? text.toList with
  | some n => if 0 ≤ n ∧ n.toNat < Nat.pow 2 32 then some n.toNat else none
  | none => none

/-- The text can be the value of a parameter of that kind. -/
def ParameterKind.admits (kind : ParameterKind) (text : String) : Bool :=
  match kind with
  | file => text != ""
  | number => (cursorNumber? text).isSome
  | command => (CommandName.ofName? text).isSome

/-- The values read so far together with one more, which there has to be a parameter for. -/
def addValue (c : CommandName) (values : List String) (text : String) :
    Except Halt (List String) :=
  match c.parameter? values.length with
  | none => .error (.usage (.unexpectedArgument text))
  | some p =>
    if p.kind.admits text then .ok (values ++ [text])
    else .error (.usage (.invalidValue text p.name))

/-! ## Commands -/

/-- Reads the arguments after a command: its values, and the switches met. -/
def readArguments (c : CommandName) (values : List String) (met : List Switch) :
    List String → Except Halt (List String × List Switch)
  | [] => .ok (values, met)
  | text :: rest =>
    match ArgumentForm.of text with
    | .separator => do
      let values ← rest.foldlM (addValue c) values
      .ok (values, met)
    | .value => do
      let values ← addValue c values text
      readArguments c values met rest
    | form => do
      let met ← readSwitches c.switches met text form
      readArguments c values met rest

/-- A command with its values, none of which may be missing. -/
def Command.ofValues (c : CommandName) (pretty : Bool) (values : List String) :
    Except UsageError Command :=
  let missing := ((c.parameter? values.length).map (·.name)).getD ""
  match c, values with
  | .check, files => .ok (check files)
  | .symbols, [file] => .ok (symbols file pretty)
  | .tokens, [file] => .ok (tokens file)
  | .complete, [file, line, column] =>
    match cursorNumber? line, cursorNumber? column with
    | some line, some column => .ok (complete file line column)
    | _, _ => .error (.missingParameter missing)
  | _, _ => .error (.missingParameter missing)

namespace Request

/-- The help that is asked for by the command `help`: that of at most one command. -/
def helpOn : List String → Except UsageError Request
  | [] => .ok (help none)
  | name :: more =>
    match CommandName.ofName? name, more with
    | none, _ => .error (.unknownCommand name)
    | some c, [] => .ok (help (some c))
    | some _, name :: _ => .error (.unknownCommand name)

/-- A command with the arguments after it, and the switches met before it. -/
def ofCommand (c : CommandName) (before : List Switch) (args : List String) :
    Except UsageError Request :=
  match readArguments c [] [] args with
  | .error .help => .ok (help (some c))
  | .error (.usage e) => .error e
  | .ok (values, after) => do
    let command ← Command.ofValues c (after.contains .pretty) values
    let met := before ++ after
    .ok (run command (!met.contains .noRecovery) (met.contains .verbose))

/-- Reads arguments of which the switches `met` are known. -/
def read (met : List Switch) : List String → Except UsageError Request
  | [] => .error .missingCommand
  | text :: rest =>
    match ArgumentForm.of text with
    | .separator => .error .missingCommand
    | .value =>
      match CommandName.ofName? text with
      | none => .error (.unknownCommand text)
      | some .help => helpOn rest
      | some c => ofCommand c met rest
    | form =>
      match readSwitches Switch.general met text form with
      | .error .help => .ok (help none)
      | .error (.usage e) => .error e
      | .ok met => read met rest

/-- What the arguments ask for. -/
def ofArguments (args : List String) : Except UsageError Request := read [] args

end Request

end QuerySuite
