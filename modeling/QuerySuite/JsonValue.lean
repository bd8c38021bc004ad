import QuerySuite.Text

/-!
# JSON values

The values that commands print, with their fields in a fixed order, and their two texts: on one
line, and over several lines with two blanks for each level.
-/

namespace QuerySuite

/-- A value to be printed. -/
inductive JsonValue where
  | null
  | bool (value : Bool)
  | number (value : Nat)
  | string (text : String)
  | array (items : List JsonValue)
  | object (fields : List (String × JsonValue))

namespace JsonValue

/-- The value, or `null` when it is missing. -/
def ofOption {α : Type} (f : α → JsonValue) : Option α → JsonValue
  | some a => f a
  | none => null

/-- A list of texts. -/
def strings (texts : List String) : JsonValue := array (texts.map string)

/-- A control character by its code point, in four digits. -/
def escapeCode (c : Char) : List Char :=
  let digits := Nat.toDigits 16 c.toNat
  '\\' :: 'u' :: (List.replicate (4 - digits.length) '0' ++ digits)

/-- How a character is written inside quotes: only quotes, backslashes and controls are escaped. -/
def escape (c : Char) : List Char :=
  match c with
  | '"' => ['\\', '"']
  | '\\' => ['\\', '\\']
  | '\n' => ['\\', 'n']
  | '\r' => ['\\', 'r']
  | '\t' => ['\\', 't']
  | '\x08' => ['\\', 'b']
  | '\x0c' => ['\\', 'f']
  | c => if c.toNat < 0x20 then escapeCode c else [c]

/-- A text in quotes. -/
def quote (text : String) : String :=
  String.ofList ('"' :: (text.toList.flatMap escape ++ ['"']))

/-- The text of a value that holds no other value. -/
def scalar : JsonValue → String
  | bool true => "true"
  | bool false => "false"
  | number n => toString n
  | string text => quote text
  | _ => "null"

mutual

/-- The text of a value on one line. -/
def compact : JsonValue → String
  | array items => "[" ++ ",".intercalate (compactItems items) ++ "]"
  | object fields => "\x7b" ++ ",".intercalate (compactFields fields) ++ "\x7d"
  | v => v.scalar

/-- The texts of the items of a list. -/
def compactItems : List JsonValue → List String
  | [] => []
  | v :: items => v.compact :: compactItems items

/-- The texts of the fields of an object. -/
def compactFields : List (String × JsonValue) → List String
  | [] => []
  | (key, v) :: fields => (quote key ++ ":" ++ v.compact) :: compactFields fields

end

/-- A new line, `depth` levels in. -/
def newline (depth : Nat) : String := String.ofList ('\n' :: List.replicate (2 * depth) ' ')

/-- Parts between two brackets, each on a line of its own one level further in. -/
def block (opening closing : String) (depth : Nat) (parts : List String) : String :=
  if parts.isEmpty then opening ++ closing
  else
    opening ++ newline (depth + 1) ++ ("," ++ newline (depth + 1)).intercalate parts ++
      newline depth ++ closing

mutual

/-- The text of a value over several lines, `depth` levels in. -/
def prettyAt (depth : Nat) : JsonValue → String
  | array items => block "[" "]" depth (prettyItems (depth + 1) items)
  | object fields => block "\x7b" "\x7d" depth (prettyFields (depth + 1) fields)
  | v => v.scalar

/-- The texts of the items of a list. -/
def prettyItems (depth : Nat) : List JsonValue → List String
  | [] => []
  | v :: items => v.prettyAt depth :: prettyItems depth items

/-- The texts of the fields of an object. -/
def prettyFields (depth : Nat) : List (String × JsonValue) → List String
  | [] => []
  | (key, v) :: fields => (quote key ++ ": " ++ v.prettyAt depth) :: prettyFields depth fields

end

/-- The text of a value over several lines. -/
def pretty (v : JsonValue) : String := v.prettyAt 0

end JsonValue

end QuerySuite
