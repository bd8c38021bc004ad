import QuerySuite.Text

/-!
# Paths of documents

A path is a text whose parts are divided by slashes. A leading slash makes it absolute, and a
leading dot that stands alone is kept; beyond those, empty parts and lone dots say nothing. Two
paths name the same place when they agree in what is left.
-/

namespace QuerySuite.Path

/-- How a path begins. -/
inductive Head where
  | absolute
  | here
  | bare
  deriving DecidableEq

/-- The text of a beginning. -/
def Head.text : Head → List Char
  | absolute => ['/']
  | here => ['.']
  | bare => []

/-- Cuts a path into its beginning and the text after it. -/
def cut : List Char → Head × List Char
  | '/' :: rest => (.absolute, rest)
  | ['.'] => (.here, [])
  | '.' :: '/' :: rest => (.here, '/' :: rest)
  | path => (.bare, path)

/-- The part is a component of its own: it is neither empty nor a lone dot. -/
def isComponent (part : List Char) : Bool := !part.isEmpty && part != ['.']

/-- The parts of a path after its beginning, without those at the end that say nothing. -/
def parts (rest : List Char) : List (List Char) :=
  ((rest.splitOn '/').reverse.dropWhile (!isComponent ·)).reverse

/-- The beginning of a path and its components. -/
def components (path : String) : Head × List (List Char) :=
  let (head, rest) := cut path.toList
  (head, (rest.splitOn '/').filter isComponent)

/-- The two paths name the same place. -/
def same (a b : String) : Bool := components a == components b

/-- The path starts at the root. -/
def isAbsolute (path : String) : Bool := (cut path.toList).1 == .absolute

/-- The last component, unless it leads upwards. -/
def fileName? (path : String) : Option (List Char) :=
  (components path).2.getLast?.filter (· != ['.', '.'])

/-- A file name without its extension: what stands before the last dot, or the whole name when it
has no dot or only a leading one. -/
def stem (name : List Char) : List Char :=
  match (name.splitOn '.').reverse with
  | _ :: before :: more =>
    if before.isEmpty && more.isEmpty then name else ['.'].intercalate (before :: more).reverse
  | _ => name

/-- The stem of the last component. -/
def fileStem? (path : String) : Option String := (fileName? path).map (String.ofList <| stem ·)

/-- The path without its last component; `none` for the root and for the empty path. -/
def parent? (path : String) : Option String :=
  let (head, rest) := cut path.toList
  match (parts rest).reverse, head with
  | _ :: before, head =>
    let kept := (before.dropWhile (!isComponent ·)).reverse
    some (String.ofList (head.text ++ ['/'].intercalate kept))
  | [], .here => some ""
  | [], _ => none

/-- The path `rel` as seen from the directory `dir`. -/
def join (dir rel : String) : String :=
  if isAbsolute rel then rel
  else if dir.toList.isEmpty || dir.toList.getLast? == some '/' then dir ++ rel
  else dir ++ "/" ++ rel

/-- The path `rel` as written in the document `base`: seen from the directory of that document. -/
def resolve (base : Option String) (rel : String) : String :=
  if isAbsolute rel then rel
  else
    match base.bind parent? with
    | some dir => join dir rel
    | none => rel

theorem same_refl (a : String) : same a a = true := by simp [same]

end QuerySuite.Path
