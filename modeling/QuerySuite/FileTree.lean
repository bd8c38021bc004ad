import QuerySuite.Path

/-!
# File trees

Directories of documents held in memory, and what reading a path of them gives. A path is walked
part by part: an empty part and a lone dot stay where they are, two dots lead to the directory
above, and any part needs a directory to go on from. Names and paths have a greatest length.

Results:

* `FileTree.find?_put`: what is put at a place is found there.
* `FileTree.makeAlong_of_walk`: a walk that succeeds makes no directory.
-/

namespace QuerySuite

/-- Why a document cannot be read. -/
inductive ReadFault where
  | notFound
  | notDirectory
  | isDirectory
  /-- The path, or a name in it, is longer than a file system takes. -/
  | nameTooLong
  /-- The path holds the character zero, which ends a path for a file system. -/
  | zeroInPath
  /-- The bytes of the document are no text. -/
  | notText
  /-- What a file system says beyond that, with the number it gives. -/
  | other (description : String) (code : Nat)
  deriving DecidableEq

/-- A fault of the file system, with the number it gives. -/
def ReadFault.system (description : String) (code : Nat) : String :=
  s!"{description} (os error {code})"

/-- The message for people. -/
def ReadFault.message : ReadFault → String
  | notFound => system "No such file or directory" 2
  | notDirectory => system "Not a directory" 20
  | isDirectory => system "Is a directory" 21
  | nameTooLong => system "File name too long" 36
  | zeroInPath => "file name contained an unexpected NUL byte"
  | notText => "stream did not contain valid UTF-8"
  | other description code => system description code

/-- The most bytes that a name can have. -/
def nameLimit : Nat := 255

/-- The most bytes that a path can have. -/
def pathLimit : Nat := 4095

/-- What is wrong with a path whatever it leads to. -/
def ReadFault.ofPath? (path : String) : Option ReadFault :=
  if path.toList.contains '\x00' then some .zeroInPath
  else if path.toList.isEmpty then some .notFound
  else if pathLimit < path.utf8ByteSize then some .nameTooLong
  else none

/-- Gives the text of the document at a path. -/
abbrev Reader := String → Except ReadFault String

/-- A file or a directory. -/
inductive FileTree where
  /-- A file; without a text if its bytes are none. -/
  | file (text : Option String)
  | directory (entries : List (List Char × FileTree))

namespace FileTree

/-- A directory without entries. -/
def empty : FileTree := directory []

/-- The entries of a directory; a file has none. -/
def entries : FileTree → List (List Char × FileTree)
  | file _ => []
  | directory entries => entries

/-- What stands under that name in a directory. -/
def child? (t : FileTree) (name : List Char) : Option FileTree := t.entries.lookup name

/-- What stands at a place given by its names. -/
def find? (t : FileTree) : List (List Char) → Option FileTree
  | [] => some t
  | name :: names => (t.child? name).bind (·.find? names)

/-- The directory with an entry under that name, in place of any other. -/
def withChild (t : FileTree) (name : List Char) (e : FileTree) : FileTree :=
  directory ((name, e) :: t.entries.filter (·.1 != name))

/-- Puts a node at a place and makes the directories that lead to it. -/
def put (node : FileTree) : List (List Char) → FileTree → FileTree
  | [], _ => node
  | name :: names, t => t.withChild name (put node names ((t.child? name).getD empty))

/-- Removes what stands at a place. -/
def erase : List (List Char) → FileTree → FileTree
  | [], t => t
  | [name], t => directory (t.entries.filter (·.1 != name))
  | name :: names, t =>
    match t.child? name with
    | some e => t.withChild name (erase names e)
    | none => t

/-! ## Paths -/

/-- A place in a tree: the names that lead to it from the root, the last one first. -/
abbrev Place := List (List Char)

/-- The place where relative paths start. It stands under the empty name, which no path can
spell. -/
def home : Place := [[]]

/-- The tree with nothing in it but the directory where relative paths start. -/
def fresh : FileTree := directory [([], empty)]

/-- What stands at a place. -/
def at? (t : FileTree) (place : Place) : Option FileTree := t.find? place.reverse

/-- Where a path starts. -/
def origin (path : String) : Place := if Path.isAbsolute path then [] else home

/-- One step of a walk along the parts of a path. The root is above itself. -/
def step (t : FileTree) (place : Place) (part : List Char) : Except ReadFault Place :=
  match t.at? place with
  | none => .error .notFound
  | some (file _) => .error .notDirectory
  | some (directory _) =>
    if part = [] ∨ part = ['.'] then .ok place
    else if part = ['.', '.'] then .ok place.tail
    else if nameLimit < (String.ofList part).utf8ByteSize then .error .nameTooLong
    else if (t.at? (part :: place)).isSome then .ok (part :: place)
    else .error .notFound

/-- The place that a path leads to. -/
def walk (t : FileTree) (path : String) : Except ReadFault Place :=
  match ReadFault.ofPath? path with
  | some fault => .error fault
  | none => (path.toList.splitOn '/').foldlM t.step (origin path)

/-- The document at a path. -/
def read (t : FileTree) : Reader := fun path =>
  match t.walk path with
  | .error fault => .error fault
  | .ok place =>
    match t.at? place with
    | none => .error .notFound
    | some (directory _) => .error .isDirectory
    | some (file none) => .error .notText
    | some (file (some text)) => .ok text

/-! ## Changes

A change that cannot be made is left out. -/

/-- Walks along the parts of a path and makes each directory that is missing, as far as the walk
leads. -/
def makeAlong (t : FileTree) (place : Place) : List (List Char) → FileTree
  | [] => t
  | part :: parts =>
    match t.step place part with
    | .ok next => t.makeAlong next parts
    | .error .notFound => (put empty (part :: place).reverse t).makeAlong (part :: place) parts
    | .error _ => t

/-- Makes a directory and those that lead to it. -/
def makeDirectory (t : FileTree) (path : String) : FileTree :=
  match ReadFault.ofPath? path with
  | some _ => t
  | none => t.makeAlong (origin path) (path.toList.splitOn '/')

/-- The place for a file at a path: its directory is there, and the place is free or holds a
file. -/
def filePlace? (t : FileTree) (path : String) : Option Place :=
  match ReadFault.ofPath? path, (path.toList.splitOn '/').reverse with
  | none, name :: before =>
    if Path.isComponent name && name != ['.', '.'] then
      match before.reverse.foldlM t.step (origin path) with
      | .error _ => none
      | .ok place =>
        match t.step place name, t.at? (name :: place) with
        | .ok _, some (directory _) => none
        | .ok found, _ => some found
        | .error .notFound, _ => some (name :: place)
        | .error _, _ => none
    else none
  | _, _ => none

/-- Writes a file and makes the directories that lead to it; without a text, a file whose bytes are
none. -/
def write (t : FileTree) (path : String) (text : Option String) : FileTree :=
  let ready :=
    match Path.parent? path with
    | some dir => t.makeDirectory dir
    | none => t
  match ready.filePlace? path with
  | some place => put (file text) place.reverse ready
  | none => ready

/-- Removes the file or directory that a path names. -/
def remove (t : FileTree) (path : String) : FileTree :=
  match t.walk path, Path.fileName? path with
  | .ok place, some _ => erase place.reverse t
  | _, _ => t

@[simp]
theorem child?_withChild (t : FileTree) (name : List Char) (e : FileTree) :
    (t.withChild name e).child? name = some e := by
  simp [withChild, child?, entries]

/-- A walk that succeeds makes no directory. -/
theorem makeAlong_of_walk {t : FileTree} {place found : Place} {parts : List (List Char)}
    (h : parts.foldlM t.step place = .ok found) : t.makeAlong place parts = t := by
  induction parts generalizing place with
  | nil => rfl
  | cons part parts ih =>
    rw [List.foldlM_cons] at h
    cases hs : t.step place part with
    | error fault => simp [hs, bind, Except.bind] at h
    | ok next =>
      rw [hs] at h
      simp only [makeAlong, hs]
      exact ih h

/-- What is put at a place is found there. -/
theorem find?_put (node : FileTree) (place : List (List Char)) (t : FileTree) :
    (put node place t).find? place = some node := by
  induction place generalizing t with
  | nil => rfl
  | cons name place ih => simp [put, find?, ih]

end FileTree

end QuerySuite
