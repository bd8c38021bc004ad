import QuerySuite.Document
import QuerySuite.FileTree

/-!
# Libraries of modules

Imported documents are read and analysed when they are first asked for, and what came of it is kept,
failures included. Imports of an imported document are not followed.

Results:

* `Library.load_twice`: a module that was asked for once gives the same answer again, whatever has
  become of its document.
-/

namespace QuerySuite

/-- Why a module cannot be loaded. -/
inductive LoadError where
  | unreadable (path : String) (fault : ReadFault)
  /-- The document has an error and no queries could be found in it. -/
  | unparseable (path : String)
  deriving DecidableEq

namespace LoadError

/-- The path of the module. -/
def path : LoadError → String
  | unreadable path _ => path
  | unparseable path => path

/-- The message for people. -/
def message : LoadError → String
  | unreadable path fault => s!"cannot read module {path}: {fault.message}"
  | unparseable path => s!"module {path} does not parse"

end LoadError

/-- How imported documents are analysed: their own problems do not matter. -/
def moduleAnalyzer : Analyzer Unit := { config := { validate := false } }

/-- What the document of a module makes available. -/
def exportsOf (path source : String) : Except LoadError ModuleExports :=
  let d := ((moduleAnalyzer.analyze (some path) source).run ()).1
  if d.parseError.isSome && d.symbols.queries.isEmpty then .error (.unparseable path)
  else .ok ⟨d.symbols.queries.map (·.name)⟩

/-- Reads and analyses the module at a path. -/
def loadModule (read : Reader) (path : String) : Except LoadError ModuleExports :=
  match read path with
  | .error fault => .error (.unreadable path fault)
  | .ok source => exportsOf path source

/-- The modules asked for so far, with what came of it. -/
structure Library where
  loaded : List (String × Option ModuleExports) := []

namespace Library

/-- What came of a module that was asked for before, at this path or another that names the same
place. -/
def find? (l : Library) (path : String) : Option (Option ModuleExports) :=
  (l.loaded.find? (Path.same path ·.1)).map (·.2)

/-- The module at a path: as it was found the first time, else as it is now. -/
def load (read : Reader) (path : String) : StateM Library (Option ModuleExports) := fun l =>
  match l.find? path with
  | some found => (found, l)
  | none =>
    let found := (loadModule read path).toOption
    (found, { loaded := (path, found) :: l.loaded })

/-- Loads modules through a library. -/
def resolver (read : Reader) : Resolver Library := { load := load read }

/-- A module that was asked for once gives the same answer again, whatever has become of its
document. -/
theorem load_twice (before after : Reader) (path : String) (l : Library) :
    load after path (load before path l).2 = load before path l := by
  unfold load
  cases h : l.find? path with
  | some found => simp [h]
  | none => simp [find?, Path.same_refl]

end Library

/-- Analyses the document at a path with the modules that can be read. -/
def analyzeFile (read : Reader) (config : Config) (path source : String) : Document :=
  let a : Analyzer Library := { config, resolver := some (Library.resolver read) }
  ((a.analyze (some path) source).run {}).1

/-- The paths of the modules that analysing a document asks for. -/
def modulePaths (config : Config) (path source : String) : List String :=
  let ask : Resolver (List String) := { load := fun p asked => (none, asked ++ [p]) }
  let a : Analyzer (List String) := { config, resolver := some ask }
  ((a.analyze (some path) source).run []).2

end QuerySuite
