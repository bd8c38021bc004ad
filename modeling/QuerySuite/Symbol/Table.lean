import QuerySuite.Suite.Basic

/-!
# Symbols

The names a document defines: the modules it imports, its queries and its tests. A table keeps
symbols in the order of their definition, and of several definitions of one name the first.

Results:

* `Symbol.insertNew_of_mem`, `Symbol.insertNew_of_not_mem`: a name that is taken is not defined
  again, and the answer tells so.
* `Symbol.map_key_keepFirst_nodup`: no name stands twice in a table.
-/

namespace QuerySuite

/-! ## Lists with one entry a name -/

namespace Symbol

variable {α : Type} (key : α → String)

/-- Adds a symbol at the end unless its name is taken, and tells whether it was added. -/
def insertNew (symbols : List α) (s : α) : Bool × List α :=
  if symbols.any (key · == key s) then (false, symbols) else (true, symbols ++ [s])

/-- Of the symbols with one name the first, in order. -/
def keepFirst (symbols : List α) : List α :=
  symbols.foldl (fun kept s => (insertNew key kept s).2) []

theorem insertNew_of_mem {symbols : List α} {s : α} (h : key s ∈ symbols.map key) :
    insertNew key symbols s = (false, symbols) := by
  obtain ⟨t, mem, eq⟩ := List.mem_map.1 h
  rw [insertNew, if_pos]
  exact List.any_eq_true.2 ⟨t, mem, by simp [eq]⟩

theorem insertNew_of_not_mem {symbols : List α} {s : α} (h : key s ∉ symbols.map key) :
    insertNew key symbols s = (true, symbols ++ [s]) := by
  rw [insertNew, if_neg]
  intro found
  obtain ⟨t, mem, eq⟩ := List.any_eq_true.1 found
  exact h (List.mem_map.2 ⟨t, mem, by simpa using eq⟩)

theorem nodup_map_key_insertNew {symbols : List α} (s : α) (h : (symbols.map key).Nodup) :
    ((insertNew key symbols s).2.map key).Nodup := by
  by_cases mem : key s ∈ symbols.map key
  · rwa [insertNew_of_mem key mem]
  · rw [insertNew_of_not_mem key mem, List.map_append, List.map_singleton]
    refine List.nodup_append.2 ⟨h, by simp, ?_⟩
    rintro a ha b hb rfl
    exact mem (by simpa [List.mem_singleton.1 hb] using ha)

theorem nodup_map_key_foldl (symbols : List α) {start : List α} (h : (start.map key).Nodup) :
    ((symbols.foldl (fun kept s => (insertNew key kept s).2) start).map key).Nodup := by
  induction symbols generalizing start with
  | nil => exact h
  | cons s symbols ih => exact ih (nodup_map_key_insertNew key s h)

/-- No name stands twice in a table. -/
theorem map_key_keepFirst_nodup (symbols : List α) : ((keepFirst key symbols).map key).Nodup :=
  nodup_map_key_foldl key symbols (by simp)

end Symbol

/-! ## Kinds of symbols -/

/-- A named query. -/
structure QuerySymbol where
  name : String
  /-- The parameters its body uses, without the sigil. -/
  params : List String
  /-- The fields its body returns. -/
  returns : List String
  body : String
  /-- Missing when the query was found in bare text. -/
  span : Option Span

/-- An imported module. -/
structure ImportSymbol where
  /-- The name the module is known by in the document. -/
  name : String
  path : String
  /-- Missing when the import was found in bare text. -/
  span : Option Span := none
  /-- Where the module is, once it has been loaded. -/
  resolved : Option String := none
  /-- The queries the module defines. -/
  queries : List String := []

/-- The module defines the query. -/
def ImportSymbol.exports (s : ImportSymbol) (query : String) : Bool := s.queries.contains query

/-- A test, known by its full path. -/
structure TestSymbol where
  scope : String
  /-- The names of the groups around the test, the outermost first. -/
  groups : List String
  name : String
  span : Span

/-- Scope, groups and name of a test with slashes between them. -/
def TestSymbol.path (s : TestSymbol) : String :=
  "/".intercalate (s.scope :: s.groups ++ [s.name])

/-! ## Tables -/

/-- The symbols of a document. -/
structure SymbolTable where
  imports : List ImportSymbol := []
  queries : List QuerySymbol := []
  tests : List TestSymbol := []

namespace SymbolTable

/-- The import known by that name. -/
def import? (t : SymbolTable) (name : String) : Option ImportSymbol :=
  t.imports.find? (·.name == name)

/-- The query of that name. -/
def query? (t : SymbolTable) (name : String) : Option QuerySymbol :=
  t.queries.find? (·.name == name)

/-- The test at that path. -/
def test? (t : SymbolTable) (path : String) : Option TestSymbol := t.tests.find? (·.path == path)

/-- The name is that of an import. -/
def isImport (t : SymbolTable) (name : String) : Bool := (t.import? name).isSome

/-- The names of the imports, in the order of their definition. -/
def importNames (t : SymbolTable) : List String := t.imports.map (·.name)

/-- There are no symbols. -/
def isEmpty (t : SymbolTable) : Bool := t.imports.isEmpty && t.queries.isEmpty && t.tests.isEmpty

/-- Adds an import unless its name is taken, and tells whether it was added. -/
def insertImport (t : SymbolTable) (s : ImportSymbol) : Bool × SymbolTable :=
  let (isNew, imports) := Symbol.insertNew (·.name) t.imports s
  (isNew, { t with imports })

/-- Adds a query unless its name is taken, and tells whether it was added. -/
def insertQuery (t : SymbolTable) (s : QuerySymbol) : Bool × SymbolTable :=
  let (isNew, queries) := Symbol.insertNew (·.name) t.queries s
  (isNew, { t with queries })

/-- Adds a test unless its path is taken, and tells whether it was added. -/
def insertTest (t : SymbolTable) (s : TestSymbol) : Bool × SymbolTable :=
  let (isNew, tests) := Symbol.insertNew (·.path) t.tests s
  (isNew, { t with tests })

end SymbolTable

end QuerySuite
