import QuerySuite.Symbol.Extract

/-!
# Symbols of bare text

When a document gave no tree at all, its imports and queries are still looked for in its text: each
at the front of a line, in the form in which it is usually written. Such symbols have no place, and
tests are not looked for.

Results:

* `BareText.length_queryAt?_lt`: a query that was found has left less text, by which the search
  ends.
-/

namespace QuerySuite

namespace BareText

/-- A blank inside a line. -/
def isGap (c : Char) : Bool := c == ' ' || c == '\t'

/-- What follows the reserved word `word` at the front of a line, blanks before it and at least one
after it left out. -/
def afterKeyword? (word : String) (line : List Char) : Option (List Char) :=
  let text := line.dropWhile isGap
  let rest := text.drop word.toList.length
  if text.take word.toList.length = word.toList ∧ rest.head?.any isGap then
    some (rest.dropWhile isGap)
  else none

/-- The path in quotes at the front of a text. -/
def pathAt? : List Char → Option String
  | '"' :: rest =>
    if rest.contains '"' then some (String.ofList (rest.takeWhile (· != '"'))) else none
  | _ => none

/-- The import at the front of a line: its name, if it has one, and its path. -/
def importAt? (line : List Char) : Option Import := do
  let rest ← afterKeyword? "import" line
  match QueryBody.nameAt? rest with
  | none => do
    let path ← pathAt? rest
    some { path }
  | some name => do
    let rest := rest.drop name.length
    if rest.head?.any isGap then do
      let path ← pathAt? (rest.dropWhile isGap)
      some { aliasName := some (String.ofList name), path }
    else none

/-- The imports of a text, one a line at most. -/
def imports (text : List Char) : List Import := (text.splitOn '\n').filterMap importAt?

/-- What follows the opening backtick of a body after blanks. -/
def bodyAt? (text : List Char) : Option (List Char) :=
  match text.dropWhile Text.isBlank with
  | c :: body => if c = Token.backtick then some body else none
  | [] => none

/-- The query at the front of a text: its name, and what follows the opening backtick of its
body. -/
def queryAt? (text : List Char) : Option (List Char × List Char) := do
  let rest ← afterKeyword? "query" text
  let name ← QueryBody.nameAt? rest
  let body ← bodyAt? (rest.drop name.length)
  some (name, body)

theorem length_dropWhile_le {α : Type} (p : α → Bool) (l : List α) :
    (l.dropWhile p).length ≤ l.length :=
  (List.dropWhile_suffix p).length_le

theorem length_afterKeyword?_le {word : String} {line rest : List Char}
    (h : afterKeyword? word line = some rest) : rest.length ≤ line.length := by
  simp only [afterKeyword?] at h
  split at h
  · cases h
    refine Nat.le_trans (length_dropWhile_le _ _) ?_
    rw [List.length_drop]
    exact Nat.le_trans (Nat.sub_le _ _) (length_dropWhile_le _ _)
  · simp at h

theorem length_bodyAt?_lt {text body : List Char} (h : bodyAt? text = some body) :
    body.length < text.length := by
  have hle := length_dropWhile_le Text.isBlank text
  rw [bodyAt?] at h
  split at h
  · next c rest hd =>
    rw [hd, List.length_cons] at hle
    split at h
    · cases h; omega
    · simp at h
  · simp at h

theorem length_queryAt?_lt {text name body : List Char} (h : queryAt? text = some (name, body)) :
    body.length < text.length := by
  simp only [queryAt?, Option.bind_eq_bind, Option.bind_eq_some_iff, Option.some.injEq,
    Prod.mk.injEq] at h
  obtain ⟨rest, hr, found, _, after, hb, _, rfl⟩ := h
  have h₁ := length_afterKeyword?_le hr
  have h₂ := length_bodyAt?_lt hb
  rw [List.length_drop] at h₂
  omega

/-- The queries of a text, each as its name and its body. A body that is not closed reaches to the
end of the text. Only the front of a line is looked at: `fresh` tells whether the text starts one.
-/
def queries (fresh : Bool) (text : List Char) : List (List Char × List Char) :=
  match h : (if fresh then queryAt? text else none) with
  | some (name, body) =>
    have hlt : body.length < text.length := by
      cases fresh with
      | false => simp at h
      | true => exact length_queryAt?_lt (by simpa using h)
    have hle := length_dropWhile_le (· != Token.backtick) body
    (name, body.takeWhile (· != Token.backtick)) ::
      queries false (body.dropWhile (· != Token.backtick))
  | none =>
    match text with
    | [] => []
    | c :: rest => queries (c == '\n') rest
termination_by text.length

end BareText

namespace Extractor

variable {σ : Type}

/-- The symbols found in the text of a document. -/
def ofText (x : Extractor σ) (source : String) : StateM σ SymbolTable := do
  let imports ← x.importSymbols (BareText.imports source.toList)
  let queries := (BareText.queries true source.toList).map fun (name, body) =>
    x.querySymbol (String.ofList name) (String.ofList body) none
  pure
    { imports := (Symbol.keepFirst (·.name) imports).map ({ · with span := none })
      queries := Symbol.keepFirst (·.name) queries }

/-- The symbols of a document: of its strict tree, else of its recovered tree, else of its text. -/
def bestEffort (x : Extractor σ) (strict recovered : Option Suite) (source : String) :
    StateM σ SymbolTable :=
  match strict <|> recovered with
  | some suite => x.ofSuite suite
  | none => x.ofText source

end Extractor

end QuerySuite
