import Mathlib
import QuerySuite.Proofs.Acceptance
import QuerySuite.Proofs.Coherence
import QuerySuite.Proofs.ExprTokens
import QuerySuite.Proofs.JoinedTexts
import QuerySuite.Proofs.WordSearch
import QuerySuite.Symbol.BareText

/-!
# Documents of imports and queries

A document may be nothing but imports and queries, each written in the plain form and on lines of
its own. It is read without errors, and the suite holds the imports and queries as they are written,
in their order.

Results:

* `Token.beforeEnd_scanFrom_word`, `Token.beforeEnd_scanFrom_quoted`,
  `Token.beforeEnd_scanFrom_raw`: the tokens of words, paths and bodies.
* `Definition.exists_isTopMember`: a definition is read as it is written.
* `Definition.exists_suite`: and so is a document of definitions.
-/

namespace QuerySuite

/-- A definition that is written on lines of its own. -/
inductive Definition where
  | importClause (aliasName : Option String) (path : String)
  | query (name body : String)

namespace Definition

/-- How the definition is written. -/
def text : Definition → String
  | importClause aliasName path =>
    "import " ++ aliasName.elim "" (· ++ " ") ++ "\"" ++ path ++ "\""
  | query name body => "query " ++ name ++ " `" ++ body ++ "`"

/-- The import that is written. -/
def import? : Definition → Option Import
  | importClause aliasName path => some { aliasName, path }
  | query _ _ => none

/-- Name and body of the query that is written. -/
def query? : Definition → Option (String × String)
  | importClause _ _ => none
  | query name body => some (name, body)

/-- The text is a name and not a reserved word. -/
def IsIdentifier (name : String) : Prop :=
  QueryBody.isName name.toList = true ∧ name ∉ Token.keywords

/-- The line begins with the word and a blank, with or without blanks before them. -/
def opensWith (word : String) (line : List Char) : Bool :=
  [' ', '\t'].any fun gap => (word.toList ++ [gap]).isPrefixOf (line.dropWhile BareText.isGap)

/-- The definition is what its text says: its names are names, its path can stand in quotes as it
is, and its body is closed by its own backtick and has no line, other than the first one, that
begins like an import. A line that begins like a query does no harm. -/
def WellFormed : Definition → Prop
  | importClause aliasName path => (∀ name ∈ aliasName, IsIdentifier name) ∧
      '"' ∉ path.toList ∧ '\\' ∉ path.toList ∧ '\n' ∉ path.toList
  | query name body => IsIdentifier name ∧ Token.backtick ∉ body.toList ∧
      ∀ line ∈ (body.toList.splitOn '\n').tail, opensWith "import" line = false

instance (name : String) : Decidable (IsIdentifier name) := inferInstanceAs (Decidable (_ ∧ _))

instance (d : Definition) : Decidable d.WellFormed :=
  match d with
  | importClause _ _ => inferInstanceAs (Decidable (_ ∧ _))
  | query _ _ => inferInstanceAs (Decidable (_ ∧ _))

end Definition

/-- The text of a document: its definitions one below the other. -/
def Definition.document (ds : List Definition) : String := "\n".intercalate (ds.map text)

/-! ## Tokens -/

namespace Token

/-- A word that stands alone is one token, a reserved word or a name. -/
theorem beforeEnd_scanFrom_word (p : Position) {word : String}
    (hword : QueryBody.isName word.toList = true) {more : List Char}
    (hmore : more.head?.any isNameChar = false) :
    beforeEnd (scanFrom p (word.toList ++ more)) =
      ⟨if keywords.contains word then .keyword else .ident, word, p⟩ ::
        beforeEnd (scanFrom (p.advance word.toList) more) := by
  have hchars := QueryBody.isNameChar_of_isName hword
  cases htext : word.toList with
  | nil =>
    rw [htext] at hword
    cases hword
  | cons c u =>
    have hword' : String.ofList (c :: u) = word := by rw [← htext, String.ofList_toList]
    rw [htext, QueryBody.isName, Bool.and_eq_true] at hword
    rw [htext] at hchars
    have hlexeme := ExprToken.lexeme_word hword.1 (List.forall_mem_cons.1 hchars).2 hmore
    rw [hword'] at hlexeme
    have hseen := beforeEnd_scanFrom_append p hlexeme (by split_ifs <;> rfl) (by split_ifs <;> simp)
    rw [hword'] at hseen
    exact hseen

theorem flatMap_escape_of_not_mem {text : List Char} (hquote : '"' ∉ text)
    (hslash : '\\' ∉ text) : text.flatMap ExprToken.escape = text := by
  calc text.flatMap ExprToken.escape = text.flatMap fun c => [c] := by
        refine List.flatMap_congr fun c hc => ?_
        rw [ExprToken.escape, if_neg]
        rintro (rfl | rfl)
        · exact hquote hc
        · exact hslash hc
    _ = text := List.flatMap_singleton' text

/-- A text in quotes is a string, whose contents are that text. -/
theorem beforeEnd_scanFrom_quoted (p : Position) {text : String} (hquote : '"' ∉ text.toList)
    (hslash : '\\' ∉ text.toList) (hline : '\n' ∉ text.toList) :
    ∃ t : Token, beforeEnd (scanFrom p ('"' :: (text.toList ++ ['"']))) = [t] ∧
      t.kind = .string ∧ unquote t.text = text := by
  have hplain := flatMap_escape_of_not_mem hquote hslash
  have hlexeme := ExprToken.lexeme_string hline []
  have hcontents := ExprToken.unquote_render text
  rw [hplain] at hlexeme
  rw [ExprToken.render, hplain] at hcontents
  have hseen := beforeEnd_scanFrom_append p hlexeme rfl (by simp)
  rw [List.append_nil, beforeEnd_scanFrom_nil] at hseen
  exact ⟨_, hseen, rfl, hcontents⟩

/-- A text in backticks is a query body, whose contents are that text. -/
theorem beforeEnd_scanFrom_raw (p : Position) {text : String} (h : backtick ∉ text.toList) :
    ∃ t : Token, beforeEnd (scanFrom p (backtick :: (text.toList ++ [backtick]))) = [t] ∧
      t.kind = .rawString ∧ rawBody t.text = text := by
  have hrun : runLength (· != backtick) (text.toList ++ [backtick]) = text.toList.length :=
    ExprToken.runLength_append (fun c hc => bne_iff_ne.2 (ne_of_mem_of_not_mem hc h)) rfl
  have hlexeme : lexeme backtick (text.toList ++ [backtick] ++ []) =
      (.rawString, (text.toList ++ [backtick]).length) := by
    rw [List.append_nil, lexeme_backtick, rawLexeme, hrun, if_pos (by simp), List.length_append]
    rfl
  have hseen := beforeEnd_scanFrom_append p hlexeme rfl (by simp)
  rw [List.append_nil, beforeEnd_scanFrom_nil] at hseen
  refine ⟨_, hseen, rfl, ?_⟩
  rw [rawBody, String.toList_ofList, ExprToken.strip_cons_append, String.ofList_toList]

end Token

/-! ## The suite -/

namespace Definition

open Grammar (TopMember IsTopMember IsSeries IsSuite)

theorem IsIdentifier.isName {name : String} (h : IsIdentifier name) (p : Position) :
    Token.isName ⟨if Token.keywords.contains name then .keyword else .ident, name, p⟩ = true := by
  obtain ⟨hname, hword⟩ := h
  have hsigil : (name.toList.head? == some '$') = false := by
    rw [beq_eq_false_iff_ne]
    intro hhead
    have hchar := QueryBody.isNameChar_of_isName hname '$' (List.mem_of_mem_head? hhead)
    exact absurd hchar (by decide)
  rw [if_neg (by simpa using hword), Token.isName, Token.isParameter, hsigil]
  rfl

/-- The member of a document is the definition, as it is written. -/
def IsSpelledBy : Definition → TopMember → Prop
  | importClause aliasName path, .importClause i => i.aliasName = aliasName ∧ i.path = path
  | query name body, .query q => q.name = name ∧ q.body = body
  | _, _ => False

theorem toList_text_import (aliasName : Option String) (path : String) :
    (importClause aliasName path).text.toList = "import".toList ++ ' ' ::
      (aliasName.elim [] (fun name => name.toList ++ [' ']) ++
        '"' :: (path.toList ++ ['"'])) := by
  cases aliasName <;> simp [text, String.toList_append]

theorem toList_text_query (name body : String) :
    (query name body).text.toList = "query".toList ++ ' ' :: (name.toList ++ ' ' ::
      Token.backtick :: (body.toList ++ [Token.backtick])) := by
  simp [text, String.toList_append, Token.backtick]

/-- A definition is read as it is written. -/
theorem exists_isTopMember {d : Definition} (hd : d.WellFormed) (p : Position) :
    ∃ m, IsTopMember (Token.beforeEnd (Token.scanFrom p d.text.toList)) m ∧ d.IsSpelledBy m := by
  cases d with
  | importClause aliasName path =>
    obtain ⟨hname, hquote, hslash, hline⟩ := hd
    rw [toList_text_import, Token.beforeEnd_scanFrom_word p (by decide) rfl,
      Token.beforeEnd_scanFrom_space rfl]
    cases aliasName with
    | none =>
      obtain ⟨t, ht, hkind, hpath⟩ := Token.beforeEnd_scanFrom_quoted
        ((p.advance "import".toList).advance [' ']) hquote hslash hline
      rw [Option.elim_none, List.nil_append, ht]
      exact ⟨_, .importClause (.plain rfl hkind), rfl, hpath⟩
    | some name =>
      have hid := hname name rfl
      obtain ⟨t, ht, hkind, hpath⟩ := Token.beforeEnd_scanFrom_quoted
        ((((p.advance "import".toList).advance [' ']).advance name.toList).advance [' '])
        hquote hslash hline
      rw [Option.elim_some, List.append_assoc, Token.beforeEnd_scanFrom_word _ hid.1 rfl,
        List.singleton_append, Token.beforeEnd_scanFrom_space rfl, ht]
      exact ⟨_, .importClause (.named rfl (hid.isName _) hkind), rfl, hpath⟩
  | query name body =>
    obtain ⟨hid, hbody, -⟩ := hd
    obtain ⟨t, ht, hkind, htext⟩ := Token.beforeEnd_scanFrom_raw
      ((((p.advance "query".toList).advance [' ']).advance name.toList).advance [' ']) hbody
    rw [toList_text_query, Token.beforeEnd_scanFrom_word p (by decide) rfl,
      Token.beforeEnd_scanFrom_space rfl, Token.beforeEnd_scanFrom_word _ hid.1 rfl,
      Token.beforeEnd_scanFrom_space rfl, ht]
    exact ⟨_, .query (.query rfl (hid.isName _) hkind), rfl, htext⟩

theorem toList_document (ds : List Definition) :
    (document ds).toList = ['\n'].intercalate (ds.map (·.text.toList)) := by
  rw [document, String.toList_intercalate, List.map_map]
  rfl

/-- The definitions of a document are read one after another. -/
theorem exists_isSeries {ds : List Definition} (hds : ∀ d ∈ ds, d.WellFormed) (p : Position) :
    ∃ ms, IsSeries (fun _ => False) (fun _ _ => True) IsTopMember
        (Token.beforeEnd (Token.scanFrom p (['\n'].intercalate (ds.map (·.text.toList))))) ms ∧
      List.Forall₂ IsSpelledBy ds ms := by
  induction ds generalizing p with
  | nil =>
    refine ⟨[], ?_, .nil⟩
    rw [List.map_nil, List.intercalate_nil, Token.beforeEnd_scanFrom_nil]
    exact .nil
  | cons d ds ih =>
    obtain ⟨hd, hds⟩ := List.forall_mem_cons.1 hds
    obtain ⟨m, hm, hspelled⟩ := exists_isTopMember hd p
    by_cases hnil : ds = []
    · rw [hnil, List.map_singleton, List.intercalate_singleton]
      have hseries : IsSeries (fun _ => False) (fun _ _ => True) IsTopMember
          (Token.beforeEnd (Token.scanFrom p d.text.toList) ++ []) [m] := .member hm (by simp) .nil
      rw [List.append_nil] at hseries
      exact ⟨[m], hseries, .cons hspelled .nil⟩
    · obtain ⟨ms, hms, hmore⟩ := ih hds (p.advance (d.text.toList ++ ['\n']))
      refine ⟨m :: ms, ?_, .cons hspelled hmore⟩
      rw [List.map_cons, Text.intercalate_cons '\n' _ (by simpa using hnil),
        Token.beforeEnd_append_line p _ _ hm.endsClosed]
      exact .member hm (by simp) hms

end Definition

/-- What is written of an import, without its place. -/
def Import.bare (i : Import) : Import := { aliasName := i.aliasName, path := i.path }

namespace Definition

open Grammar (TopMember)

/-- What the members of a document that spell definitions hold. -/
theorem members_of_forall₂ {ds : List Definition} {ms : List TopMember}
    (h : List.Forall₂ IsSpelledBy ds ms) :
    (ms.filterMap TopMember.import?).map Import.bare = ds.filterMap import? ∧
      (ms.filterMap TopMember.query?).map (fun q => (q.name, q.body)) = ds.filterMap query? ∧
      ms.filterMap TopMember.setup? = [] ∧ ms.filterMap TopMember.teardown? = [] ∧
      ms.filterMap TopMember.scope? = [] := by
  induction h with
  | nil => exact ⟨rfl, rfl, rfl, rfl, rfl⟩
  | @cons d m ds ms hd _ ih =>
    obtain ⟨himports, hqueries, hsetup, hteardown, hscopes⟩ := ih
    cases d with
    | importClause aliasName path =>
      cases m with
      | importClause i =>
        obtain ⟨rfl, rfl⟩ := hd
        exact ⟨congrArg (i.bare :: ·) himports, hqueries, hsetup, hteardown, hscopes⟩
      | _ => exact hd.elim
    | query name body =>
      cases m with
      | query q =>
        obtain ⟨rfl, rfl⟩ := hd
        exact ⟨himports, congrArg ((q.name, q.body) :: ·) hqueries, hsetup, hteardown, hscopes⟩
      | _ => exact hd.elim

/-- A document of definitions is read without errors, as the suite of these definitions. -/
theorem exists_suite {ds : List Definition} (hds : ∀ d ∈ ds, d.WellFormed) :
    ∃ suite, (parse .strict (document ds)).suite = some suite ∧
      (parse .strict (document ds)).error = none ∧
      suite.imports.map Import.bare = ds.filterMap import? ∧
      suite.queries.map (fun q => (q.name, q.body)) = ds.filterMap query? ∧
      suite.setup = none ∧ suite.teardown = none ∧ suite.scopes = [] := by
  obtain ⟨ms, hms, hspelled⟩ := exists_isSeries hds .start
  obtain ⟨himports, hqueries, hsetup, hteardown, hscopes⟩ := members_of_forall₂ hspelled
  rw [← toList_document] at hms
  have hsuite := Grammar.IsSuite.suite hms (by simp [Grammar.AtMostOne, hsetup])
    (by simp [Grammar.AtMostOne, hteardown])
  have hread := (Grammar.parse_strict_suite_iff _ _).2 ⟨_, hsuite, rfl⟩
  refine ⟨_, hread, ?_, himports, hqueries, congrArg List.head? hsetup,
    congrArg List.head? hteardown, hscopes⟩
  rcases parse_strict_cases (document ds) with ⟨-, -, herror⟩ | ⟨-, -, -, hnone, -⟩
  · exact herror
  · rw [hread] at hnone
    cases hnone

end Definition

end QuerySuite
