import Mathlib
import QuerySuite.Proofs.Parameters
import QuerySuite.Proofs.PlainDocuments
import QuerySuite.Proofs.SymbolTables

/-!
# What the text tells of a document

Where there is no tree, the imports and queries of a document are looked for in its text. In a
document of plain imports and queries they are found there as the tree has them: the two searches,
of which one goes through the lines and the other through the whole text, meet every definition and
nothing in the bodies and paths. Loading the imports is the same too, so that the tables differ in
the places of the symbols only.

Results:

* `BareText.imports_document`, `BareText.queries_document`: what is found in the text.
* `Extractor.run_importSymbols_bare`: loading imports does not depend on their places.
* `text_symbols_agree`: the table of the text and the table of the suite.
-/

namespace QuerySuite

namespace BareText

/-! ## Reserved words -/

theorem dropWhile_isGap {text : List Char} (h : text.head?.any isGap = false) :
    text.dropWhile isGap = text := by
  refine Text.dropWhile_of_head? fun c hc => ?_
  rwa [hc] at h

/-- What stands behind a reserved word and a blank. -/
theorem afterKeyword?_word {word : String} (hne : word ≠ "")
    (hword : word.toList.head?.any isGap = false) {rest : List Char}
    (hrest : rest.head?.any isGap = false) :
    afterKeyword? word (word.toList ++ ' ' :: rest) = some rest := by
  have hhead : (word.toList ++ ' ' :: rest).head? = word.toList.head? :=
    List.head?_append_of_ne_nil _ (mt String.toList_eq_nil_iff.1 hne)
  have hgap : (' ' :: rest).head?.any isGap = true := rfl
  simp only [afterKeyword?]
  rw [dropWhile_isGap (by rw [hhead, hword]), List.take_left, List.drop_left, if_pos ⟨rfl, hgap⟩,
    List.dropWhile_cons_of_pos (by decide), dropWhile_isGap hrest]

/-- A reserved word is not found in a line that does not begin with it and a blank. -/
theorem afterKeyword?_eq_none {word : String} {line : List Char}
    (h : Definition.opensWith word line = false) : afterKeyword? word line = none := by
  simp only [afterKeyword?]
  rw [if_neg]
  rintro ⟨htake, hgap⟩
  have hline := List.take_append_drop word.toList.length (line.dropWhile isGap)
  cases hdrop : (line.dropWhile isGap).drop word.toList.length with
  | nil =>
    rw [hdrop] at hgap
    cases hgap
  | cons gap rest =>
    rw [hdrop, List.head?_cons, Option.any_some, isGap, Bool.or_eq_true, beq_iff_eq, beq_iff_eq]
      at hgap
    have hopens : Definition.opensWith word line = true := by
      refine List.any_eq_true.2 ⟨gap, by simpa using hgap, ?_⟩
      rw [List.isPrefixOf_iff_prefix, ← hline, htake, hdrop]
      exact ⟨rest, (List.append_cons _ _ _).symm⟩
    rw [h] at hopens
    cases hopens

/-- A character that is no blank, put behind a line, does not make it begin with a reserved word. -/
theorem opensWith_concat {word : String} {line : List Char} {c : Char} (hc : isGap c = false)
    (h : Definition.opensWith word line = false) :
    Definition.opensWith word (line ++ [c]) = false := by
  have hdrop : (line ++ [c]).dropWhile isGap = line.dropWhile isGap ++ [c] := by
    rw [List.dropWhile_append]
    split_ifs with hempty
    · rw [List.isEmpty_iff.1 hempty, List.dropWhile_cons_of_neg (by simp [hc]), List.nil_append]
    · rfl
  rw [Definition.opensWith, List.any_eq_false] at h ⊢
  intro gap hgap hopens
  rw [List.isPrefixOf_iff_prefix, hdrop, List.prefix_concat_iff] at hopens
  rcases hopens with hwhole | hopens
  · obtain rfl := List.singleton_inj.1 (List.append_inj' hwhole rfl).2
    rw [List.mem_pair] at hgap
    rcases hgap with rfl | rfl <;> cases hc
  · exact h gap hgap (List.isPrefixOf_iff_prefix.2 hopens)

/-! ## Imports -/

theorem pathAt?_quoted {path : String} (h : '"' ∉ path.toList) :
    pathAt? ('"' :: (path.toList ++ ['"'])) = some path := by
  have htake : (path.toList ++ ['"']).takeWhile (· != '"') = path.toList := by
    rw [List.takeWhile_append_of_pos fun c hc => bne_iff_ne.2 (ne_of_mem_of_not_mem hc h)]
    exact List.append_nil _
  rw [pathAt?, if_pos (by simp), htake, String.ofList_toList]

theorem head?_name_append {name : List Char} (hname : QueryBody.isName name = true)
    (rest : List Char) : (name ++ rest).head?.any isGap = false := by
  cases name with
  | nil => cases hname
  | cons c name =>
    have hc := QueryBody.isNameChar_of_isName hname c List.mem_cons_self
    rw [List.cons_append, List.head?_cons, Option.any_some, isGap, Bool.or_eq_false_iff,
      beq_eq_false_iff_ne, beq_eq_false_iff_ne]
    constructor <;> rintro rfl <;> cases hc

/-- An import is read from its line as it is written. -/
theorem importAt?_text {aliasName : Option String} {path : String}
    (h : (Definition.importClause aliasName path).WellFormed) :
    importAt? (Definition.importClause aliasName path).text.toList = some { aliasName, path } := by
  obtain ⟨hname, hquote, -, -⟩ := h
  rw [Definition.toList_text_import, importAt?]
  cases aliasName with
  | none =>
    have hnone : QueryBody.nameAt? ('"' :: (path.toList ++ ['"'])) = none := rfl
    rw [Option.elim_none, List.nil_append, afterKeyword?_word (by decide) rfl rfl]
    simp only [Option.bind_eq_bind, Option.bind_some, hnone, pathAt?_quoted hquote]
  | some name =>
    have hid := (hname name rfl).1
    have hfound : QueryBody.nameAt? (name.toList ++ ' ' :: '"' :: (path.toList ++ ['"'])) =
        some name.toList := QueryBody.nameAt?_append hid rfl
    have hgap : (' ' :: '"' :: (path.toList ++ ['"'])).head?.any isGap = true := rfl
    rw [Option.elim_some, List.append_assoc, List.singleton_append,
      afterKeyword?_word (by decide) rfl (head?_name_append hid _)]
    simp only [Option.bind_eq_bind, Option.bind_some, hfound, List.drop_left, hgap, if_true,
      String.ofList_toList]
    rw [List.dropWhile_cons_of_pos (by decide), dropWhile_isGap rfl, pathAt?_quoted hquote,
      Option.bind_some]

theorem importAt?_eq_none {line : List Char} (h : Definition.opensWith "import" line = false) :
    importAt? line = none := by
  rw [importAt?, afterKeyword?_eq_none h]
  rfl

theorem newline_not_mem_name {name : List Char} (h : QueryBody.isName name = true) :
    '\n' ∉ name := fun hmem => by
  cases QueryBody.isNameChar_of_isName h '\n' hmem

/-- An import stands on one line. -/
theorem newline_not_mem_import {aliasName : Option String} {path : String}
    (h : (Definition.importClause aliasName path).WellFormed) :
    '\n' ∉ (Definition.importClause aliasName path).text.toList := by
  obtain ⟨hname, -, -, hpath⟩ := h
  rw [Definition.toList_text_import]
  cases aliasName with
  | none => simp [hpath]
  | some name => simp [hpath, newline_not_mem_name (hname name rfl).1]

/-- The lines of a definition hold its import, if it is one. -/
theorem filterMap_importAt?_text {d : Definition} (hd : d.WellFormed) :
    (d.text.toList.splitOn '\n').filterMap importAt? = d.import?.toList := by
  cases d with
  | importClause aliasName path =>
    rw [List.splitOn_eq_singleton (newline_not_mem_import hd), List.filterMap_cons,
      importAt?_text hd]
    rfl
  | query name body =>
    obtain ⟨hid, -, hbody⟩ := hd
    have hfront : '\n' ∉ "query".toList ++ ' ' :: (name.toList ++ [' ', Token.backtick]) := by
      simp [newline_not_mem_name hid.1]
      decide
    have htext : (Definition.query name body).text.toList =
        ("query".toList ++ ' ' :: (name.toList ++ [' ', Token.backtick])) ++
          (body.toList ++ [Token.backtick]) := by
      rw [Definition.toList_text_query]
      simp
    obtain ⟨first, hsplit⟩ :=
      Text.exists_splitOn_append_eq_cons hfront (body.toList ++ [Token.backtick])
    rw [htext, hsplit, List.filterMap_cons, importAt?_eq_none rfl]
    refine List.filterMap_eq_nil_iff.2 fun line hline => importAt?_eq_none ?_
    -- Only the last line of the body is longer, by the backtick.
    obtain ⟨piece, hpiece, rfl | rfl⟩ := Text.mem_tail_splitOn_append (by decide) hline
    · exact hbody _ hpiece
    · exact opensWith_concat (by decide) (hbody _ hpiece)

/-- The imports of a document are found in its text. -/
theorem imports_document {ds : List Definition} (hds : ∀ d ∈ ds, d.WellFormed) :
    imports (Definition.document ds).toList = ds.filterMap Definition.import? := by
  rw [Definition.toList_document, imports]
  by_cases hnil : ds = []
  · rw [hnil]
    rfl
  · rw [Text.splitOn_intercalate '\n' (by simpa using hnil), List.flatMap_map,
      List.filterMap_flatMap, List.filterMap_eq_flatMap_toList]
    exact List.flatMap_congr fun d hd => filterMap_importAt?_text (hds d hd)

/-! ## Queries -/

theorem queries_nil (fresh : Bool) : queries fresh [] = [] := by
  have hnone : queryAt? [] = none := rfl
  rw [queries]
  split
  · next h => simp [hnone] at h
  · rfl

theorem queries_of_none {fresh : Bool} {c : Char} {rest : List Char}
    (h : fresh = true → queryAt? (c :: rest) = none) :
    queries fresh (c :: rest) = queries (c == '\n') rest := by
  have hnone : (if fresh then queryAt? (c :: rest) else none) = none := by
    split_ifs with hfresh
    · exact h hfresh
    · rfl
  rw [queries]
  split
  · next hsome =>
    rw [hnone] at hsome
    cases hsome
  · rfl

theorem queries_of_some {text name body : List Char} (h : queryAt? text = some (name, body)) :
    queries true text = (name, body.takeWhile (· != Token.backtick)) ::
      queries false (body.dropWhile (· != Token.backtick)) := by
  rw [queries]
  split
  · next hsome =>
    rw [if_pos rfl, h] at hsome
    cases hsome
    rfl
  · next hnone =>
    rw [if_pos rfl, h] at hnone
    cases hnone

/-- Within a line no query is looked for. -/
theorem queries_within_line {u : List Char} (hu : '\n' ∉ u) (rest : List Char) :
    queries false (u ++ rest) = queries false rest := by
  induction u with
  | nil => rfl
  | cons c u ih =>
    rw [List.mem_cons, not_or] at hu
    have hc : (c == '\n') = false := beq_eq_false_iff_ne.2 (Ne.symm hu.1)
    rw [List.cons_append, queries_of_none (by simp), hc, ih hu.2]

/-- A query is read from its line as it is written. -/
theorem queryAt?_text {name body : String} (h : Definition.IsIdentifier name) (rest : List Char) :
    queryAt? ((Definition.query name body).text.toList ++ rest) =
      some (name.toList, body.toList ++ Token.backtick :: rest) := by
  have htext : (Definition.query name body).text.toList ++ rest = "query".toList ++ ' ' ::
      (name.toList ++ ' ' :: Token.backtick :: (body.toList ++ Token.backtick :: rest)) := by
    rw [Definition.toList_text_query]
    simp
  have hname : QueryBody.nameAt? (name.toList ++
      ' ' :: Token.backtick :: (body.toList ++ Token.backtick :: rest)) = some name.toList :=
    QueryBody.nameAt?_append h.1 rfl
  have hbody : bodyAt? (' ' :: Token.backtick :: (body.toList ++ Token.backtick :: rest)) =
      some (body.toList ++ Token.backtick :: rest) := rfl
  rw [htext, queryAt?, afterKeyword?_word (by decide) rfl (head?_name_append h.1 _)]
  simp only [Option.bind_eq_bind, Option.bind_some, hname, List.drop_left, hbody]

/-- The text of a definition holds its query, if it is one, and no other. -/
theorem queries_text_append {d : Definition} (hd : d.WellFormed) (rest : List Char) :
    queries true (d.text.toList ++ rest) =
      (d.query?.map fun q => (q.1.toList, q.2.toList)).toList ++ queries false rest := by
  cases d with
  | importClause aliasName path =>
    have hline := newline_not_mem_import hd
    have htext : ∃ more, (Definition.importClause aliasName path).text.toList = 'i' :: more :=
      ⟨_, Definition.toList_text_import aliasName path⟩
    obtain ⟨more, htext⟩ := htext
    have hnone : queryAt? ('i' :: (more ++ rest)) = none := by
      rw [queryAt?, afterKeyword?_eq_none rfl]
      rfl
    rw [htext, List.mem_cons, not_or] at hline
    rw [htext, List.cons_append, queries_of_none fun _ => hnone]
    exact queries_within_line hline.2 rest
  | query name body =>
    obtain ⟨hid, hbody, -⟩ := hd
    have hinside : ∀ c ∈ body.toList, (c != Token.backtick) = true :=
      fun c hc => bne_iff_ne.2 (ne_of_mem_of_not_mem hc hbody)
    rw [queries_of_some (queryAt?_text hid rest), List.takeWhile_append_of_pos hinside,
      List.dropWhile_append_of_pos hinside, List.takeWhile_cons_of_neg (by simp),
      List.dropWhile_cons_of_neg (by simp), List.append_nil,
      queries_of_none fun hfresh => absurd hfresh (by simp)]
    rfl

/-- The queries of a document are found in its text. -/
theorem queries_document {ds : List Definition} (hds : ∀ d ∈ ds, d.WellFormed) :
    queries true (Definition.document ds).toList =
      (ds.filterMap Definition.query?).map fun q => (q.1.toList, q.2.toList) := by
  rw [Definition.toList_document]
  induction ds with
  | nil => exact queries_nil true
  | cons d ds ih =>
    obtain ⟨hd, hds⟩ := List.forall_mem_cons.1 hds
    have hfirst : ((d :: ds).filterMap Definition.query?).map (fun q => (q.1.toList, q.2.toList)) =
        (d.query?.map fun q => (q.1.toList, q.2.toList)).toList ++
          (ds.filterMap Definition.query?).map fun q => (q.1.toList, q.2.toList) := by
      cases d <;> rfl
    rw [hfirst, ← ih hds]
    by_cases hnil : ds = []
    · have hlast := queries_text_append hd []
      rw [List.append_nil, queries_nil] at hlast
      rw [hnil, List.map_singleton, List.intercalate_singleton, List.map_nil, List.intercalate_nil,
        queries_nil]
      exact hlast
    · rw [List.map_cons, Text.intercalate_cons '\n' _ (by simpa using hnil), queries_text_append hd,
        queries_of_none fun hfresh => absurd hfresh (by simp)]
      rfl

end BareText

/-! ## Tables -/

/-- The symbol without its place. -/
def ImportSymbol.unplaced (s : ImportSymbol) : ImportSymbol := { s with span := none }

/-- The symbol without its place. -/
def QuerySymbol.unplaced (s : QuerySymbol) : QuerySymbol := { s with span := none }

/-- The table without the places of imports and queries. -/
def SymbolTable.unplaced (t : SymbolTable) : SymbolTable :=
  { t with
    imports := t.imports.map ImportSymbol.unplaced
    queries := t.queries.map QuerySymbol.unplaced }

/-- A change that leaves the names alone can be made before or after repetitions are left out. -/
theorem Symbol.map_keepFirst {α : Type} (key : α → String) (f : α → α)
    (h : ∀ a, key (f a) = key a) (l : List α) :
    (keepFirst key l).map f = keepFirst key (l.map f) := by
  have hkey : (fun a => key (f a)) = key := funext h
  rw [keepFirst_eq_firsts, keepFirst_eq_firsts, ← map_firsts, hkey]

namespace Extractor

variable {σ : Type} (x : Extractor σ)

/-- Loading a module does not depend on the place of its import. -/
theorem run_loadImport_unplaced (s : ImportSymbol) (st : σ) :
    (x.loadImport s.unplaced).run st =
      Prod.map ImportSymbol.unplaced id ((x.loadImport s).run st) := by
  have hpath : s.unplaced.path = s.path := rfl
  unfold loadImport
  cases x.resolver with
  | none => rfl
  | some resolver =>
    simp only [StateT.run_bind, hpath]
    dsimp only [bind]
    generalize StateT.run (resolver.load _) _ = loaded
    cases loaded.1 <;> rfl

theorem run_importSymbol?_bare (i : Import) (st : σ) :
    Prod.map (Option.map ImportSymbol.unplaced) id ((x.importSymbol? i.bare).run st) =
      Prod.map (Option.map ImportSymbol.unplaced) id ((x.importSymbol? i).run st) := by
  have hpath : i.bare.path = i.path := rfl
  have hname : i.bare.name? = i.name? := rfl
  unfold importSymbol?
  rw [hpath, hname]
  split_ifs
  · rfl
  · cases i.name? with
    | none => rfl
    | some name =>
      have hload := x.run_loadImport_unplaced { name, path := i.path, span := some i.bare.span } st
      have hload' := x.run_loadImport_unplaced { name, path := i.path, span := some i.span } st
      exact congrArg (Prod.map some id) (hload.symm.trans hload')

/-- The symbols of imports are the same up to their places, wherever the imports stand. -/
theorem run_importSymbols_bare (imports : List Import) (st : σ) :
    Prod.map (List.map ImportSymbol.unplaced) id
        ((x.importSymbols (imports.map Import.bare)).run st) =
      Prod.map (List.map ImportSymbol.unplaced) id ((x.importSymbols imports).run st) := by
  induction imports generalizing st with
  | nil => rfl
  | cons i imports ih =>
    obtain ⟨hsymbol, hstate⟩ := Prod.ext_iff.1 (x.run_importSymbol?_bare i st)
    simp only [Prod.map_fst, Prod.map_snd, id_eq] at hsymbol hstate
    obtain ⟨hrest, hlast⟩ := Prod.ext_iff.1 (ih ((x.importSymbol? i).run st).2)
    simp only [Prod.map_fst, Prod.map_snd, id_eq] at hrest hlast
    rw [List.map_cons, run_importSymbols_cons, run_importSymbols_cons, hstate]
    refine Prod.ext ?_ hlast
    simp only [Prod.map_fst, List.map_append, ← Option.toList_map, hsymbol, hrest]

/-- The symbols of queries up to their places, by the names and bodies of the queries. -/
theorem map_unplaced_querySymbols {queries : List Query} (h : ∀ q ∈ queries, q.name ≠ "") :
    (x.querySymbols queries).map QuerySymbol.unplaced =
      (queries.map fun q => (q.name, q.body)).map fun q => x.querySymbol q.1 q.2 none := by
  rw [querySymbols, List.filter_eq_self.2 fun q hq => bne_iff_ne.2 (h q hq), List.map_map,
    List.map_map]
  rfl

/-- The table of a text, and the state that loading its imports leads to. -/
theorem run_ofText (source : String) (st : σ) :
    (x.ofText source).run st =
      ({ imports := Symbol.keepFirst (·.name)
          (((x.importSymbols (BareText.imports source.toList)).run st).1.map ImportSymbol.unplaced)
         queries := Symbol.keepFirst (·.name) ((BareText.queries true source.toList).map fun q =>
           x.querySymbol (String.ofList q.1) (String.ofList q.2) none) },
        ((x.importSymbols (BareText.imports source.toList)).run st).2) := by
  rw [← Symbol.map_keepFirst (·.name) ImportSymbol.unplaced fun _ => rfl]
  rfl

/-- The table of a suite up to places, and the state that loading its imports leads to. -/
theorem run_ofSuite_unplaced (suite : Suite) (st : σ) :
    Prod.map SymbolTable.unplaced id ((x.ofSuite suite).run st) =
      ({ imports := Symbol.keepFirst (·.name)
          (((x.importSymbols suite.imports).run st).1.map ImportSymbol.unplaced)
         queries := Symbol.keepFirst (·.name)
          ((x.querySymbols suite.queries).map QuerySymbol.unplaced)
         tests := Symbol.keepFirst (·.path) suite.testSymbols },
        ((x.importSymbols suite.imports).run st).2) := by
  rw [← Symbol.map_keepFirst (·.name) ImportSymbol.unplaced fun _ => rfl,
    ← Symbol.map_keepFirst (·.name) QuerySymbol.unplaced fun _ => rfl]
  rfl

end Extractor

/-- The queries of a document have names. -/
theorem Definition.name_ne_of_mem_queries {ds : List Definition} (hds : ∀ d ∈ ds, d.WellFormed)
    {q : String × String} (h : q ∈ ds.filterMap Definition.query?) : q.1 ≠ "" := by
  obtain ⟨d, hd, hq⟩ := List.mem_filterMap.1 h
  cases d with
  | importClause aliasName path => cases hq
  | query name body =>
    cases hq
    rintro rfl
    cases (hds _ hd).1.1

/-- A document of plain imports and queries is read without errors. The table of its suite and the
table of its bare text are the same but for the places of the symbols, loading the imports leads to
the same state, and there are no tests. -/
theorem text_symbols_agree {σ : Type} (x : Extractor σ) (st : σ) {ds : List Definition}
    (hds : ∀ d ∈ ds, d.WellFormed) :
    ∃ suite, (parse .strict (Definition.document ds)).suite = some suite ∧
      (parse .strict (Definition.document ds)).error = none ∧
      suite.imports.map Import.bare = ds.filterMap Definition.import? ∧
      suite.queries.map (fun q => (q.name, q.body)) = ds.filterMap Definition.query? ∧
      (x.ofText (Definition.document ds)).run st =
        Prod.map SymbolTable.unplaced id ((x.ofSuite suite).run st) ∧
      ((x.ofSuite suite).run st).1.tests = [] := by
  obtain ⟨suite, hsuite, herror, himports, hqueries, -, -, hscopes⟩ := Definition.exists_suite hds
  have htests : suite.testSymbols = [] := by
    rw [Suite.testSymbols, hscopes]
    rfl
  have hnames : ∀ q ∈ suite.queries, q.name ≠ "" := by
    intro q hq
    have hmem : (q.name, q.body) ∈ ds.filterMap Definition.query? := by
      rw [← hqueries]
      exact List.mem_map_of_mem hq
    exact Definition.name_ne_of_mem_queries hds hmem
  have hsymbols := x.run_importSymbols_bare suite.imports st
  rw [himports, ← BareText.imports_document hds] at hsymbols
  obtain ⟨hloaded, hstate⟩ := Prod.ext_iff.1 hsymbols
  simp only [Prod.map_fst, Prod.map_snd, id_eq] at hloaded hstate
  refine ⟨suite, hsuite, herror, himports, hqueries, ?_, ?_⟩
  · rw [x.run_ofText, x.run_ofSuite_unplaced, BareText.queries_document hds,
      x.map_unplaced_querySymbols hnames, hqueries, htests, List.map_map, hloaded, hstate]
    simp only [Function.comp_def, String.ofList_toList]
    rfl
  · exact congrArg (Symbol.keepFirst (·.path)) htests

/-- Imports with and without a name, and a name that two queries have. -/
theorem text_symbols_agree_repeated :
    Definition.document
        [.importClause none "lib/a", .importClause (some "m") "`", .query "q" "x\n query r",
          .query "q" ""] =
      "import \"lib/a\"\nimport m \"`\"\nquery q `x\n query r`\nquery q ``" ∧
    ∃ suite, (parse .strict (Definition.document
          [.importClause none "lib/a", .importClause (some "m") "`", .query "q" "x\n query r",
            .query "q" ""])).suite = some suite ∧
      suite.queries.map (fun q => (q.name, q.body)) = [("q", "x\n query r"), ("q", "")] ∧
      (({} : Extractor Unit).ofText (Definition.document
          [.importClause none "lib/a", .importClause (some "m") "`", .query "q" "x\n query r",
            .query "q" ""])).run () =
        Prod.map SymbolTable.unplaced id ((({} : Extractor Unit).ofSuite suite).run ()) := by
  refine ⟨by decide, ?_⟩
  obtain ⟨suite, hsuite, -, -, hqueries, htable, -⟩ := text_symbols_agree ({} : Extractor Unit) ()
    (by decide : ∀ d ∈ [Definition.importClause none "lib/a", .importClause (some "m") "`",
      .query "q" "x\n query r", .query "q" ""], d.WellFormed)
  exact ⟨suite, hsuite, hqueries, htable⟩

end QuerySuite
