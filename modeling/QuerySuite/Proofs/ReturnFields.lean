import Mathlib
import QuerySuite.Proofs.ReturnClauses
import QuerySuite.Proofs.TopLevelItems

/-!
# Fields of a RETURN clause

The fields of a clause whose items are properties, with or without an alias, are the aliases and the
last parts of the properties. But the clause is cut off at the first word SKIP, LIMIT or UNION, and
a name is such a word too: a property or an alias of that name cuts its own item, and those behind
it are lost. What is left of the item, if it has begun, is no name, so that the fields cannot be
right then.

Results:

* `QueryBody.ReturnItem.fieldName_text`: the field of a whole item.
* `QueryBody.Stump.field_not_isName`: what is left of an item that was cut gives no name.
* `QueryBody.clauseFields_of_cut`: the fields of a clause of which the last item may be cut.
* `QueryBody.returns_clause_iff`: when the fields of a body are those of its clause.
* `QueryBody.returns_property_cut`: a property that cuts its own item.
-/

namespace QuerySuite.QueryBody

/-! ## Reading the items -/

/-- A character that an item can consist of. -/
def isItemChar (c : Char) : Bool := Token.isNameChar c || c == '.' || c == ' '

/-- A clause of pieces without commas and brackets is cut into these pieces. -/
theorem splitTop_intercalate {pieces : List (List Char)} (hne : pieces ≠ [])
    (h : ∀ piece ∈ pieces, ∀ c ∈ piece, isItemChar c = true) :
    splitTop 0 ([','].intercalate pieces) = pieces := by
  refine splitTop_intercalate_of_settles hne fun piece hpiece => settles_of_plain fun c hc => ?_
  have hitem := h piece hpiece c hc
  refine ⟨?_, by rintro rfl; exact absurd hitem (by decide)⟩
  rw [depthChange, if_neg, if_neg]
  · rintro (rfl | rfl | rfl) <;> exact absurd hitem (by decide)
  · rintro (rfl | rfl | rfl) <;> exact absurd hitem (by decide)

/-- The text begins with no blank, and ends with no blank and no semicolon. -/
structure Tight (text : List Char) : Prop where
  first : ∀ c ∈ text.head?, Text.isBlank c = false
  last : ∀ c ∈ text.getLast?, Text.isBlank c = false ∧ c ≠ ';'

/-- The blanks around a text are taken off. -/
theorem tidy_of_tight {text pad : List Char} (hne : text ≠ []) (h : Tight text)
    (hpad : ∀ c ∈ pad, Text.isBlank c = true) : tidy (' ' :: (text ++ pad)) = text := by
  have hend {pad : List Char} (hpad : ∀ c ∈ pad, Text.isBlank c = true) :
      Text.trimEnd (text ++ pad) = text := by
    rw [Text.trimEnd, List.reverse_append,
      List.dropWhile_append_of_pos (fun c hc => hpad c (List.mem_reverse.1 hc)),
      Text.dropWhile_of_head? (by rw [List.head?_reverse]; exact fun c hc => (h.last c hc).1),
      List.reverse_reverse]
  have hhead : (text ++ pad).head? = text.head? := List.head?_append_of_ne_nil _ hne
  have htrim : Text.trim (' ' :: (text ++ pad)) = text := by
    rw [Text.trim, List.dropWhile_cons_of_pos (by decide),
      Text.dropWhile_of_head? (by rw [hhead]; exact h.first), hend hpad]
  have hsemicolons : dropSemicolons text = text := by
    rw [dropSemicolons, Text.dropWhile_of_head?, List.reverse_reverse]
    rw [List.head?_reverse]
    exact fun c hc => by simpa using (h.last c hc).2
  have hagain : Text.trim text = text := by
    have hnone : Text.trimEnd (text ++ []) = text := hend (by simp)
    rw [List.append_nil] at hnone
    rw [Text.trim, Text.dropWhile_of_head? h.first, hnone]
  rw [tidy, htrim, hsemicolons, hagain]

theorem isBlank_eq_false_of_isWord {c : Char} (h : Text.isWord c = true) :
    Text.isBlank c = false := by
  rw [← Bool.not_eq_true]
  intro hblank
  rw [Text.isWord_eq_false_of_isBlank hblank] at h
  cases h

/-- A name begins with no blank. -/
theorem not_blank_name {name : List Char} (h : isName name = true) (rest : List Char) :
    ∀ c ∈ (name ++ rest).head?, Text.isBlank c = false := by
  cases name with
  | nil => cases h
  | cons d name =>
    rintro c ⟨⟩
    exact isBlank_eq_false_of_isWord (isWord_of_isName h d List.mem_cons_self)

/-- A clause keeps its first name, unless it is the word DISTINCT. -/
theorem dropDistinct_name {name rest : List Char} (hname : isName name = true)
    (hrest : endsWord rest = true) (h : isSpelled "distinct" name = false) :
    dropDistinct (' ' :: (name ++ rest)) = ' ' :: (name ++ rest) := by
  rw [dropDistinct, List.dropWhile_cons_of_pos (by decide),
    Text.dropWhile_of_head? (not_blank_name hname rest), wordAt?_name (by decide) hname rfl hrest,
    h, if_neg Bool.false_ne_true, Option.getD_none]

/-! ## Names of fields -/

/-- There are no blanks in a path. -/
theorem isBlank_of_mem_intercalate {parts : List (List Char)}
    (h : ∀ part ∈ parts, isName part = true) :
    ∀ c ∈ ['.'].intercalate parts, Text.isBlank c = false := by
  intro c hc
  rcases Text.mem_intercalate hc with rfl | ⟨part, hpart, hc⟩
  · decide
  · exact isBlank_eq_false_of_isWord (isWord_of_isName (h part hpart) c hc)

theorem isAlias_of_isName {name : List Char} (h : isName name = true) : isAlias name = true := by
  cases name with
  | nil => cases h
  | cons c name =>
    rw [isName, Bool.and_eq_true, List.all_eq_true] at h
    rw [isAlias, Bool.and_eq_true, List.all_eq_true]
    exact ⟨by simp [isAliasStart, h.1], fun d hd => by simp [isAliasChar, h.2 d hd]⟩

theorem alias?_of_not_blank {text : List Char} (h : ∀ c ∈ text, Text.isBlank c = false) :
    alias? text = none := by
  have hdrop : text.reverse.dropWhile (!Text.isBlank ·) = [] :=
    List.dropWhile_eq_nil_iff.2 fun c hc => by simp [h c (List.mem_reverse.1 hc)]
  rw [alias?, hdrop]
  rfl

/-- The name behind the word AS is the alias. -/
theorem alias?_as (text : List Char) {name : List Char} (h : isName name = true) :
    alias? (text ++ ' ' :: 'A' :: 'S' :: ' ' :: name) = some name := by
  have hname : ∀ c ∈ name.reverse, (!Text.isBlank c) = true := by
    intro c hc
    simp [isBlank_eq_false_of_isWord (isWord_of_isName h c (List.mem_reverse.1 hc))]
  have hback : (text ++ ' ' :: 'A' :: 'S' :: ' ' :: name).reverse =
      name.reverse ++ ' ' :: 'S' :: 'A' :: ' ' :: text.reverse := by simp
  have htake : (name.reverse ++ ' ' :: 'S' :: 'A' :: ' ' :: text.reverse).takeWhile
      (!Text.isBlank ·) = name.reverse := by
    rw [List.takeWhile_append_of_pos hname, List.takeWhile_cons_of_neg (by decide),
      List.append_nil]
  have hdrop : ((name.reverse ++ ' ' :: 'S' :: 'A' :: ' ' :: text.reverse).dropWhile
      (!Text.isBlank ·)).dropWhile Text.isBlank = 'S' :: 'A' :: ' ' :: text.reverse := by
    rw [List.dropWhile_append_of_pos hname, List.dropWhile_cons_of_neg (by decide),
      List.dropWhile_cons_of_pos (by decide), List.dropWhile_cons_of_neg (by decide)]
  have hletters : (isLetter 's' 'S' && isLetter 'a' 'A' && Text.isBlank ' ') = true := by decide
  simp only [alias?, hback, htake, hdrop, List.reverse_reverse, hletters, isAlias_of_isName h,
    Bool.and_true, if_true]

/-- A word AS without a name behind it is no alias. -/
theorem alias?_of_as {text : List Char} (h : ∀ c ∈ text, Text.isBlank c = false) :
    alias? (text ++ [' ', 'A', 'S']) = none := by
  have hback : (text ++ [' ', 'A', 'S']).reverse = 'S' :: 'A' :: ' ' :: text.reverse := by simp
  have hnone : ∀ c ∈ text.reverse, Text.isBlank c = false :=
    fun c hc => h c (List.mem_reverse.1 hc)
  have hdrop : (('S' :: 'A' :: ' ' :: text.reverse).dropWhile (!Text.isBlank ·)).dropWhile
      Text.isBlank = text.reverse := by
    rw [List.dropWhile_cons_of_pos (by decide), List.dropWhile_cons_of_pos (by decide),
      List.dropWhile_cons_of_neg (by decide), List.dropWhile_cons_of_pos (by decide),
      Text.dropWhile_of_head? fun c hc => hnone c (List.mem_of_mem_head? hc)]
  simp only [alias?, hback, hdrop]
  split
  · next s a blank more heq =>
    have hblank : Text.isBlank blank = false := hnone blank (by rw [heq]; simp)
    rw [hblank, Bool.and_false, Bool.false_and, if_neg Bool.false_ne_true]
  · rfl

/-- A property is known by its last part. -/
theorem property?_intercalate {parts : List (List Char)} (hne : parts ≠ [])
    (h : ∀ part ∈ parts, isName part = true) :
    property? (['.'].intercalate parts) = parts.getLast? := by
  have hsplit : (['.'].intercalate parts).splitOn '.' = parts :=
    List.splitOn_intercalate '.' (fun part hpart hdot =>
      absurd (isNameChar_of_isName (h part hpart) '.' hdot) (by decide)) hne
  simp only [property?, hsplit]
  rw [if_pos (List.all_eq_true.2 h)]

/-- A text that holds a blank is no property. -/
theorem property?_of_blank {text : List Char} (h : ' ' ∈ text) : property? text = none := by
  simp only [property?]
  rw [if_neg]
  intro hall
  have hjoined : ' ' ∈ ['.'].intercalate (text.splitOn '.') := by rwa [List.intercalate_splitOn]
  rcases Text.mem_intercalate hjoined with hdot | ⟨part, hpart, hblank⟩
  · cases hdot
  · have hname := isNameChar_of_isName (List.all_eq_true.1 hall part hpart) ' ' hblank
    exact absurd hname (by decide)

/-- A text that ends with a dot is no property. -/
theorem property?_concat_dot (text : List Char) : property? (text ++ ['.']) = none := by
  simp only [property?]
  rw [if_neg]
  intro hall
  rw [List.splitOn_append_cons_self, List.all_append, Bool.and_eq_true] at hall
  exact absurd hall.2 (by decide)

/-! ## Whole items -/

theorem isItemChar_of_mem_intercalate {parts : List (List Char)}
    (h : ∀ part ∈ parts, isName part = true) :
    ∀ c ∈ ['.'].intercalate parts, isItemChar c = true := by
  intro c hc
  rcases Text.mem_intercalate hc with rfl | ⟨part, hpart, hc⟩
  · decide
  · simp [isItemChar, isNameChar_of_isName (h part hpart) c hc]

/-- A text between two names is tight. -/
theorem tight_of_names {text name name' front rest : List Char} (hname : isName name = true)
    (hname' : isName name' = true) (hfirst : text = name ++ rest) (hlast : text = front ++ name') :
    Tight text := by
  constructor
  · rw [hfirst]
    exact not_blank_name hname rest
  · have hne : name' ≠ [] := by
      rintro rfl
      cases hname'
    intro c hc
    rw [hlast, List.getLast?_append_of_ne_nil _ hne] at hc
    have hmem := List.mem_of_mem_getLast? hc
    refine ⟨isBlank_eq_false_of_isWord (isWord_of_isName hname' c hmem), ?_⟩
    rintro rfl
    exact absurd (isNameChar_of_isName hname' ';' hmem) (by decide)

namespace ReturnItem

theorem getLast?_parts {i : ReturnItem} (h : i.aliasName = none) :
    i.parts.getLast? = some i.field.toList := by
  rw [parts, List.getLast?_map, field, h, Option.getD_none, List.getLastD_eq_getLast?, path,
    List.getLast?_cons]
  rfl

theorem field_of_alias {i : ReturnItem} {name : String} (h : i.aliasName = some name) :
    i.field = name := by rw [field, h, Option.getD_some]

theorem toList_text_of_alias {i : ReturnItem} {name : String} (h : i.aliasName = some name) :
    i.text.toList = ['.'].intercalate i.parts ++ ' ' :: 'A' :: 'S' :: ' ' :: name.toList := by
  rw [i.toList_text, aliasText, h, Option.elim_some]

theorem toList_text_of_none {i : ReturnItem} (h : i.aliasName = none) :
    i.text.toList = ['.'].intercalate i.parts := by
  rw [i.toList_text, aliasText, h, Option.elim_none, List.append_nil]

variable {i : ReturnItem} (hi : i.IsNamed)

include hi

theorem isName_alias {name : String} (h : i.aliasName = some name) : isName name.toList = true :=
  (hi name (List.mem_append_right _ (by simp [h]))).1

theorem isItemChar_of_mem_text : ∀ c ∈ i.text.toList, isItemChar c = true := by
  have hpath := isItemChar_of_mem_intercalate (isName_of_mem_parts hi)
  cases halias : i.aliasName with
  | none =>
    rw [toList_text_of_none halias]
    exact hpath
  | some name =>
    have hname : ∀ c ∈ name.toList, isItemChar c = true := fun c hc => by
      simp [isItemChar, isNameChar_of_isName (isName_alias hi halias) c hc]
    have hmarks : [' ', 'A', 'S', ' '].all isItemChar = true := by decide
    rw [toList_text_of_alias halias]
    exact List.forall_mem_append.2
      ⟨hpath, List.forall_mem_append.2 ⟨List.all_eq_true.1 hmarks, hname⟩⟩

/-- An item ends with its field. -/
theorem exists_text_eq_append :
    ∃ front, i.text.toList = front ++ i.field.toList ∧ isName i.field.toList = true := by
  cases halias : i.aliasName with
  | none =>
    have hlast := getLast?_parts halias
    obtain ⟨front, hfront⟩ := Text.exists_intercalate_eq_append '.' hlast
    rw [toList_text_of_none halias]
    exact ⟨front, hfront, isName_of_mem_parts hi _ (List.mem_of_getLast? hlast)⟩
  | some name =>
    rw [toList_text_of_alias halias, field_of_alias halias]
    refine ⟨['.'].intercalate i.parts ++ [' ', 'A', 'S', ' '], ?_, isName_alias hi halias⟩
    rw [List.append_assoc]
    rfl

theorem tidy_text {pad : List Char} (hpad : ∀ c ∈ pad, Text.isBlank c = true) :
    tidy (' ' :: (i.text.toList ++ pad)) = i.text.toList := by
  have hroot := (hi _ i.root_mem_words).1
  obtain ⟨rest, hfirst, -⟩ := i.exists_text_append closes_nil
  rw [List.append_nil] at hfirst
  obtain ⟨front, hlast, hfield⟩ := exists_text_eq_append hi
  refine tidy_of_tight ?_ (tight_of_names hroot hfield hfirst hlast) hpad
  rw [hfirst]
  intro hnil
  rw [(List.append_eq_nil_iff.1 hnil).1] at hroot
  cases hroot

/-- The field of an item is its alias, or else the last part of its path. -/
theorem fieldName_text : fieldName i.text.toList = i.field.toList := by
  have hparts := isName_of_mem_parts hi
  cases halias : i.aliasName with
  | none =>
    have hne : i.parts ≠ [] := List.cons_ne_nil _ _
    rw [fieldName, toList_text_of_none halias,
      alias?_of_not_blank (isBlank_of_mem_intercalate hparts), property?_intercalate hne hparts,
      getLast?_parts halias]
    rfl
  | some name =>
    rw [fieldName, toList_text_of_alias halias, alias?_as _ (isName_alias hi halias),
      field_of_alias halias]
    rfl

end ReturnItem

/-! ## Items that were cut -/

/-- An item that says something other than everything. -/
def isTold (item : List Char) : Bool := !item.isEmpty && item != ['*']

theorem isTold_name {name : List Char} (h : isName name = true) (rest : List Char) :
    isTold (name ++ rest) = true := by
  cases name with
  | nil => cases h
  | cons c name =>
    have hc : c ≠ '*' := by
      rintro rfl
      exact absurd (isNameChar_of_isName h '*' List.mem_cons_self) (by decide)
    simp [isTold, hc]

/-- An item without an alias that is no property gives no name. -/
theorem not_isName_fieldName {text : List Char} {c : Char} (halias : alias? text = none)
    (hproperty : property? text = none) (hmem : c ∈ text) (hc : Token.isNameChar c = false) :
    isName (fieldName text) = false := by
  have hfield : fieldName text = text := by
    rw [fieldName, halias, hproperty]
    rfl
  rw [hfield, ← Bool.not_eq_true]
  intro hname
  rw [isNameChar_of_isName hname c hmem] at hc
  cases hc

/-- A path with a mark behind it is an item, without the blanks around it. -/
theorem tidy_path {root : List Char} {parts : List (List Char)}
    (names : ∀ part ∈ root :: parts, isName part = true) (mark pad : List Char) {c : Char}
    (hends : endsWord mark = true) (hlast : mark.getLast? = some c)
    (hc : Text.isBlank c = false ∧ c ≠ ';') (hpad : ∀ c ∈ pad, Text.isBlank c = true) :
    tidy (' ' :: (['.'].intercalate (root :: parts) ++ mark ++ pad)) =
        ['.'].intercalate (root :: parts) ++ mark ∧
      isTold (['.'].intercalate (root :: parts) ++ mark) = true := by
  obtain ⟨more, hfirst, -⟩ := exists_intercalate_cons_append root parts hends
  have hroot := names root List.mem_cons_self
  have htold := isTold_name hroot more
  have hmark : mark ≠ [] := by
    rintro rfl
    cases hlast
  have htight : Tight (['.'].intercalate (root :: parts) ++ mark) := by
    constructor
    · rw [hfirst]
      exact not_blank_name hroot more
    · rw [List.getLast?_append_of_ne_nil _ hmark, hlast]
      rintro _ ⟨⟩
      exact hc
  rw [hfirst] at htight ⊢
  refine ⟨tidy_of_tight ?_ htight hpad, htold⟩
  intro hnil
  rw [hnil] at htold
  cases htold

theorem ReturnItem.isTold_text {i : ReturnItem} (hi : i.IsNamed) : isTold i.text.toList = true := by
  obtain ⟨more, hmore, -⟩ := i.exists_text_append closes_nil
  rw [List.append_nil] at hmore
  rw [hmore]
  exact isTold_name (hi _ i.root_mem_words).1 more

/-- What is left of an item that was cut is an item too, and its field is no name. -/
theorem Stump.field_not_isName {root kept : List Char} (h : Stump root kept) :
    isTold (tidy (' ' :: kept)) = true ∧ isName (fieldName (tidy (' ' :: kept))) = false := by
  cases h with
  | path names =>
    obtain ⟨htidy, htold⟩ := tidy_path names ['.'] [] (by decide) rfl (by decide)
      (List.forall_mem_nil _)
    rw [List.append_nil] at htidy
    rw [htidy]
    refine ⟨htold, not_isName_fieldName (alias?_of_not_blank ?_) (property?_concat_dot _)
      (c := '.') (by simp) (by decide)⟩
    exact List.forall_mem_append.2 ⟨isBlank_of_mem_intercalate names, by simp; decide⟩
  | @named parts names =>
    have hsplit : ['.'].intercalate (root :: parts) ++ [' ', 'A', 'S', ' '] =
        ['.'].intercalate (root :: parts) ++ [' ', 'A', 'S'] ++ [' '] := by simp
    obtain ⟨htidy, htold⟩ := tidy_path names [' ', 'A', 'S'] [' '] (by decide) rfl (by decide)
      (by simp; decide)
    rw [hsplit, htidy]
    exact ⟨htold, not_isName_fieldName (alias?_of_as (isBlank_of_mem_intercalate names))
      (property?_of_blank (by simp)) (c := ' ') (by simp) (by decide)⟩

namespace Stump

variable {root kept : List Char}

theorem exists_eq_append (h : Stump root kept) :
    ∃ rest, kept = root ++ rest ∧ endsWord rest = true := by
  cases h with
  | path names => exact exists_intercalate_cons_append root _ (by decide)
  | named names => exact exists_intercalate_cons_append root _ (by decide)

theorem isItemChar_of_mem (h : Stump root kept) : ∀ c ∈ kept, isItemChar c = true := by
  cases h with
  | path names =>
    exact List.forall_mem_append.2
      ⟨isItemChar_of_mem_intercalate names, List.all_eq_true.1 (by decide)⟩
  | named names =>
    exact List.forall_mem_append.2
      ⟨isItemChar_of_mem_intercalate names, List.all_eq_true.1 (by decide)⟩

end Stump

/-! ## Clauses -/

/-- The items before the last one are whole, and something is left of the last one. -/
theorem items_clause {front : List ReturnItem} (hfront : ∀ i ∈ front, i.IsNamed) {kept : List Char}
    (hkept : ∀ c ∈ kept, isItemChar c = true) :
    items (clauseEnding front kept) =
      front.map (fun i => i.text.toList) ++ [tidy (' ' :: kept)].filter isTold := by
  have hchars : ∀ piece ∈ front.map (fun i => ' ' :: i.text.toList) ++ [' ' :: kept],
      ∀ c ∈ piece, isItemChar c = true := by
    intro piece hpiece
    rcases List.mem_append.1 hpiece with hpiece | hpiece
    · obtain ⟨i, hi, rfl⟩ := List.mem_map.1 hpiece
      exact List.forall_mem_cons.2 ⟨by decide, ReturnItem.isItemChar_of_mem_text (hfront i hi)⟩
    · rw [List.mem_singleton.1 hpiece]
      exact List.forall_mem_cons.2 ⟨by decide, hkept⟩
  have htidy : (front.map (fun i => ' ' :: i.text.toList)).map tidy =
      front.map (fun i => i.text.toList) := by
    rw [List.map_map]
    refine List.map_congr_left fun i hi => ?_
    have h := ReturnItem.tidy_text (hfront i hi) (List.forall_mem_nil _)
    rw [List.append_nil] at h
    rw [Function.comp_apply, h]
  have htold : (front.map (fun i => i.text.toList)).filter isTold =
      front.map (fun i => i.text.toList) := by
    refine List.filter_eq_self.2 fun text htext => ?_
    obtain ⟨i, hi, rfl⟩ := List.mem_map.1 htext
    exact ReturnItem.isTold_text (hfront i hi)
  rw [items, clauseEnding, splitTop_intercalate (by simp) hchars, List.map_append, htidy]
  exact (List.filter_append ..).trans (congrArg (· ++ _) htold)

/-- The fields of a clause, with those that come again. -/
def clauseFields (clause : List Char) : List String :=
  (items (dropDistinct (cutClause none clause))).map (String.ofList <| fieldName ·)

/-- No word DISTINCT is dropped from a clause that begins with another name. -/
theorem dropDistinct_clause {front : List ReturnItem} (hfront : ∀ i ∈ front, i.IsNamed)
    (hfirst : ∀ i ∈ front.head?, isSpelled "distinct" i.root.toList = false) {kept : List Char}
    (hkept : front = [] → dropDistinct (' ' :: kept) = ' ' :: kept) :
    dropDistinct (clauseEnding front kept) = clauseEnding front kept := by
  cases front with
  | nil =>
    rw [clauseEnding_nil]
    exact hkept rfl
  | cons i front =>
    have hi := (hfront i List.mem_cons_self) _ i.root_mem_words
    obtain ⟨more, hmore, hends⟩ := i.exists_text_append
      (closes_mark (c := ',') (by decide) (by decide) (clauseEnding front kept))
    rw [clauseEnding_cons, List.cons_append, hmore, dropDistinct_name hi.1 hends (hfirst i rfl)]

/-- The fields of a clause of which the items before the last one are whole. -/
theorem clauseFields_of_cut {clause : List Char} {front : List ReturnItem}
    (hfront : ∀ i ∈ front, i.IsNamed)
    (hfirst : ∀ i ∈ front.head?, isSpelled "distinct" i.root.toList = false) {kept : List Char}
    (hkept : front = [] → dropDistinct (' ' :: kept) = ' ' :: kept)
    (hchars : ∀ c ∈ kept, isItemChar c = true)
    (hcut : cutClause none clause = clauseEnding front kept) :
    clauseFields clause = front.map ReturnItem.field ++
      ([tidy (' ' :: kept)].filter isTold).map (String.ofList <| fieldName ·) := by
  have hfields : (front.map fun i => i.text.toList).map (String.ofList <| fieldName ·) =
      front.map ReturnItem.field := by
    rw [List.map_map]
    refine List.map_congr_left fun i hi => ?_
    rw [Function.comp_apply, ReturnItem.fieldName_text (hfront i hi), String.ofList_toList]
  rw [clauseFields, hcut, dropDistinct_clause hfront hfirst hkept, items_clause hfront hchars,
    List.map_append, hfields]

theorem ClauseTail.closes_pad (tail : ClauseTail) : Closes tail.pad := by
  cases tail with
  | absent => exact closes_nil
  | orderBy => exact ⟨by decide, by decide⟩
  | limit => exact ⟨by decide, by decide⟩

theorem ClauseTail.forall_mem_pad (tail : ClauseTail) :
    ∀ c ∈ tail.pad, Text.isBlank c = true ∧ isItemChar c = true := by
  cases tail with
  | absent => exact List.forall_mem_nil _
  | orderBy => exact List.forall_mem_singleton.2 (by decide)
  | limit => exact List.forall_mem_singleton.2 (by decide)

theorem mem_head?_append {front : List ReturnItem} {i : ReturnItem} (h : i ∈ front.head?)
    (more : List ReturnItem) : i ∈ (front ++ more).head? := by
  rw [List.head?_append, h]
  rfl

/-- A clause without names that end it gives the fields of its items. -/
theorem clauseFields_of_isPlain {items : List ReturnItem} (hne : items ≠ [])
    (hitems : ∀ i ∈ items, i.IsNamed)
    (hfirst : ∀ i ∈ items.head?, isSpelled "distinct" i.root.toList = false)
    (hplain : ∀ i ∈ items, i.IsPlain) (tail : ClauseTail) :
    clauseFields (clauseText items ++ tail.text.toList) = items.map ReturnItem.field := by
  have hcut := cut_clause_of_isPlain hitems tail hplain none
  obtain ⟨front, last, rfl⟩ := (List.eq_nil_or_concat' items).resolve_left hne
  obtain ⟨hfront, hlast⟩ := List.forall_mem_append.1 hitems
  have hlast := hlast last List.mem_cons_self
  have hclause : clauseText (front ++ [last]) ++ tail.pad =
      clauseEnding front (last.text.toList ++ tail.pad) := by
    rw [clauseText, List.map_append, List.map_singleton, Text.intercalate_concat_append]
    rfl
  have hblank : ∀ c ∈ tail.pad, Text.isBlank c = true :=
    fun c hc => (tail.forall_mem_pad c hc).1
  rw [hclause] at hcut
  rw [clauseFields_of_cut hfront ?_ ?_ ?_ hcut, ReturnItem.tidy_text hlast hblank,
    List.filter_cons_of_pos (ReturnItem.isTold_text hlast), List.filter_nil, List.map_singleton,
    ReturnItem.fieldName_text hlast, String.ofList_toList, List.map_append, List.map_singleton]
  · exact fun i hi => hfirst i (mem_head?_append hi _)
  · rintro rfl
    obtain ⟨more, hmore, hends⟩ := last.exists_text_append tail.closes_pad
    rw [hmore, dropDistinct_name (hlast _ last.root_mem_words).1 hends (hfirst last rfl)]
  · exact List.forall_mem_append.2
      ⟨ReturnItem.isItemChar_of_mem_text hlast, fun c hc => (tail.forall_mem_pad c hc).2⟩

section

variable {front more : List ReturnItem} {item : ReturnItem}
  (hitems : ∀ i ∈ front ++ item :: more, i.IsNamed)
  (hfirst : ∀ i ∈ (front ++ item :: more).head?, isSpelled "distinct" i.root.toList = false)
  (hplain : ∀ i ∈ front, i.IsPlain) (tail : ClauseTail)

include hitems hfirst hplain

/-- A clause is lost from the first item on that begins with a word that ends it. -/
theorem clauseFields_of_isClauseWord (hroot : isClauseWord item.root.toList = true) :
    clauseFields (clauseText (front ++ item :: more) ++ tail.text.toList) =
      front.map ReturnItem.field := by
  obtain ⟨hfront, hmore⟩ := List.forall_mem_append.1 hitems
  have hcut : cutClause none (clauseText (front ++ item :: more) ++ tail.text.toList) =
      clauseEnding front [] := by
    obtain ⟨rest, hrest, hcut⟩ := cut_clause_of_append hfront hplain tail none
    have hitem := hmore item List.mem_cons_self
    rw [hcut, ReturnItem.cut_of_isClauseWord hitem hroot (by decide) hrest]
  have hnone : tidy [' '] = [] := by decide
  rw [clauseFields_of_cut hfront ?_ ?_ (List.forall_mem_nil _) hcut, hnone]
  · exact List.append_nil _
  · exact fun i hi => hfirst i (mem_head?_append hi _)
  · intro _
    decide

/-- A clause that is cut within an item has a field that is no name. -/
theorem exists_clauseFields_of_not_isPlain (hitem : ¬ item.IsPlain)
    (hroot : isClauseWord item.root.toList = false) :
    ∃ name ∈ clauseFields (clauseText (front ++ item :: more) ++ tail.text.toList),
      isName name.toList = false := by
  obtain ⟨hfront, hmore⟩ := List.forall_mem_append.1 hitems
  have hnamed := hmore item List.mem_cons_self
  obtain ⟨kept, hstump, hcut⟩ : ∃ kept, Stump item.root.toList kept ∧
      cutClause none (clauseText (front ++ item :: more) ++ tail.text.toList) =
        clauseEnding front kept := by
    obtain ⟨rest, hrest, hcut⟩ := cut_clause_of_append hfront hplain tail none
    exact ⟨_, ReturnItem.cut_of_not_isPlain hnamed hitem hroot (by decide) hrest, hcut⟩
  obtain ⟨htold, hname⟩ := hstump.field_not_isName
  refine ⟨String.ofList (fieldName (tidy (' ' :: kept))), ?_, by rw [String.toList_ofList, hname]⟩
  rw [clauseFields_of_cut hfront ?_ ?_ hstump.isItemChar_of_mem hcut,
    List.filter_cons_of_pos htold]
  · exact List.mem_append_right _ List.mem_cons_self
  · exact fun i hi => hfirst i (mem_head?_append hi _)
  · rintro rfl
    obtain ⟨rest, rfl, hends⟩ := hstump.exists_eq_append
    rw [dropDistinct_name (hnamed _ item.root_mem_words).1 hends (hfirst item rfl)]

end

/-! ## Bodies -/

theorem charBefore_none (text : List Char) : charBefore none text = text.getLast? := by
  cases text using List.reverseRecOn with
  | nil => rfl
  | append_singleton text c _ => rw [charBefore_concat, List.getLast?_concat]

/-- The items stand behind blanks, as they do in the text of a body. -/
theorem clauseText_eq_cons {items : List ReturnItem} (h : items ≠ []) :
    clauseText items = ' ' :: (", ".intercalate (items.map ReturnItem.text)).toList := by
  rw [String.toList_intercalate, List.map_map]
  induction items with
  | nil => exact absurd rfl h
  | cons i items ih =>
    cases items with
    | nil => simp [clauseText_singleton]
    | cons next items =>
      rw [clauseText_cons (by simp), ih (by simp), List.map_cons, List.map_cons,
        List.map_cons, List.intercalate_cons_cons, List.append_assoc]
      rfl

/-- What follows the last word RETURN is found. -/
theorem afterReturn?_return {clause : List Char} {before : Option Char}
    (hbefore : before.any Text.isWord = false) (hends : endsWord clause = true)
    (hlast : ∀ before, afterReturn? before clause = none) :
    afterReturn? before ("RETURN".toList ++ clause) = some clause := by
  have hover : PassesOver beginsClause clause (some 'R') "ETURN".toList :=
    .inside findsWords_beginsClause (by decide) (List.all_eq_true.1 (by decide))
  have hcons : "RETURN".toList ++ clause = 'R' :: ("ETURN".toList ++ clause) := rfl
  rw [hcons, afterReturn?, afterReturn?_append hover, hlast, ← hcons]
  exact wordAt?_name (by decide) (by decide) hbefore hends

/-- The fields of a body are those of the clause behind its last word RETURN. -/
theorem returns_eq_eraseDups {front : String}
    (hfront : front.toList.getLast?.any Text.isWord = false) {items : List ReturnItem}
    (hne : items ≠ []) (hitems : ∀ i ∈ items, i.IsNamed) (tail : ClauseTail) :
    returns (front ++ "RETURN " ++ ", ".intercalate (items.map ReturnItem.text) ++ tail.text) =
      (clauseFields (clauseText items ++ tail.text.toList)).eraseDups := by
  have hclause := clauseText_eq_cons hne
  have hbody : (front ++ "RETURN " ++ ", ".intercalate (items.map ReturnItem.text) ++
      tail.text).toList = front.toList ++ ("RETURN".toList ++
        (clauseText items ++ tail.text.toList)) := by
    simp [hclause, String.toList_append]
  have hends : endsWord (clauseText items ++ tail.text.toList) = true := by
    rw [hclause]
    exact endsWord_iff.2 (by simp; decide)
  have hfound : afterReturn? (charBefore none front.toList)
      ("RETURN".toList ++ (clauseText items ++ tail.text.toList)) =
        some (clauseText items ++ tail.text.toList) :=
    afterReturn?_return (by rw [charBefore_none, hfront]) hends (afterReturn?_clause hitems tail)
  rw [returns, hbody, afterReturn?_of_some hfound]
  rfl

theorem eraseDups_append_eq_iff {names more : List String} :
    names.eraseDups = (names ++ more).eraseDups ↔ ∀ name ∈ more, name ∈ names := by
  constructor
  · intro h name hname
    rw [← List.mem_eraseDups, h, List.mem_eraseDups]
    exact List.mem_append_right _ hname
  · intro h
    have hnone : more.removeAll names = [] := by
      rw [List.removeAll, List.filter_eq_nil_iff]
      exact fun name hname => by simpa using h name hname
    rw [List.eraseDups_append, hnone, List.eraseDups_nil, List.append_nil]

/-- Let a body end with a clause whose items are properties, with or without an alias, in which no
name is the word RETURN and the first is not DISTINCT. The fields that the body returns are those of
the items, each once and in the order of first occurrence, exactly if no name in the clause is SKIP,
LIMIT or UNION, or if the first item that has one begins with it, and its field and all those behind
it occur before. So a field that is itself named like such a word is never told. -/
theorem returns_clause_iff {front : String}
    (hfront : front.toList.getLast?.any Text.isWord = false) {items : List ReturnItem}
    (hne : items ≠ []) (hitems : ∀ i ∈ items, i.IsNamed)
    (hfirst : ∀ i ∈ items.head?, isSpelled "distinct" i.root.toList = false) (tail : ClauseTail) :
    returns (front ++ "RETURN " ++ ", ".intercalate (items.map ReturnItem.text) ++ tail.text) =
        (items.map ReturnItem.field).eraseDups ↔
      (∀ i ∈ items, i.IsPlain) ∨
        ∃ before item after, items = before ++ item :: after ∧ (∀ i ∈ before, i.IsPlain) ∧
          isClauseWord item.root.toList = true ∧
          ∀ i ∈ item :: after, i.field ∈ before.map ReturnItem.field := by
  rw [returns_eq_eraseDups hfront hne hitems tail]
  constructor
  · intro h
    by_cases hplain : ∀ i ∈ items, i.IsPlain
    · exact .inl hplain
    obtain ⟨before, item, after, rfl, hbefore, hitem⟩ := exists_first hplain
    cases hroot : isClauseWord item.root.toList with
    | true =>
      refine .inr ⟨before, item, after, rfl, hbefore, hroot, ?_⟩
      rw [clauseFields_of_isClauseWord hitems hfirst hbefore tail hroot, List.map_append,
        eraseDups_append_eq_iff] at h
      exact fun i hi => h _ (List.mem_map_of_mem hi)
    | false =>
      -- Part of the item is left, and that is none of the fields, which are names.
      obtain ⟨name, hname, hnot⟩ :=
        exists_clauseFields_of_not_isPlain hitems hfirst hbefore tail hitem hroot
      rw [← List.mem_eraseDups, h, List.mem_eraseDups] at hname
      obtain ⟨i, hi, rfl⟩ := List.mem_map.1 hname
      obtain ⟨-, -, hfield⟩ := ReturnItem.exists_text_eq_append (hitems i hi)
      rw [hfield] at hnot
      cases hnot
  · rintro (hplain | ⟨before, item, after, rfl, hbefore, hroot, hfields⟩)
    · rw [clauseFields_of_isPlain hne hitems hfirst hplain tail]
    · rw [clauseFields_of_isClauseWord hitems hfirst hbefore tail hroot, List.map_append,
        eraseDups_append_eq_iff]
      intro name hname
      obtain ⟨i, hi, rfl⟩ := List.mem_map.1 hname
      exact hfields i hi

/-- Two fields, of which one comes again, before an order. -/
theorem returns_clause_iff_order :
    returns ("MATCH (v) " ++ "RETURN " ++ ", ".intercalate (List.map ReturnItem.text
        [⟨"v", ["a", "order"], none⟩, ⟨"w", [], some "n"⟩, ⟨"x", ["n"], none⟩]) ++
          ClauseTail.orderBy.text) = ["order", "n"] :=
  (returns_clause_iff (by decide) (by decide) (by decide) (by decide) .orderBy).2 (.inl (by decide))

/-- A property or an alias that is named like the end of a clause ends it: what is left of the item
is told in its place. -/
theorem returns_property_cut :
    returns ("MATCH (v) " ++ "RETURN " ++ ", ".intercalate (List.map ReturnItem.text
        [⟨"v", ["limit"], none⟩]) ++ ClauseTail.absent.text) = ["v."] ∧
      (⟨"v", ["limit"], none⟩ : ReturnItem).field = "limit" ∧
    returns ("MATCH (v) " ++ "RETURN " ++ ", ".intercalate (List.map ReturnItem.text
        [⟨"v", ["name"], some "limit"⟩]) ++ ClauseTail.absent.text) = ["v.name AS"] ∧
      (⟨"v", ["name"], some "limit"⟩ : ReturnItem).field = "limit" := by
  decide

end QuerySuite.QueryBody
