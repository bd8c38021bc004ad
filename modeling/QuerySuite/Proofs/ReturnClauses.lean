import Mathlib
import QuerySuite.Proofs.JoinedTexts
import QuerySuite.Proofs.WordSearch

/-!
# Items of a RETURN clause

A clause ends at the first word SKIP, LIMIT or UNION, or at ORDER BY. In a clause of properties,
with or without an alias, every name is looked at: one that is such a word cuts the clause too. What
is left of its item is nothing, if it is the first name of the item, and else a path that ends with
a dot or with the word AS.

Results:

* `QueryBody.endsClause_name`, `QueryBody.beginsClause_name`: which names end or begin a clause.
* `QueryBody.cut_clause_of_isPlain`: a clause without such names is cut at its tail.
* `QueryBody.cut_clause_of_append`: else it is cut within the first item that has one.
* `QueryBody.ReturnItem.cut_of_isClauseWord`, `QueryBody.ReturnItem.cut_of_not_isPlain`: what is
  left of that item.
-/

namespace QuerySuite.QueryBody

/-! ## Names that end a clause -/

/-- The name is one of the words that end a clause. -/
def isClauseWord (name : List Char) : Bool :=
  isSpelled "skip" name || isSpelled "limit" name || isSpelled "union" name

/-- The text ends the word before it, and does not go on with the word BY. -/
structure Closes (rest : List Char) : Prop where
  endsWord : endsWord rest = true
  notBy : spell? "by".toList (rest.dropWhile Text.isBlank) = none

theorem closes_nil : Closes [] := ⟨rfl, rfl⟩

/-- A character that is no part of a word and no blank closes. -/
theorem closes_mark {c : Char} (hword : Text.isWord c = false) (hblank : Text.isBlank c = false)
    (rest : List Char) : Closes (c :: rest) := by
  have hends : QueryBody.endsWord (c :: rest) = true := endsWord_iff.2 (by simpa using hword)
  refine ⟨hends, ?_⟩
  rw [List.dropWhile_cons_of_neg (by simp [hblank])]
  exact spell?_eq_none_of_endsWord (by decide) hends

/-- A blank closes before a character that does not begin the word BY. -/
theorem closes_blank {c : Char} (hblank : Text.isBlank c = false) (hc : isLetter 'b' c = false)
    (rest : List Char) : Closes (' ' :: c :: rest) := by
  have hby : "by".toList = ['b', 'y'] := rfl
  refine ⟨endsWord_iff.2 (by simp; decide), ?_⟩
  rw [List.dropWhile_cons_of_pos (by decide), List.dropWhile_cons_of_neg (by simp [hblank]), hby,
    spell?, hc, if_neg Bool.false_ne_true]

section

variable {name rest : List Char} {before : Option Char} (hname : isName name = true)
  (hbefore : before.any Text.isWord = false)

include hname hbefore

/-- A name ends a clause exactly if it is one of the words that do. -/
theorem endsClause_name (hrest : endsWord rest = true)
    (horder : isSpelled "order" name = true →
      spell? "by".toList (rest.dropWhile Text.isBlank) = none) :
    endsClause before (name ++ rest) = isClauseWord name := by
  have hword {word : String} (hw : IsWord word) :
      (wordAt? word before (name ++ rest)).isSome = isSpelled word name := by
    rw [wordAt?_name hw hname hbefore hrest]
    cases isSpelled word name <;> rfl
  rw [endsClause, wordPairAt?_name (by decide) hname before hrest horder, hword (by decide),
    hword (by decide), hword (by decide)]
  rfl

theorem endsClause_of_isClauseWord (hrest : endsWord rest = true)
    (h : isClauseWord name = true) : endsClause before (name ++ rest) = true := by
  rw [endsClause_name hname hbefore hrest, h]
  intro horder
  have hlower : name.map Char.toLower = "order".toList := by simpa [isSpelled] using horder
  simp [isClauseWord, isSpelled, hlower] at h

/-- A name begins a clause exactly if it is the word RETURN. -/
theorem beginsClause_name (hrest : endsWord rest = true) :
    beginsClause before (name ++ rest) = isSpelled "return" name := by
  rw [beginsClause, wordAt?_name (by decide) hname hbefore hrest]
  cases isSpelled "return" name <;> rfl

end

/-- The test does not hold at the name, wherever it stands alone. -/
def Overlooks (test : Option Char → List Char → Bool) (name : List Char) : Prop :=
  ∀ before rest, before.any Text.isWord = false → Closes rest → test before (name ++ rest) = false

theorem overlooks_endsClause {name : List Char} (hname : isName name = true)
    (h : isClauseWord name = false) : Overlooks endsClause name := by
  intro before rest hbefore hrest
  rw [endsClause_name hname hbefore hrest.endsWord fun _ => hrest.notBy, h]

theorem overlooks_beginsClause {name : List Char} (hname : isName name = true)
    (h : isSpelled "return" name = false) : Overlooks beginsClause name := by
  intro before rest hbefore hrest
  rw [beginsClause_name hname hbefore hrest.endsWord, h]

/-! ## Items -/

/-- An item of a clause: a variable, the properties behind it and perhaps an alias. -/
structure ReturnItem where
  root : String
  properties : List String
  aliasName : Option String

namespace ReturnItem

/-- The variable and the properties behind it. -/
def path (i : ReturnItem) : List String := i.root :: i.properties

/-- The names in the item. -/
def words (i : ReturnItem) : List String := i.path ++ i.aliasName.toList

/-- The path with dots between its parts, and the alias behind the word AS. -/
def text (i : ReturnItem) : String := ".".intercalate i.path ++ i.aliasName.elim "" (" AS " ++ ·)

/-- The field that the item is meant to give: its alias, or else the last part of its path. -/
def field (i : ReturnItem) : String := i.aliasName.getD (i.path.getLastD "")

/-- Every name in the item is one, and none is the word RETURN. -/
def IsNamed (i : ReturnItem) : Prop :=
  ∀ w ∈ i.words, isName w.toList = true ∧ isSpelled "return" w.toList = false

/-- No name in the item ends a clause. -/
def IsPlain (i : ReturnItem) : Prop := ∀ w ∈ i.words, isClauseWord w.toList = false

instance (i : ReturnItem) : Decidable i.IsNamed :=
  inferInstanceAs (Decidable (∀ w ∈ i.words, _))

instance (i : ReturnItem) : Decidable i.IsPlain :=
  inferInstanceAs (Decidable (∀ w ∈ i.words, _))

/-- The parts of the path. -/
def parts (i : ReturnItem) : List (List Char) := i.path.map String.toList

/-- The text of the alias, with the word AS before it. -/
def aliasText (i : ReturnItem) : List Char :=
  i.aliasName.elim [] fun name => ' ' :: 'A' :: 'S' :: ' ' :: name.toList

theorem toList_text (i : ReturnItem) :
    i.text.toList = ['.'].intercalate i.parts ++ i.aliasText := by
  have hpath : (".".intercalate i.path).toList = ['.'].intercalate i.parts := by
    rw [String.toList_intercalate]
    rfl
  rw [text, String.toList_append, hpath]
  cases h : i.aliasName with
  | none => rw [aliasText, h]; rfl
  | some name => rw [aliasText, h, Option.elim_some, Option.elim_some, String.toList_append]; rfl

theorem root_mem_words (i : ReturnItem) : i.root ∈ i.words :=
  List.mem_append_left _ List.mem_cons_self

theorem mem_words_of_mem_parts {i : ReturnItem} {part : List Char} (h : part ∈ i.parts) :
    ∃ w ∈ i.words, w.toList = part := by
  obtain ⟨w, hw, rfl⟩ := List.mem_map.1 h
  exact ⟨w, List.mem_append_left _ hw, rfl⟩

theorem closes_aliasText {i : ReturnItem} {rest : List Char} (h : Closes rest) :
    Closes (i.aliasText ++ rest) := by
  unfold aliasText
  cases i.aliasName with
  | none => exact h
  | some name => exact closes_blank (by decide) (by decide) _

end ReturnItem

/-! ## Searching a clause -/

/-- The items of a clause with commas between them, each behind a blank. -/
def clauseText (items : List ReturnItem) : List Char :=
  [','].intercalate (items.map fun i => ' ' :: i.text.toList)

theorem clauseText_singleton (i : ReturnItem) : clauseText [i] = ' ' :: i.text.toList :=
  List.intercalate_singleton

theorem clauseText_cons {i : ReturnItem} {items : List ReturnItem} (h : items ≠ []) :
    clauseText (i :: items) = ' ' :: i.text.toList ++ ',' :: clauseText items :=
  Text.intercalate_cons ',' _ (by simpa using h)

section

variable {test : Option Char → List Char → Bool} (htest : FindsWords test) {rest : List Char}

include htest

/-- A search passes over a path if it overlooks its parts. -/
theorem passesOver_intercalate {parts : List (List Char)}
    (hparts : ∀ part ∈ parts, isName part = true ∧ Overlooks test part) {before : Option Char}
    (hbefore : before.any Text.isWord = false) (hrest : Closes rest) :
    PassesOver test rest before (['.'].intercalate parts) := by
  induction parts generalizing before with
  | nil => trivial
  | cons part parts ih =>
    obtain ⟨⟨hname, hpart⟩, hparts⟩ := List.forall_mem_cons.1 hparts
    by_cases hnil : parts = []
    · rw [hnil, List.intercalate_singleton]
      exact .of_name htest hname (hpart _ _ hbefore hrest)
    · have hmark : Closes ('.' :: (['.'].intercalate parts ++ rest)) :=
        closes_mark (by decide) (by decide) _
      rw [Text.intercalate_cons '.' part hnil, List.append_cons]
      refine PassesOver.append (.append (.of_name htest hname ?_) (.of_mark htest (by decide))) ?_
      · exact hpart _ _ hbefore hmark
      · rw [charBefore_concat]
        exact ih hparts (by decide)

variable (has : ∀ rest, endsWord rest = true → test (some ' ') ('A' :: 'S' :: rest) = false)

include has

/-- A search passes over the word AS with the blanks around it. -/
theorem passesOver_as (before : Option Char) :
    PassesOver test rest before [' ', 'A', 'S', ' '] := by
  have hends : endsWord (' ' :: rest) = true := endsWord_iff.2 (by simp; decide)
  have hword : PassesOver test (' ' :: rest) (some ' ') ['A', 'S'] :=
    .of_name htest (by decide) (has _ hends)
  exact .append (u := [' ']) (.of_mark htest (by decide))
    (.append (u := ['A', 'S']) hword (.of_mark htest (by decide)))

/-- A search passes over an item behind a blank if it overlooks its names. -/
theorem passesOver_item {i : ReturnItem}
    (hi : ∀ w ∈ i.words, isName w.toList = true ∧ Overlooks test w.toList) (before : Option Char)
    (hrest : Closes rest) : PassesOver test rest before (' ' :: i.text.toList) := by
  have hparts : ∀ part ∈ i.parts, isName part = true ∧ Overlooks test part := by
    intro part hpart
    obtain ⟨w, hw, rfl⟩ := ReturnItem.mem_words_of_mem_parts hpart
    exact hi w hw
  have hpath : PassesOver test (i.aliasText ++ rest) (some ' ') (['.'].intercalate i.parts) :=
    passesOver_intercalate htest hparts (by decide) (ReturnItem.closes_aliasText hrest)
  have halias (b : Option Char) : PassesOver test rest b i.aliasText := by
    unfold ReturnItem.aliasText
    cases halias : i.aliasName with
    | none => trivial
    | some name =>
      obtain ⟨hname, hover⟩ := hi name (List.mem_append_right _ (by simp [halias]))
      refine (passesOver_as htest has b).append (v := name.toList) (.of_name htest hname ?_)
      exact hover _ _ (by simp only [charBefore, List.foldl_cons, List.foldl_nil]; decide) hrest
  rw [i.toList_text]
  exact .append (u := [' ']) (.of_mark htest (by decide)) (hpath.append (halias _))

/-- A search passes over a clause if it overlooks the names in it. -/
theorem passesOver_clause {items : List ReturnItem}
    (hitems : ∀ i ∈ items, ∀ w ∈ i.words, isName w.toList = true ∧ Overlooks test w.toList)
    (before : Option Char) (hrest : Closes rest) :
    PassesOver test rest before (clauseText items) := by
  induction items generalizing before with
  | nil => trivial
  | cons i items ih =>
    obtain ⟨hi, hitems⟩ := List.forall_mem_cons.1 hitems
    by_cases hnil : items = []
    · rw [hnil, clauseText_singleton]
      exact passesOver_item htest has hi before hrest
    · have hcomma : Closes ([','] ++ (clauseText items ++ rest)) :=
        closes_mark (by decide) (by decide) _
      rw [clauseText_cons hnil, List.append_cons]
      refine PassesOver.append (.append (passesOver_item htest has hi before ?_) ?_) (ih hitems _)
      · exact hcomma
      · exact .of_mark htest (by decide)

end

/-! ## What is left of a clause -/

theorem endsClause_as (rest : List Char) (hrest : endsWord rest = true) :
    endsClause (some ' ') ('A' :: 'S' :: rest) = false := by
  have h : endsClause (some ' ') (['A', 'S'] ++ rest) = isClauseWord ['A', 'S'] :=
    endsClause_name (by decide) (by decide) hrest fun horder => absurd horder (by decide)
  exact h.trans (by decide)

theorem beginsClause_as (rest : List Char) (hrest : endsWord rest = true) :
    beginsClause (some ' ') ('A' :: 'S' :: rest) = false := by
  have h : beginsClause (some ' ') (['A', 'S'] ++ rest) = isSpelled "return" ['A', 'S'] :=
    beginsClause_name (by decide) (by decide) hrest
  exact h.trans (by decide)

/-- What is left of an item that begins with the name `root` and is cut behind it: a path that ends
with a dot, or a path and the word AS. -/
inductive Stump (root : List Char) : List Char → Prop where
  | path {parts : List (List Char)} (names : ∀ part ∈ root :: parts, isName part = true) :
      Stump root (['.'].intercalate (root :: parts) ++ ['.'])
  | named {parts : List (List Char)} (names : ∀ part ∈ root :: parts, isName part = true) :
      Stump root (['.'].intercalate (root :: parts) ++ [' ', 'A', 'S', ' '])

/-- A list with a member that lacks a property has a first such member. -/
theorem exists_first {α : Type} {p : α → Prop} {l : List α} (h : ¬ ∀ a ∈ l, p a) :
    ∃ before a after, l = before ++ a :: after ∧ (∀ b ∈ before, p b) ∧ ¬ p a := by
  induction l with
  | nil => simp at h
  | cons a l ih =>
    by_cases ha : p a
    · obtain ⟨before, b, after, rfl, hbefore, hb⟩ :=
        ih fun hl => h (List.forall_mem_cons.2 ⟨ha, hl⟩)
      exact ⟨a :: before, b, after, rfl, List.forall_mem_cons.2 ⟨ha, hbefore⟩, hb⟩
    · exact ⟨[], a, l, rfl, by simp, ha⟩

/-- A path begins with its first part, behind which the word ends. -/
theorem exists_intercalate_cons_append (part : List Char) (parts : List (List Char))
    {rest : List Char} (hrest : endsWord rest = true) :
    ∃ more, ['.'].intercalate (part :: parts) ++ rest = part ++ more ∧ endsWord more = true := by
  by_cases hnil : parts = []
  · exact ⟨rest, by rw [hnil, List.intercalate_singleton], hrest⟩
  · refine ⟨'.' :: (['.'].intercalate parts ++ rest), ?_, endsWord_iff.2 (by simp; decide)⟩
    rw [Text.intercalate_cons '.' part hnil, List.append_assoc, List.cons_append]

namespace ReturnItem

variable {i : ReturnItem} {before : Option Char} {rest : List Char}

/-- An item begins with its first name, behind which the word ends. -/
theorem exists_text_append (i : ReturnItem) (hrest : Closes rest) :
    ∃ more, i.text.toList ++ rest = i.root.toList ++ more ∧ endsWord more = true := by
  obtain ⟨more, hmore, hends⟩ := exists_intercalate_cons_append i.root.toList
    (i.properties.map String.toList) (closes_aliasText (i := i) hrest).endsWord
  refine ⟨more, ?_, hends⟩
  rw [i.toList_text, List.append_assoc, ← hmore]
  rfl

/-- A clause is cut before an item that begins with a word that ends it. -/
theorem cut_of_isClauseWord (hi : i.IsNamed) (hroot : isClauseWord i.root.toList = true)
    (hbefore : before.any Text.isWord = false) (hrest : Closes rest) :
    cutClause before (i.text.toList ++ rest) = [] := by
  obtain ⟨more, htext, hends⟩ := i.exists_text_append hrest
  rw [htext]
  exact cutClause_of_endsClause
    (endsClause_of_isClauseWord (hi _ i.root_mem_words).1 hbefore hends hroot)

theorem isName_of_mem_parts (hi : i.IsNamed) : ∀ part ∈ i.parts, isName part = true := by
  intro part hpart
  obtain ⟨w, hw, rfl⟩ := mem_words_of_mem_parts hpart
  exact (hi w hw).1

/-- An alias that ends the clause leaves the path and the word AS. -/
theorem cut_of_alias (hi : i.IsNamed) (hpath : ∀ part ∈ i.parts, isClauseWord part = false)
    {name : String} (halias : i.aliasName = some name) (hword : isClauseWord name.toList = true)
    (hbefore : before.any Text.isWord = false) (hrest : Closes rest) :
    cutClause before (i.text.toList ++ rest) =
      ['.'].intercalate i.parts ++ [' ', 'A', 'S', ' '] := by
  have hname := (hi name (List.mem_append_right _ (by simp [halias]))).1
  have htext : i.aliasText = [' ', 'A', 'S', ' '] ++ name.toList := by
    rw [aliasText, halias]
    rfl
  have hover : PassesOver endsClause (i.aliasText ++ rest) before (['.'].intercalate i.parts) :=
    passesOver_intercalate findsWords_endsClause
      (fun part hpart => ⟨isName_of_mem_parts hi part hpart,
        overlooks_endsClause (isName_of_mem_parts hi part hpart) (hpath part hpart)⟩)
      hbefore (closes_aliasText hrest)
  rw [i.toList_text, List.append_assoc, cutClause_append hover, htext, List.append_assoc,
    cutClause_append (passesOver_as findsWords_endsClause endsClause_as _),
    cutClause_of_endsClause, List.append_nil]
  refine endsClause_of_isClauseWord hname ?_ hrest.endsWord hword
  simp only [charBefore, List.foldl_cons, List.foldl_nil]
  decide

/-- A part of a path that ends the clause leaves the parts before it. -/
theorem cut_of_part (hi : i.IsNamed) {front more : List (List Char)} {part : List Char}
    (hparts : i.parts = front ++ part :: more) (hne : front ≠ [])
    (hfront : ∀ part ∈ front, isClauseWord part = false) (hword : isClauseWord part = true)
    (hbefore : before.any Text.isWord = false) (hrest : Closes rest) :
    cutClause before (i.text.toList ++ rest) = ['.'].intercalate front ++ ['.'] := by
  have hname := isName_of_mem_parts hi
  rw [hparts] at hname
  obtain ⟨after, hafter, hends⟩ :=
    exists_intercalate_cons_append part more (closes_aliasText (i := i) hrest).endsWord
  have hover : PassesOver endsClause (['.'] ++ (part ++ after)) before (['.'].intercalate front) :=
    passesOver_intercalate findsWords_endsClause
      (fun piece hpiece => ⟨hname piece (List.mem_append_left _ hpiece), overlooks_endsClause
        (hname piece (List.mem_append_left _ hpiece)) (hfront piece hpiece)⟩)
      hbefore (closes_mark (by decide) (by decide) _)
  have htext : i.text.toList ++ rest = ['.'].intercalate front ++ (['.'] ++ (part ++ after)) := by
    rw [i.toList_text, hparts, Text.intercalate_append_cons '.' hne, List.append_assoc,
      List.append_assoc, List.cons_append, ← hafter]
    rfl
  have hmark : PassesOver endsClause (part ++ after) (charBefore before (['.'].intercalate front))
      ['.'] := .of_mark findsWords_endsClause (by decide)
  rw [htext, cutClause_append hover, cutClause_append hmark, charBefore_singleton,
    cutClause_of_endsClause, List.append_nil]
  exact endsClause_of_isClauseWord (hname part (by simp)) (by decide) hends hword

/-- What is left of an item behind whose first name there is one that ends a clause. -/
theorem cut_of_not_isPlain (hi : i.IsNamed) (hplain : ¬ i.IsPlain)
    (hroot : isClauseWord i.root.toList = false) (hbefore : before.any Text.isWord = false)
    (hrest : Closes rest) : Stump i.root.toList (cutClause before (i.text.toList ++ rest)) := by
  have hname := isName_of_mem_parts hi
  by_cases hpath : ∀ part ∈ i.parts, isClauseWord part = false
  · obtain ⟨name, halias, hword⟩ :
        ∃ name, i.aliasName = some name ∧ isClauseWord name.toList = true := by
      by_contra hnone
      refine hplain fun w hw => ?_
      rcases List.mem_append.1 hw with hw | hw
      · exact hpath _ (List.mem_map_of_mem hw)
      · rw [← Bool.not_eq_true]
        exact fun hword => hnone ⟨w, by simpa using hw, hword⟩
    rw [cut_of_alias hi hpath halias hword hbefore hrest]
    exact .named hname
  · obtain ⟨front, part, more, hparts, hfront, hword⟩ := exists_first hpath
    rw [Bool.not_eq_false] at hword
    -- The first name ends no clause, so it stands before the part that does.
    cases front with
    | nil =>
      obtain ⟨hpart, -⟩ := List.cons.inj hparts
      rw [← hpart, hroot] at hword
      cases hword
    | cons first front =>
      obtain ⟨rfl, -⟩ := List.cons.inj hparts
      rw [cut_of_part hi hparts (List.cons_ne_nil _ _) hfront hword hbefore hrest]
      refine .path fun piece hpiece => hname piece ?_
      rw [hparts]
      exact List.mem_append_left _ hpiece

end ReturnItem

/-- The text behind the items, which may order or cut the rows. -/
inductive ClauseTail where
  | absent
  | orderBy
  | limit

namespace ClauseTail

/-- How the tail is written. -/
def text : ClauseTail → String
  | absent => ""
  | orderBy => " ORDER BY x"
  | limit => " LIMIT 3"

/-- What is left of the tail. -/
def pad : ClauseTail → List Char
  | absent => []
  | orderBy => [' ']
  | limit => [' ']

theorem closes_text (tail : ClauseTail) : Closes tail.text.toList := by
  cases tail with
  | absent => exact closes_nil
  | orderBy => exact closes_blank (c := 'O') (by decide) (by decide) _
  | limit => exact closes_blank (c := 'L') (by decide) (by decide) _

theorem cut_text (tail : ClauseTail) (before : Option Char) :
    cutClause before tail.text.toList = tail.pad := by
  have hblank (rest : List Char) (h : endsClause (some ' ') rest = true) :
      cutClause before (' ' :: rest) = [' '] := by
    rw [← List.singleton_append, cutClause_append (.of_mark findsWords_endsClause (by decide)),
      charBefore_singleton, cutClause_of_endsClause h]
    rfl
  cases tail with
  | absent => rfl
  | orderBy => exact hblank _ (by decide)
  | limit => exact hblank _ (by decide)

theorem afterReturn?_text (tail : ClauseTail) (before : Option Char) :
    afterReturn? before tail.text.toList = none := by
  have hblank (rest : List Char) (h : afterReturn? (some ' ') rest = none) :
      afterReturn? before (' ' :: rest) = none := by
    rw [← List.singleton_append, afterReturn?_append (.of_mark findsWords_beginsClause (by decide)),
      charBefore_singleton, h]
  cases tail with
  | absent => rfl
  | orderBy => exact hblank _ (by decide)
  | limit => exact hblank _ (by decide)

end ClauseTail

section

variable {items : List ReturnItem} (hitems : ∀ i ∈ items, i.IsNamed) (tail : ClauseTail)

include hitems

/-- A clause in which no name ends it is cut at its tail. -/
theorem cut_clause_of_isPlain (hplain : ∀ i ∈ items, i.IsPlain) (before : Option Char) :
    cutClause before (clauseText items ++ tail.text.toList) = clauseText items ++ tail.pad := by
  have hover : PassesOver endsClause tail.text.toList before (clauseText items) :=
    passesOver_clause findsWords_endsClause endsClause_as (fun i hi w hw => ⟨(hitems i hi w hw).1,
      overlooks_endsClause (hitems i hi w hw).1 (hplain i hi w hw)⟩) before tail.closes_text
  rw [cutClause_append hover, tail.cut_text]

/-- The word RETURN does not stand in a clause. -/
theorem afterReturn?_clause (before : Option Char) :
    afterReturn? before (clauseText items ++ tail.text.toList) = none := by
  have hover : PassesOver beginsClause tail.text.toList before (clauseText items) :=
    passesOver_clause findsWords_beginsClause beginsClause_as (fun i hi w hw =>
      ⟨(hitems i hi w hw).1, overlooks_beginsClause (hitems i hi w hw).1 (hitems i hi w hw).2⟩)
      before tail.closes_text
  rw [afterReturn?_append hover, tail.afterReturn?_text]

end

/-- The items of a clause, and something in the place of the last one. -/
def clauseEnding (front : List ReturnItem) (last : List Char) : List Char :=
  [','].intercalate (front.map (fun i => ' ' :: i.text.toList) ++ [' ' :: last])

theorem clauseEnding_nil (last : List Char) : clauseEnding [] last = ' ' :: last :=
  List.intercalate_singleton

theorem clauseEnding_cons (i : ReturnItem) (front : List ReturnItem) (last : List Char) :
    clauseEnding (i :: front) last = ' ' :: i.text.toList ++ ',' :: clauseEnding front last :=
  Text.intercalate_cons ',' _ (by simp)

/-- A clause is cut within the first item that holds a name that ends it. -/
theorem cut_clause_of_append {front more : List ReturnItem} {item : ReturnItem}
    (hnamed : ∀ i ∈ front, i.IsNamed) (hplain : ∀ i ∈ front, i.IsPlain) (tail : ClauseTail)
    (before : Option Char) :
    ∃ rest, Closes rest ∧
      cutClause before (clauseText (front ++ item :: more) ++ tail.text.toList) =
        clauseEnding front (cutClause (some ' ') (item.text.toList ++ rest)) := by
  induction front generalizing before with
  | nil =>
    -- Behind the item there are a comma and the other items, or the tail.
    obtain ⟨rest, htext, hrest⟩ : ∃ rest, clauseText (item :: more) ++ tail.text.toList =
        [' '] ++ (item.text.toList ++ rest) ∧ Closes rest := by
      by_cases hnil : more = []
      · rw [hnil, clauseText_singleton]
        exact ⟨_, rfl, tail.closes_text⟩
      · refine ⟨',' :: (clauseText more ++ tail.text.toList), ?_,
          closes_mark (by decide) (by decide) _⟩
        rw [clauseText_cons hnil, List.append_assoc]
        rfl
    refine ⟨rest, hrest, ?_⟩
    rw [List.nil_append, htext, cutClause_append (.of_mark findsWords_endsClause (by decide)),
      charBefore_singleton, clauseEnding_nil, List.singleton_append]
  | cons i front ih =>
    obtain ⟨hi, hnamed⟩ := List.forall_mem_cons.1 hnamed
    obtain ⟨hi', hplain⟩ := List.forall_mem_cons.1 hplain
    have hover (rest : List Char) : PassesOver endsClause rest before
        (' ' :: i.text.toList ++ [',']) :=
      .append (passesOver_item findsWords_endsClause endsClause_as
        (fun w hw => ⟨(hi w hw).1, overlooks_endsClause (hi w hw).1 (hi' w hw)⟩) before
        (closes_mark (by decide) (by decide) rest)) (.of_mark findsWords_endsClause (by decide))
    obtain ⟨rest, hrest, hcut⟩ := ih hnamed hplain (some ',')
    refine ⟨rest, hrest, ?_⟩
    have htext : clauseText (i :: front ++ item :: more) =
        ' ' :: i.text.toList ++ ',' :: clauseText (front ++ item :: more) :=
      clauseText_cons (by simp)
    rw [htext, List.append_cons, List.append_assoc, cutClause_append (hover _), charBefore_concat,
      hcut, clauseEnding_cons]
    exact (List.append_cons _ _ _).symm

end QuerySuite.QueryBody
