import Mathlib
import QuerySuite.Proofs.Locations

/-!
# Coordinates of tokens

The scanner loses nothing, and every token stands where the text before it ends: its offset is the
size of that text, its line the number of newlines in it, its column the number of characters since
the last of them. As long as a document is shorter than 2³² - 1 bytes, all of this can be computed
in words of 32 bits: no addition on the way overflows.

Results:

* `Position.line_advance`, `Position.offset_advance`, `Position.column_start_advance`: a position by
  counting what stands before it.
* `WordPosition.advance?_eq`: moving over a text in words, where the numbers are small enough.
* `Token.Laid.start_eq_advance`: where a token of a row stands.
* `Token.scan_exact`: the tokens of a document and their coordinates.
-/

namespace QuerySuite

/-! ## Counting characters -/

/-- The characters behind the last newline of a text. -/
def lastLine (text : List Char) : List Char := (text.reverse.takeWhile (· != '\n')).reverse

theorem lastLine_concat (text : List Char) (c : Char) :
    lastLine (text ++ [c]) = if c = '\n' then [] else lastLine text ++ [c] := by
  unfold lastLine
  rw [List.reverse_concat, List.takeWhile_cons]
  by_cases hc : c = '\n'
  · simp [hc]
  · simp [hc]

theorem length_le_utf8ByteSize (text : List Char) :
    text.length ≤ (String.ofList text).utf8ByteSize := by
  induction text with
  | nil => exact Nat.zero_le _
  | cons c text ih =>
    have hpos := c.utf8Size_pos
    rw [String.ofList_cons, String.utf8ByteSize_append, String.utf8ByteSize_singleton,
      List.length_cons]
    omega

namespace Position

theorem advance_concat (p : Position) (text : List Char) (c : Char) :
    p.advance (text ++ [c]) = (p.advance text).next c := by
  rw [advance_append, advance_cons, advance_nil]

/-- The line of a position grows by the newlines that are passed. -/
theorem line_advance (p : Position) (text : List Char) :
    (p.advance text).line = p.line + text.count '\n' := by
  induction text generalizing p with
  | nil => rfl
  | cons c text ih =>
    rw [advance_cons, ih, next]
    by_cases hc : c = '\n'
    · rw [if_pos hc, hc, List.count_cons_self, Nat.add_assoc, Nat.add_comm 1]
    · rw [if_neg hc, List.count_cons_of_ne hc]

/-- The offset of a position grows by the size of the text that is passed. -/
theorem offset_advance (p : Position) (text : List Char) :
    (p.advance text).offset = p.offset + (String.ofList text).utf8ByteSize := by
  induction text generalizing p with
  | nil => rfl
  | cons c text ih =>
    have hnext : (p.next c).offset = p.offset + c.utf8Size := by
      unfold next
      split_ifs <;> rfl
    rw [advance_cons, ih, hnext, String.ofList_cons, String.utf8ByteSize_append,
      String.utf8ByteSize_singleton]
    omega

/-- From the start of a document on, a column counts the characters behind the last newline. -/
theorem column_start_advance (text : List Char) :
    (start.advance text).column = 1 + (lastLine text).length := by
  induction text using List.reverseRecOn with
  | nil => rfl
  | append_singleton text c ih =>
    rw [advance_concat, lastLine_concat, next]
    split_ifs
    · rfl
    · rw [List.length_append, List.length_singleton, ← Nat.add_assoc, ← ih]

/-- The line and the column of a place are at most one more than the characters before it. -/
theorem start_advance_le (text : List Char) :
    (start.advance text).line ≤ 1 + text.length ∧
      (start.advance text).column ≤ 1 + text.length := by
  have hline : start.line = 1 := rfl
  have hcount : text.count '\n' ≤ text.length := List.count_le_length
  have hlast : (lastLine text).length ≤ text.length := by
    have h := (List.takeWhile_prefix (l := text.reverse) (· != '\n')).length_le
    rw [List.length_reverse] at h
    rwa [lastLine, List.length_reverse]
  rw [line_advance, column_start_advance]
  omega

end Position

/-! ## Positions in words -/

/-- A position whose numbers are words of 32 bits. -/
structure WordPosition where
  line : UInt32
  column : UInt32
  offset : UInt32

namespace WordPosition

/-- The sum of two words, unless it overflows. -/
def add? (a b : UInt32) : Option UInt32 :=
  if a.toNat + b.toNat < UInt32.size then some (a + b) else none

/-- Line and column after one character. -/
def next? (p : WordPosition) (c : Char) : Option WordPosition :=
  if c = '\n' then (add? p.line 1).map fun line => { p with line, column := 1 }
  else (add? p.column 1).map fun column => { p with column }

/-- The place after a text: lines and columns are counted character by character, and the offset
grows by the size of the text at once. There is none if an addition overflows. -/
def advance? (p : WordPosition) (text : String) : Option WordPosition := do
  let q ← text.toList.foldlM next? p
  let offset ← add? q.offset text.utf8ByteSize.toUInt32
  pure { q with offset }

/-- The position that the words stand for. -/
def toPosition (p : WordPosition) : Position := ⟨p.line.toNat, p.column.toNat, p.offset.toNat⟩

theorem add?_eq {a b : UInt32} (h : a.toNat + b.toNat < UInt32.size) :
    ∃ c, add? a b = some c ∧ c.toNat = a.toNat + b.toNat := by
  refine ⟨a + b, if_pos h, ?_⟩
  rw [UInt32.toNat_add]
  exact Nat.mod_eq_of_lt h

/-- A position whose numbers are small enough is held in words. -/
theorem exists_toPosition_eq {p : Position} (hline : p.line < UInt32.size)
    (hcolumn : p.column < UInt32.size) (hoffset : p.offset < UInt32.size) :
    ∃ w : WordPosition, w.toPosition = p :=
  ⟨⟨p.line.toUInt32, p.column.toUInt32, p.offset.toUInt32⟩, by
    simp [toPosition, Nat.mod_eq_of_lt hline, Nat.mod_eq_of_lt hcolumn, Nat.mod_eq_of_lt hoffset]⟩

/-- The words agree with the position in line and column. -/
def SameLocation (w : WordPosition) (p : Position) : Prop :=
  w.line.toNat = p.line ∧ w.column.toNat = p.column

/-- One character is passed in words, where line and column are small enough. -/
theorem next?_eq {w : WordPosition} {p : Position} (h : w.SameLocation p) (c : Char)
    (hline : p.line + 1 < UInt32.size) (hcolumn : p.column + 1 < UInt32.size) :
    ∃ w', next? w c = some w' ∧ w'.offset = w.offset ∧ w'.SameLocation (p.next c) := by
  obtain ⟨hl, hc⟩ := h
  unfold next? Position.next
  split_ifs
  · obtain ⟨line, hadd, hnat⟩ := add?_eq (a := w.line) (b := 1) (by rw [hl]; exact hline)
    rw [hadd]
    exact ⟨_, rfl, rfl, by rw [hnat, hl]; rfl, rfl⟩
  · obtain ⟨column, hadd, hnat⟩ := add?_eq (a := w.column) (b := 1) (by rw [hc]; exact hcolumn)
    rw [hadd]
    exact ⟨_, rfl, rfl, hl, by rw [hnat, hc]; rfl⟩

/-- Lines and columns are counted in words, where they stay small enough. -/
theorem foldlM_next?_eq {w : WordPosition} {p : Position} (h : w.SameLocation p)
    {text : List Char} (hline : p.line + text.length < UInt32.size)
    (hcolumn : p.column + text.length < UInt32.size) (hlength : 1 + text.length < UInt32.size) :
    ∃ w', text.foldlM next? w = some w' ∧ w'.offset = w.offset ∧
      w'.SameLocation (p.advance text) := by
  induction text generalizing w p with
  | nil => exact ⟨w, rfl, rfl, h⟩
  | cons c text ih =>
    rw [List.length_cons] at hline hcolumn hlength
    obtain ⟨v, hnext, hoffset, hv⟩ := next?_eq h c (by omega) (by omega)
    -- A newline resets the column, any other character adds one to it.
    have hsmall : (p.next c).line ≤ p.line + 1 ∧
        ((p.next c).column = 1 ∨ (p.next c).column = p.column + 1) := by
      unfold Position.next
      split_ifs
      · exact ⟨Nat.le_refl _, .inl rfl⟩
      · exact ⟨Nat.le_succ _, .inr rfl⟩
    obtain ⟨w', hrest, hoffset', hw'⟩ := ih hv (by omega) (by omega) (by omega)
    refine ⟨w', ?_, hoffset'.trans hoffset, hw'⟩
    rw [List.foldlM_cons, hnext]
    exact hrest

/-- A text is passed in words, where the numbers stay small enough. -/
theorem advance?_eq (w : WordPosition) (text : String)
    (hline : w.line.toNat + text.toList.length < UInt32.size)
    (hcolumn : w.column.toNat + text.toList.length < UInt32.size)
    (hlength : 1 + text.toList.length < UInt32.size)
    (hoffset : w.offset.toNat + text.utf8ByteSize < UInt32.size) :
    ∃ w', w.advance? text = some w' ∧ w'.toPosition = w.toPosition.advance text.toList := by
  obtain ⟨v, hfold, hv, hl, hc⟩ :=
    foldlM_next?_eq (w := w) (p := w.toPosition) ⟨rfl, rfl⟩ hline hcolumn hlength
  have hsize : text.utf8ByteSize.toUInt32.toNat = text.utf8ByteSize := by
    rw [Nat.toUInt32_eq, UInt32.toNat_ofNat']
    exact Nat.mod_eq_of_lt (by unfold UInt32.size at hoffset; omega)
  obtain ⟨offset, hadd, hnat⟩ := add?_eq (a := v.offset) (b := text.utf8ByteSize.toUInt32)
    (by rw [hv, hsize]; exact hoffset)
  refine ⟨{ v with offset }, ?_, ?_⟩
  · unfold advance?
    rw [hfold, Option.bind_eq_bind, Option.bind_some, hadd]
    rfl
  · have hend := w.toPosition.offset_advance text.toList
    rw [String.ofList_toList] at hend
    rw [toPosition, hnat, hl, hc, hv, hsize]
    exact congrArg (Position.mk _ _) hend.symm

end WordPosition

/-! ## Tokens in a row -/

namespace Token

/-- The texts of tokens, one after another. -/
def textsOf (tokens : List Token) : List Char := tokens.flatMap (·.text.toList)

theorem textsOf_cons (t : Token) (tokens : List Token) :
    textsOf (t :: tokens) = t.text.toList ++ textsOf tokens := rfl

theorem textsOf_append (ts us : List Token) : textsOf (ts ++ us) = textsOf ts ++ textsOf us :=
  List.flatMap_append

theorem toList_join_texts (tokens : List Token) :
    (String.join (tokens.map (·.text))).toList = textsOf tokens := by
  rw [String.toList_join, List.flatMap_map]
  rfl

namespace Laid

variable {p q : Position} {ts us : List Token}

/-- A row of tokens ends where its texts end. -/
theorem stop_eq_advance (h : Laid p ts q) : q = p.advance (textsOf ts) := by
  induction h with
  | nil p => rfl
  | cons _ _ ih =>
    rw [ih, textsOf_cons, Position.advance_append]
    rfl

/-- A token of a row stands where the texts before it end. -/
theorem start_eq_advance {t : Token} (h : Laid p (ts ++ t :: us) q) :
    t.start = p.advance (textsOf ts) := by
  obtain ⟨m, hts, ht⟩ := h.exists_of_append
  rw [ht.start_eq, hts.stop_eq_advance]

/-- A token of a row ends where the next one starts, or where the row ends. -/
theorem stop_eq_next {t : Token} (h : Laid p (ts ++ t :: us) q) :
    t.stop = (us.head?.map (·.start)).getD q := by
  obtain ⟨m, -, ht⟩ := h.exists_of_append
  cases ht with
  | cons _ hus =>
    cases us with
    | nil => exact hus.stop_eq_advance.symm
    | cons u us => exact hus.start_eq.symm

end Laid

/-! ## Documents -/

/-- The texts of the tokens of a document make up the document. -/
theorem textsOf_scan (source : String) : textsOf (scan source) = source.toList :=
  flatMap_text_scanFrom .start source.toList

theorem join_texts_scan (source : String) : String.join ((scan source).map (·.text)) = source := by
  rw [← String.toList_inj, toList_join_texts, textsOf_scan]

/-- A token of a document stands where the texts before it end, and ends where the next one
starts. -/
theorem start_stop_of_scan {source : String} {before after : List Token} {t : Token}
    (h : scan source = before ++ t :: after) :
    t.start = Position.start.advance (textsOf before) ∧
      ∀ u ∈ after.head?, t.stop = u.start := by
  obtain ⟨ts, q, hscan, hlaid, -⟩ := scanFrom_laid .start source.toList
  rw [scan, hscan] at h
  rcases List.eq_nil_or_concat after with rfl | ⟨middle, last, rfl⟩
  · -- The token is the end of the document.
    obtain ⟨rfl, heof⟩ := List.append_inj' h rfl
    obtain rfl := List.singleton_inj.1 heof
    exact ⟨hlaid.stop_eq_advance, by simp⟩
  · have hsplit : ts ++ [endOfFile q] = (before ++ t :: middle) ++ [last] := by simpa using h
    obtain ⟨rfl, heof⟩ := List.append_inj' hsplit rfl
    obtain rfl := List.singleton_inj.1 heof
    refine ⟨hlaid.start_eq_advance, ?_⟩
    have hstop := hlaid.stop_eq_next
    cases middle with
    | nil => simpa [endOfFile] using hstop
    | cons u middle => simpa using hstop

/-- Over the text of every token of a document that is shorter than 2³² - 1 bytes, words of 32 bits
lead from where the token starts to where it ends. -/
theorem exists_words_of_scan {source : String} (hsize : source.utf8ByteSize < 2 ^ 32 - 1)
    {before after : List Token} {t : Token} (h : scan source = before ++ t :: after) :
    ∃ p q : WordPosition, p.toPosition = t.start ∧ p.advance? t.text = some q ∧
      q.toPosition = t.stop := by
  have hstart := (start_stop_of_scan h).1
  -- The text before the token and the token itself are no longer than the document.
  have htexts : textsOf before ++ t.text.toList ++ textsOf after = source.toList := by
    rw [← textsOf_scan source, h, textsOf_append, textsOf_cons, List.append_assoc]
  have hbytes : (String.ofList (textsOf before)).utf8ByteSize + t.text.utf8ByteSize +
      (String.ofList (textsOf after)).utf8ByteSize = source.utf8ByteSize := by
    have hsource := congrArg (fun text => (String.ofList text).utf8ByteSize) htexts
    simpa only [String.ofList_append, String.utf8ByteSize_append, String.ofList_toList]
      using hsource
  have hbefore := length_le_utf8ByteSize (textsOf before)
  have htext := length_le_utf8ByteSize t.text.toList
  rw [String.ofList_toList] at htext
  obtain ⟨hline, hcolumn⟩ := Position.start_advance_le (textsOf before)
  have hoffset := Position.start.offset_advance (textsOf before)
  rw [← hstart] at hline hcolumn hoffset
  have hzero : Position.start.offset = 0 := rfl
  have hword : UInt32.size = 2 ^ 32 := rfl
  obtain ⟨p, hp⟩ := WordPosition.exists_toPosition_eq (p := t.start) (by omega) (by omega)
    (by omega)
  have hnumbers : p.line.toNat = t.start.line ∧ p.column.toNat = t.start.column ∧
      p.offset.toNat = t.start.offset := by
    rw [← hp]
    exact ⟨rfl, rfl, rfl⟩
  obtain ⟨q, hadvance, hq⟩ := p.advance?_eq t.text (by omega) (by omega) (by omega) (by omega)
  refine ⟨p, q, hp, hadvance, ?_⟩
  rw [hq, hp]
  rfl

/-- Scanning loses nothing and its positions are exact. The texts of the tokens make up the
document; the last token is the end of the document, and every other has a text and is not the end.
A token stands where the texts before it end, which is told by their size, their newlines and their
last line, and it ends where the next one starts. In a document that is shorter than 2³² - 1 bytes
no addition of words overflows on the way. -/
theorem scan_exact (source : String) (hsize : source.utf8ByteSize < 2 ^ 32 - 1) :
    String.join ((scan source).map (·.text)) = source ∧
    (∃ (ts : List Token) (p : Position), scan source = ts ++ [⟨.eof, "", p⟩] ∧
      ∀ t ∈ ts, t.text ≠ "" ∧ t.kind ≠ .eof) ∧
    ∀ (before : List Token) (t : Token) (after : List Token),
      scan source = before ++ t :: after →
      t.start = Position.start.advance (textsOf before) ∧
      t.start.offset = (String.join (before.map (·.text))).utf8ByteSize ∧
      t.start.line = 1 + (textsOf before).count '\n' ∧
      t.start.column = 1 + (lastLine (textsOf before)).length ∧
      (∀ u ∈ after.head?, t.stop = u.start) ∧
      ∃ p q : WordPosition, p.toPosition = t.start ∧ p.advance? t.text = some q ∧
        q.toPosition = t.stop := by
  refine ⟨join_texts_scan source, ?_, ?_⟩
  · obtain ⟨ts, q, hscan, hlaid, hkind⟩ := scanFrom_laid .start source.toList
    refine ⟨ts, q, hscan, fun t ht => ⟨?_, hkind t ht⟩⟩
    intro hempty
    have hlt := (hlaid.bounds ht).2.1
    rw [stop, hempty, String.toList_empty, Position.advance_nil, Position.isBefore_iff] at hlt
    omega
  · intro before t after h
    obtain ⟨hstart, hnext⟩ := start_stop_of_scan h
    refine ⟨hstart, ?_, ?_, ?_, hnext, exists_words_of_scan hsize h⟩
    · have htexts : String.join (before.map (·.text)) = String.ofList (textsOf before) := by
        rw [← toList_join_texts, String.ofList_toList]
      rw [hstart, Position.offset_advance, htexts]
      exact Nat.zero_add _
    · rw [hstart, Position.line_advance]
      rfl
    · rw [hstart, Position.column_start_advance]

/-- A character of two bytes, a newline, and a name on the second line. -/
theorem scan_exact_two_bytes :
    "é\nx".utf8ByteSize < 2 ^ 32 - 1 ∧
    (scan "é\nx").map (fun t => (t.kind, t.text, t.start)) =
      [(.error, "é", ⟨1, 1, 0⟩), (.whitespace, "\n", ⟨1, 2, 2⟩), (.ident, "x", ⟨2, 1, 3⟩),
        (.eof, "", ⟨2, 2, 4⟩)] ∧
    ∃ p q : WordPosition, p.toPosition = ⟨2, 1, 3⟩ ∧ p.advance? "x" = some q ∧
      q.toPosition = ⟨2, 2, 4⟩ := by
  have hsize : "é\nx".utf8ByteSize < 2 ^ 32 - 1 := by decide
  have hscan : scan "é\nx" = [⟨.error, "é", ⟨1, 1, 0⟩⟩, ⟨.whitespace, "\n", ⟨1, 2, 2⟩⟩] ++
      ⟨.ident, "x", ⟨2, 1, 3⟩⟩ :: [⟨.eof, "", ⟨2, 2, 4⟩⟩] := by cbv
  obtain ⟨-, -, htokens⟩ := scan_exact "é\nx" hsize
  obtain ⟨-, -, -, -, hnext, p, q, hp, hadvance, hq⟩ := htokens _ _ _ hscan
  refine ⟨hsize, by rw [hscan]; rfl, p, q, hp, hadvance, ?_⟩
  rw [hq, hnext ⟨.eof, "", ⟨2, 2, 4⟩⟩ rfl]

end Token

end QuerySuite
