import Mathlib
import QuerySuite.Proofs.Coordinates

/-!
# Places of a document

A place of a document is where some text at its front ends: the offset is the size of that text, and
line and column are counted over it. Lines and columns order the places of one document as their
offsets do, so that a place which is not before another does not come before it in bytes either.

Results:

* `Position.isPrefix_of_atOrBefore`: of two places the one that is not behind has less text before
  it.
* `Token.isPlaceOf_start`, `Token.isPlaceOf_stop`: the tokens of a document stand at places of it.
* `Position.IsPlaceOf.exists_words`: the numbers of a place fit into words.
-/

namespace QuerySuite

/-- The position is a place of the document: the document can be cut there, and line, column and
offset are those of the text before the cut. -/
def Position.IsPlaceOf (source : String) (p : Position) : Prop :=
  ∃ before after : String, source = before ++ after ∧ p.offset = before.utf8ByteSize ∧
    p = Position.start.advance before.toList

/-- The start of a document in words. -/
def WordPosition.start : WordPosition := ⟨1, 1, 0⟩

/-- A text that is shorter than 2³² - 1 bytes is passed in words: no addition overflows. -/
theorem WordPosition.exists_advance? {text : String} (hsize : text.utf8ByteSize < 2 ^ 32 - 1) :
    ∃ w, start.advance? text = some w ∧ w.toPosition = Position.start.advance text.toList := by
  have hlength := length_le_utf8ByteSize text.toList
  rw [String.ofList_toList] at hlength
  have hword : UInt32.size = 2 ^ 32 := rfl
  have hline : start.line.toNat = 1 := rfl
  have hcolumn : start.column.toNat = 1 := rfl
  have hoffset : start.offset.toNat = 0 := rfl
  exact start.advance?_eq text (by omega) (by omega) (by omega) (by omega)

/-- The span reaches from a place of the document to one that does not come before it. -/
structure Span.IsRangeOf (source : String) (s : Span) : Prop where
  start : s.start.IsPlaceOf source
  stop : s.stop.IsPlaceOf source
  le : s.start.offset ≤ s.stop.offset

namespace Position

variable {source : String} {p q : Position}

/-- The texts at the front of a document end at its places. -/
theorem isPlaceOf_iff :
    p.IsPlaceOf source ↔ ∃ text, text <+: source.toList ∧ p = start.advance text := by
  constructor
  · rintro ⟨before, after, rfl, -, hp⟩
    exact ⟨before.toList, ⟨after.toList, by rw [String.toList_append]⟩, hp⟩
  · rintro ⟨text, ⟨more, hsource⟩, rfl⟩
    refine ⟨String.ofList text, String.ofList more, ?_, ?_, by rw [String.toList_ofList]⟩
    · rw [← String.toList_inj, ← hsource, String.toList_append, String.toList_ofList,
        String.toList_ofList]
    · rw [offset_advance]
      exact Nat.zero_add _

/-- Of two places, the one that is not behind the other has less text before it. -/
theorem isPrefix_of_atOrBefore {text u v : List Char} (hu : u <+: text) (hv : v <+: text)
    (h : (start.advance u).AtOrBefore (start.advance v)) : u <+: v := by
  rcases List.prefix_or_prefix_of_prefix hu hv with huv | ⟨more, rfl⟩
  · exact huv
  · -- The text behind `v` would lead from its end to a place that is not behind it.
    by_cases hmore : more = []
    · rw [hmore, List.append_nil]
    · rw [advance_append, atOrBefore_iff, isBefore_advance _ hmore] at h
      cases h

theorem offset_le_of_isPrefix {u v : List Char} (h : u <+: v) :
    (start.advance u).offset ≤ (start.advance v).offset := by
  obtain ⟨more, rfl⟩ := h
  rw [advance_append, offset_advance (start.advance u)]
  exact Nat.le_add_right _ _

/-- Lines and columns order the places of a document as their offsets do. -/
theorem IsPlaceOf.offset_le (hp : p.IsPlaceOf source) (hq : q.IsPlaceOf source)
    (h : p.AtOrBefore q) : p.offset ≤ q.offset := by
  obtain ⟨u, hu, rfl⟩ := isPlaceOf_iff.1 hp
  obtain ⟨v, hv, rfl⟩ := isPlaceOf_iff.1 hq
  exact offset_le_of_isPrefix (isPrefix_of_atOrBefore hu hv h)

/-- A place that is before another comes before it in bytes. -/
theorem IsPlaceOf.offset_lt (hp : p.IsPlaceOf source) (hq : q.IsPlaceOf source)
    (h : p.isBefore q = true) : p.offset < q.offset := by
  obtain ⟨u, hu, rfl⟩ := isPlaceOf_iff.1 hp
  obtain ⟨v, hv, rfl⟩ := isPlaceOf_iff.1 hq
  obtain ⟨more, rfl⟩ := isPrefix_of_atOrBefore hu hv (.of_isBefore h)
  rw [advance_append, offset_advance (start.advance u)]
  cases more with
  | nil =>
    rw [List.append_nil, isBefore_iff] at h
    omega
  | cons c more =>
    rw [String.ofList_cons, String.utf8ByteSize_append, String.utf8ByteSize_singleton]
    have hsize := c.utf8Size_pos
    omega

/-- So a place that does not come before another in bytes is not before it. -/
theorem IsPlaceOf.atOrBefore_of_offset_le (hp : p.IsPlaceOf source) (hq : q.IsPlaceOf source)
    (h : p.offset ≤ q.offset) : p.AtOrBefore q := by
  rw [atOrBefore_iff, ← Bool.not_eq_true]
  intro hbefore
  have hlt := hq.offset_lt hp hbefore
  omega

theorem isPlaceOf_start (source : String) : start.IsPlaceOf source :=
  isPlaceOf_iff.2 ⟨[], List.nil_prefix, rfl⟩

/-- In a document that is shorter than 2³² - 1 bytes, a place is reached in words: no addition on
the way to it overflows. -/
theorem IsPlaceOf.exists_words (h : p.IsPlaceOf source)
    (hsize : source.utf8ByteSize < 2 ^ 32 - 1) :
    ∃ before after w, source = before ++ after ∧
      WordPosition.start.advance? before = some w ∧ w.toPosition = p := by
  obtain ⟨before, after, rfl, -, rfl⟩ := h
  have hbefore : before.utf8ByteSize < 2 ^ 32 - 1 := by
    rw [String.utf8ByteSize_append] at hsize
    omega
  obtain ⟨w, hadvance, hw⟩ := WordPosition.exists_advance? hbefore
  exact ⟨before, after, w, rfl, hadvance, hw⟩

end Position

/-- Between two places of which the first is not behind the second. -/
theorem Span.IsRangeOf.of_atOrBefore {source : String} {p q : Position} (hp : p.IsPlaceOf source)
    (hq : q.IsPlaceOf source) (h : p.AtOrBefore q) : (⟨p, q⟩ : Span).IsRangeOf source :=
  ⟨hp, hq, hp.offset_le hq h⟩

namespace Token

variable {source : String} {t : Token}

/-- A token of a document starts at a place of it. -/
theorem isPlaceOf_start (h : t ∈ scan source) : t.start.IsPlaceOf source := by
  obtain ⟨before, after, hscan⟩ := List.append_of_mem h
  refine Position.isPlaceOf_iff.2 ⟨textsOf before, ?_, (start_stop_of_scan hscan).1⟩
  rw [← textsOf_scan source, hscan, textsOf_append]
  exact List.prefix_append _ _

/-- A token of a document ends at a place of it. -/
theorem isPlaceOf_stop (h : t ∈ scan source) : t.stop.IsPlaceOf source := by
  obtain ⟨before, after, hscan⟩ := List.append_of_mem h
  refine Position.isPlaceOf_iff.2 ⟨textsOf before ++ t.text.toList, ?_, ?_⟩
  · rw [← textsOf_scan source, hscan, textsOf_append, textsOf_cons, ← List.append_assoc]
    exact List.prefix_append _ _
  · rw [Position.advance_append, stop, (start_stop_of_scan hscan).1]

/-- The place of a token is a range of the document. -/
theorem isRangeOf_span (h : t ∈ scan source) : t.span.IsRangeOf source :=
  .of_atOrBefore (isPlaceOf_start h) (isPlaceOf_stop h) (Position.atOrBefore_advance _ _)

end Token

end QuerySuite
