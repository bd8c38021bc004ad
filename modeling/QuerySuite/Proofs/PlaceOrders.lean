import Mathlib
import QuerySuite.Proofs.TrailingComments

/-!
# Two orders of the places of a document

Positions are compared by line and column in most of the library, since a cursor carries no offset;
only comments are given to nodes by comparing offsets. Columns count characters and begin again with
every line, offsets count bytes. On the places of one document, though, both orders are the same,
because each grows with the text before the place, and equal places have the same text before them.

So it does not matter which of the two a pass uses on what a document holds: comments go to the same
nodes if lines and columns are compared, and a skipped stretch holds the same places if offsets are.

Results:

* `Position.IsPlaceOf.compare_eq`: the two orders on the places of a document.
* `Position.start_advance_inj`: a place tells the text before it.
* `WordPosition.compare_toPosition`: the order by line and column in words.
* `Region.IsRangeOf.holds_eq`: the places that a skipped stretch holds.
* `targets_eq_in_order`: the nodes that comments go to.
* `place_orders_agree`: all of this for a document.
-/

namespace QuerySuite

/-! ## Places -/

namespace Position

variable {source : String} {p q : Position}

/-- The order by offset. Line and column take no part. -/
def compareOffset (p q : Position) : Ordering := Ord.compare p.offset q.offset

theorem compare_eq_eq_iff (p q : Position) :
    p.compare q = .eq ↔ p.line = q.line ∧ p.column = q.column := by
  rw [compare, Ordering.then_eq_eq, Nat.compare_eq_eq, Nat.compare_eq_eq]

/-- Lines and columns order the places of a document as their offsets do. -/
theorem IsPlaceOf.compare_eq (hp : p.IsPlaceOf source) (hq : q.IsPlaceOf source) :
    p.compare q = p.compareOffset q := by
  unfold compareOffset
  cases h : p.compare q with
  | lt =>
    have hbefore : p.isBefore q = true := by rw [isBefore, h]; rfl
    exact (Nat.compare_eq_lt.2 (hp.offset_lt hq hbefore)).symm
  | gt =>
    have hbefore : q.isBefore p = true := by
      rw [compare_eq_gt_iff] at h
      rw [isBefore_iff]
      omega
    exact (Nat.compare_eq_gt.2 (hq.offset_lt hp hbefore)).symm
  | eq =>
    obtain ⟨hline, hcolumn⟩ := (compare_eq_eq_iff p q).1 h
    have hpq : p.offset ≤ q.offset := hp.offset_le hq (.inr ⟨hline, hcolumn.le⟩)
    have hqp : q.offset ≤ p.offset := hq.offset_le hp (.inr ⟨hline.symm, hcolumn.ge⟩)
    exact (Nat.compare_eq_eq.2 (Nat.le_antisymm hpq hqp)).symm

/-- A place of a document is told by its offset. -/
theorem IsPlaceOf.eq_iff (hp : p.IsPlaceOf source) (hq : q.IsPlaceOf source) :
    p = q ↔ p.offset = q.offset := by
  refine ⟨congrArg Position.offset, fun hoffset => ?_⟩
  have hcompare : p.compare q = .eq := by
    rw [hp.compare_eq hq, compareOffset, hoffset]
    exact Nat.compare_eq_eq.2 rfl
  obtain ⟨hline, hcolumn⟩ := (compare_eq_eq_iff p q).1 hcompare
  cases p
  cases q
  simp_all

/-- The text before a place is told by the place. -/
theorem start_advance_inj {text u v : List Char} (hu : u <+: text) (hv : v <+: text) :
    start.advance u = start.advance v ↔ u = v := by
  refine ⟨fun h => ?_, fun h => h ▸ rfl⟩
  have huv : u <+: v := isPrefix_of_atOrBefore hu hv (h ▸ .refl _)
  have hvu : v <+: u := isPrefix_of_atOrBefore hv hu (h ▸ .refl _)
  exact huv.eq_of_length (Nat.le_antisymm huv.length_le hvu.length_le)

end Position

/-! ## Words -/

namespace WordPosition

/-- Order by line, then by column, in words. -/
def compare (p q : WordPosition) : Ordering :=
  (Ord.compare p.line q.line).then (Ord.compare p.column q.column)

theorem compare_toPosition (p q : WordPosition) :
    p.toPosition.compare q.toPosition = p.compare q := by
  rw [compare, UInt32.compare_eq_toNat_compare_toNat, UInt32.compare_eq_toNat_compare_toNat]
  rfl

theorem toPosition_inj {p q : WordPosition} : p.toPosition = q.toPosition ↔ p = q := by
  refine ⟨fun h => ?_, fun h => h ▸ rfl⟩
  obtain ⟨hline, hcolumn, hoffset⟩ := Position.mk.inj h
  cases p
  cases q
  simp_all [UInt32.toNat_inj]

end WordPosition

/-- In a document that is shorter than 2³² - 1 bytes, two places are reached in words, and the words
are ordered alike in both ways. -/
theorem word_orders_agree {source u v : String} (hsize : source.utf8ByteSize < 2 ^ 32 - 1)
    (hu : u.toList <+: source.toList) (hv : v.toList <+: source.toList) :
    ∃ p q : WordPosition, WordPosition.start.advance? u = some p ∧
      WordPosition.start.advance? v = some q ∧ p.compare q = Ord.compare p.offset q.offset ∧
      (p = q ↔ u = v) := by
  have hreach {text : String} (h : text.toList <+: source.toList) :
      ∃ w, WordPosition.start.advance? text = some w ∧
        w.toPosition = Position.start.advance text.toList := by
    refine WordPosition.exists_advance? (Nat.lt_of_le_of_lt ?_ hsize)
    obtain ⟨more, hmore⟩ := h
    obtain rfl : text ++ String.ofList more = source := by
      rw [← String.toList_inj, String.toList_append, String.toList_ofList, hmore]
    rw [String.utf8ByteSize_append]
    exact Nat.le_add_right _ _
  obtain ⟨p, hp, hpu⟩ := hreach hu
  obtain ⟨q, hq, hqv⟩ := hreach hv
  have hpu' : p.toPosition.IsPlaceOf source := Position.isPlaceOf_iff.2 ⟨u.toList, hu, hpu⟩
  have hqv' : q.toPosition.IsPlaceOf source := Position.isPlaceOf_iff.2 ⟨v.toList, hv, hqv⟩
  refine ⟨p, q, hp, hq, ?_, ?_⟩
  · rw [UInt32.compare_eq_toNat_compare_toNat, ← WordPosition.compare_toPosition]
    exact hpu'.compare_eq hqv'
  · rw [← WordPosition.toPosition_inj, hpu, hqv, Position.start_advance_inj hu hv,
      String.toList_inj]

/-! ## Nodes, tokens and comments -/

/-- Something stands at the range of the document: a node, a token or a comment. -/
inductive StandsAt (source : String) : Span → Prop where
  | node {mode : Grammar.Mode} {suite : Suite} {n : Node}
      (h : (parse mode source).suite = some suite) (hn : n ∈ suite.nodes) :
      StandsAt source n.info.span
  | token {t : Token} (ht : t ∈ Token.scan source) : StandsAt source t.span
  | comment {mode : Grammar.Mode} {c : Trivia} (hc : c ∈ (parse mode source).trivia)
      (hcomment : c.isComment = true) : StandsAt source c.span

theorem StandsAt.isRangeOf {source : String} {a : Span} (h : StandsAt source a) :
    a.IsRangeOf source := by
  cases h with
  | node h hn => exact (Grammar.parse_suite_located h).spans _ (List.mem_map_of_mem hn)
  | token ht => exact Token.isRangeOf_span ht
  | comment hc hcomment => exact isRangeOf_of_isComment (List.mem_filter.2 ⟨hc, hcomment⟩)

/-- Where a span starts and where it stops. -/
def Span.ends (a : Span) : List Position := [a.start, a.stop]

theorem StandsAt.isPlaceOf {source : String} {a : Span} (h : StandsAt source a) {p : Position}
    (hp : p ∈ a.ends) : p.IsPlaceOf source := by
  rcases List.mem_pair.1 hp with rfl | rfl
  · exact h.isRangeOf.start
  · exact h.isRangeOf.stop

/-! ## Passes in an order -/

section Order

variable (order : Position → Position → Ordering)

/-- The place a comment trails, with positions compared in `order`. -/
def trailingIn (places : List Span) (c : Trivia) : Option Span :=
  places.find? fun p => p.stop.line == c.span.start.line && order p.stop c.span.start != .gt

/-- The closer of two places that a comment may lead, with positions compared in `order`. -/
def closerIn (c : Trivia) (best : Option Span) (p : Span) : Option Span :=
  if order p.start c.span.stop = .lt then best
  else
    match best with
    | some b => if order b.start p.start ≠ .gt then some b else some p
    | none => some p

/-- The place a comment leads, with positions compared in `order`. -/
def leadingIn (places : List Span) (c : Trivia) : Option Span :=
  places.foldl (closerIn order c) none

/-- The region holds the position, with positions compared in `order`. -/
def Region.holdsIn (r : Region) (p : Position) : Bool :=
  order p r.start != .lt && r.resumed.all fun q => order p q == .lt

end Order

/-- A skipped stretch holds the same places, whichever way positions are compared. -/
theorem Region.IsRangeOf.holds_eq {source : String} {r : Region} (h : r.IsRangeOf source)
    {p : Position} (hp : p.IsPlaceOf source) : r.holds p = r.holdsIn Position.compareOffset p := by
  have hresumed : r.resumed.all p.isBefore = r.resumed.all fun q => p.compareOffset q == .lt := by
    cases hr : r.resumed with
    | none => rfl
    | some q =>
      rw [Option.all_some, Option.all_some, Position.isBefore, hp.compare_eq (h.range q hr).stop]
  rw [holds, holdsIn, hresumed, Position.isBefore, hp.compare_eq h.start]
  rfl

/-- Of two places, the same one is closer to a comment, whichever way positions are compared. -/
theorem closer_eq_closerIn {source : String} {c : Trivia} {best : Option Span} {p : Span}
    (hc : c.span.IsRangeOf source) (hbest : ∀ b ∈ best, b.IsRangeOf source)
    (hp : p.IsRangeOf source) : closer c best p = closerIn Position.compare c best p := by
  have hlt : p.start.compare c.span.stop = .lt ↔ p.start.offset < c.span.stop.offset := by
    rw [hp.start.compare_eq hc.stop]
    exact Nat.compare_eq_lt
  cases best with
  | none => simp only [closer, closerIn, hlt]
  | some b =>
    have hle : b.start.compare p.start ≠ .gt ↔ b.start.offset ≤ p.start.offset := by
      rw [(hbest b rfl).start.compare_eq hp.start]
      exact Nat.compare_ne_gt
    simp only [closer, closerIn, hlt, hle]

theorem foldl_closer_eq {source : String} {c : Trivia} {best : Option Span} {places : List Span}
    (hc : c.span.IsRangeOf source) (hbest : ∀ b ∈ best, b.IsRangeOf source)
    (hplaces : ∀ p ∈ places, p.IsRangeOf source) :
    places.foldl (closer c) best = places.foldl (closerIn Position.compare c) best := by
  induction places generalizing best with
  | nil => rfl
  | cons p places ih =>
    obtain ⟨hp, hplaces⟩ := List.forall_mem_cons.1 hplaces
    have hnext : ∀ b ∈ closer c best p, b.IsRangeOf source := by
      rcases closer_eq c best p with hkept | htaken
      · rwa [hkept]
      · rw [htaken]
        rintro b ⟨⟩
        exact hp
    rw [List.foldl_cons, List.foldl_cons, ← closer_eq_closerIn hc hbest hp, ih hnext hplaces]

/-- Comments trail and lead the same places, whichever way positions are compared. -/
theorem targets_eq_in_order {source : String} {c : Trivia} {places : List Span}
    (hc : c.span.IsRangeOf source) (hplaces : ∀ p ∈ places, p.IsRangeOf source) :
    trailingTarget places c = trailingIn Position.compare places c ∧
      leadingTarget places c = leadingIn Position.compare places c := by
  refine ⟨List.find?_congr fun p hp => ?_, foldl_closer_eq hc (by simp) hplaces⟩
  rw [(hplaces p hp).stop.compare_eq hc.start, Position.compareOffset, Bool.eq_iff_iff,
    Bool.and_eq_true, Bool.and_eq_true, decide_eq_true_iff, bne_iff_ne, Nat.compare_ne_gt]

/-- Line and column order the places of a document as offsets do, and a place tells the text before
it. The same is true of places in words, where the document is shorter than 2³² - 1 bytes, and of
the ends of all nodes, tokens and comments. So comments go to the same nodes if lines and columns
are compared, and skipped stretches hold the same places if offsets are. -/
theorem place_orders_agree (source : String) :
    (∀ u v : List Char, u <+: source.toList → v <+: source.toList →
      (Position.start.advance u).compare (Position.start.advance v) =
        Ord.compare (Position.start.advance u).offset (Position.start.advance v).offset ∧
      (Position.start.advance u = Position.start.advance v ↔ u = v)) ∧
    (source.utf8ByteSize < 2 ^ 32 - 1 → ∀ u v : String, u.toList <+: source.toList →
      v.toList <+: source.toList → ∃ p q : WordPosition, WordPosition.start.advance? u = some p ∧
        WordPosition.start.advance? v = some q ∧ p.compare q = Ord.compare p.offset q.offset ∧
        (p = q ↔ u = v)) ∧
    (∀ a b : Span, StandsAt source a → StandsAt source b → ∀ p ∈ a.ends, ∀ q ∈ b.ends,
      p.compare q = Ord.compare p.offset q.offset ∧ (p = q ↔ p.offset = q.offset)) ∧
    ∀ (mode : Grammar.Mode) (suite : Suite), (parse mode source).suite = some suite →
      (∀ c ∈ (parse mode source).trivia, c.isComment = true →
        trailingTarget suite.places c = trailingIn Position.compare suite.places c ∧
        leadingTarget suite.places c = leadingIn Position.compare suite.places c) ∧
      ∀ r ∈ regionsOf suite.nodes, ∀ p : Position, p.IsPlaceOf source →
        r.holds p = r.holdsIn Position.compareOffset p := by
  refine ⟨fun u v hu hv => ⟨?_, Position.start_advance_inj hu hv⟩, fun hsize u v hu hv =>
    word_orders_agree hsize hu hv, fun a b ha hb p hp q hq => ?_, fun mode suite h => ⟨?_, ?_⟩⟩
  · have hfront {w : List Char} (hw : w <+: source.toList) :
        (Position.start.advance w).IsPlaceOf source := Position.isPlaceOf_iff.2 ⟨w, hw, rfl⟩
    exact (hfront hu).compare_eq (hfront hv)
  · have hp := ha.isPlaceOf hp
    have hq := hb.isPlaceOf hq
    exact ⟨hp.compare_eq hq, hp.eq_iff hq⟩
  · intro c hc hcomment
    exact targets_eq_in_order (StandsAt.comment hc hcomment).isRangeOf
      fun _ hp => parse_places_isRangeOf h hp
  · intro r hr p hp
    exact ((Grammar.parse_suite_located h).regions r hr).holds_eq hp

end QuerySuite
