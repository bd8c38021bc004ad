import Mathlib.Data.List.Forall2
import Mathlib.Data.Option.Basic
import QuerySuite.Grammar.Member
import QuerySuite.Grammar.Resume
import QuerySuite.Proofs.Reading
import QuerySuite.Proofs.Relabel
import QuerySuite.Proofs.Streams

/-!
# Documents that differ in their layout

Two documents have the same shape if their significant tokens have the same kinds and texts, and the
same of them open a line. Reading such documents takes the same steps: what stands at the cursor
looks the same in both, and the places that reading asks for, the line an expression began on and
the end of the document, are told by the shape.

The relations below compare what two readings of such documents give. They are called `Alike`, and
leave out places, so that they can be put together as the readings are. A tree of the first document
keeps its comments in the comparison and one of the second does not, so what is alike to itself has
none.

Results:

* `Alike`: pieces of two documents that look the same.
* `Reply.Alike.andThen`, `Reply.Alike.bind`: phrases in a row.
* `elements_alike`: lists in brackets, from their elements.
* `Outcome.Alike.andThen`, `Outcome.Alike.bind`: clauses in a row.
-/

namespace QuerySuite

/-! ## Shapes -/

/-- The token without its place. -/
def Token.unplaced (t : Token) : Token := { t with start := .zero }

/-- The region without its places and without trivia. -/
def Region.shape (r : Region) : Region where
  start := .zero
  resumed := r.resumed.map fun _ => .zero
  skipped := r.significant.map (·.unplaced)

namespace Recovery

/-- The record with the shapes of its regions. -/
def shape : Recovery → Recovery
  | clean => clean
  | recovered first absorbed => recovered first.shape (absorbed.map (·.shape))

theorem regions_shape (r : Recovery) : r.shape.regions = r.regions.map (·.shape) := by
  cases r <;> rfl

theorem shape_absorb (r other : Recovery) :
    (r.absorb other).shape = r.shape.absorb other.shape := by
  apply eq_of_regions_eq
  rw [regions_shape, regions_absorb, regions_absorb, regions_shape, regions_shape,
    List.map_append]

theorem shape_ofRegion (r : Region) : (ofRegion r).shape = ofRegion r.shape := rfl

end Recovery

namespace Relabel

/-- Forgets all places and all trivia. -/
def unplaced : Relabel where
  info i := ⟨.zero, i.comments, i.recovery.shape⟩
  place _ := .zero
  tokens ts := (Token.significant ts).map (·.unplaced)

/-- Forgets all places, all trivia and all comments. -/
def shape : Relabel where
  info i := ⟨.zero, {}, i.recovery.shape⟩
  place _ := .zero
  tokens ts := (Token.significant ts).map (·.unplaced)

end Relabel

/-- The suite without places, comments and trivia. -/
def Suite.shape (s : Suite) : Suite := s.relabel .shape

mutual

/-- The error without its places. -/
def ParseError.unplaced : ParseError → ParseError
  | unexpectedToken expected found _ => unexpectedToken expected found .zero
  | unexpectedEof expected _ => unexpectedEof expected .zero
  | unterminatedBody _ => unterminatedBody .zero
  | invalidCharacter text _ => invalidCharacter text .zero
  | duplicate what _ => duplicate what .zero
  | multiple errors => multiple (unplacedAll errors)

/-- The errors without their places. -/
def ParseError.unplacedAll : List ParseError → List ParseError
  | [] => []
  | e :: errors => e.unplaced :: unplacedAll errors

end

/-- The parts say the same, apart from the layout of their documents, and that of the first document
has no comments. -/
def Says {α : Type} (relabel : Relabel → α → α) (a a' : α) : Prop :=
  relabel .unplaced a = relabel .shape a'

namespace Grammar

variable {eof eof' : Token} {α β γ δ : Type}

theorem map_eq_of_forall₂ {f : α → γ} {g : β → γ} {as : List α} {bs : List β}
    (h : List.Forall₂ (fun a b => f a = g b) as bs) : as.map f = bs.map g := by
  induction h with
  | nil => rfl
  | cons hab _ ih => rw [List.map_cons, List.map_cons, hab, ih]

/-! ## Tokens and pieces that look the same -/

/-- The tokens differ at most in their places, and both or none are where the documents end. -/
structure TokenAlike (eof eof' t t' : Token) : Prop where
  same : t.unplaced = t'.unplaced
  atEnd : t.span = eof.span ↔ t'.span = eof'.span

namespace TokenAlike

variable {t t' : Token}

theorem kind_eq (h : TokenAlike eof eof' t t') : t.kind = t'.kind := (Token.mk.inj h.same).1

theorem text_eq (h : TokenAlike eof eof' t t') : t.text = t'.text := (Token.mk.inj h.same).2.1

/-- What does not look at the place of a token cannot tell the two apart. -/
theorem congr (h : TokenAlike eof eof' t t') {f : Token → γ} (hf : ∀ t, f t.unplaced = f t) :
    f t = f t' := by
  rw [← hf t, h.same, hf]

theorem isKeyword_eq (h : TokenAlike eof eof' t t') (word : String) :
    t.isKeyword word = t'.isKeyword word :=
  h.congr (f := (·.isKeyword word)) fun _ => rfl

theorem isName_eq (h : TokenAlike eof eof' t t') : t.isName = t'.isName :=
  h.congr (f := Token.isName) fun _ => rfl

end TokenAlike

/-- What is known of a piece of a document that ends at `eof`: it is no trivia, it is not the end of
the document and does not stand behind it, and a token of an expression ends on its first line. -/
structure Piece.Placed (eof : Token) (p : Piece) : Prop where
  wellFormed : p.WellFormed
  span_ne : p.token.span ≠ eof.span
  start_le : p.token.start.AtOrBefore eof.start
  oneLine : p.token.exprToken?.isSome = true → p.token.stop.line = p.token.start.line

/-- The piece `q` follows `p`: it opens a line exactly if it stands on a later one. -/
structure Piece.Follows (p q : Piece) : Prop where
  line_le : p.token.stop.line ≤ q.token.start.line
  opensLine_eq : q.opensLine = decide (p.token.stop.line < q.token.start.line)

/-- The piece without its place and without trivia. -/
def Piece.unplaced (p : Piece) : Piece := ⟨p.token.unplaced, [], p.opensLine⟩

/-- What is left of two documents of the same shape. -/
inductive Alike (eof eof' : Token) : List Piece → List Piece → Prop where
  | nil (ends : eof.unplaced = eof'.unplaced) : Alike eof eof' [] []
  | cons {p p' : Piece} {rest rest' : List Piece} (same : p.unplaced = p'.unplaced)
      (placed : p.Placed eof) (placed' : p'.Placed eof')
      (follows : ∀ q ∈ rest.head?, p.Follows q) (follows' : ∀ q ∈ rest'.head?, p'.Follows q)
      (h : Alike eof eof' rest rest') : Alike eof eof' (p :: rest) (p' :: rest')

namespace Alike

variable {p p' : Piece} {rest rest' : List Piece}

theorem ends (h : Alike eof eof' rest rest') : eof.unplaced = eof'.unplaced := by
  induction h with
  | nil ends => exact ends
  | cons _ _ _ _ _ _ ih => exact ih

theorem tail (h : Alike eof eof' (p :: rest) (p' :: rest')) : Alike eof eof' rest rest' := by
  cases h with
  | cons _ _ _ _ _ h => exact h

theorem eq_nil (h : Alike eof eof' [] rest') : rest' = [] := by
  cases h with
  | nil => rfl

theorem exists_cons (h : Alike eof eof' (p :: rest) rest') : ∃ q more, rest' = q :: more := by
  cases h with
  | @cons _ q _ more => exact ⟨q, more, rfl⟩

theorem opensLine_eq (h : Alike eof eof' (p :: rest) (p' :: rest')) :
    p.opensLine = p'.opensLine := by
  cases h with
  | cons same => exact (Piece.mk.inj same).2.2

theorem token (h : Alike eof eof' (p :: rest) (p' :: rest')) :
    TokenAlike eof eof' p.token p'.token := by
  cases h with
  | cons same placed placed' =>
    refine ⟨(Piece.mk.inj same).1, ?_⟩
    exact iff_of_false placed.span_ne placed'.span_ne

theorem wellFormed (h : Alike eof eof' rest rest') :
    (∀ q ∈ rest, q.WellFormed) ∧ ∀ q ∈ rest', q.WellFormed := by
  induction h with
  | nil => exact ⟨by simp, by simp⟩
  | cons _ placed placed' _ _ _ ih =>
    exact ⟨List.forall_mem_cons.2 ⟨placed.wellFormed, ih.1⟩,
      List.forall_mem_cons.2 ⟨placed'.wellFormed, ih.2⟩⟩

theorem map_token (h : Alike eof eof' rest rest') :
    (rest.map (·.token)).map (·.unplaced) = (rest'.map (·.token)).map (·.unplaced) := by
  induction h with
  | nil => rfl
  | cons same _ _ _ _ _ ih =>
    rw [List.map_cons, List.map_cons, List.map_cons, List.map_cons, ih, (Piece.mk.inj same).1]

end Alike

/-- The errors say the same, and both or none are raised where the documents end. -/
structure ErrorAlike (eof eof' : Token) (e e' : ParseError) : Prop where
  same : e.unplaced = e'.unplaced
  atEnd : e.span = eof.span ↔ e'.span = eof'.span

theorem TokenAlike.unexpected {t t' : Token} (h : TokenAlike eof eof' t t') (expected : String) :
    ErrorAlike eof eof' (.unexpected expected t) (.unexpected expected t') := by
  have hspan (u : Token) : (ParseError.unexpected expected u).span = u.span :=
    RaisedAt.span_eq (.inl ⟨expected, rfl⟩)
  refine ⟨?_, by rw [hspan, hspan, h.atEnd]⟩
  have hsame (u : Token) : (ParseError.unexpected expected u).unplaced =
      (ParseError.unexpected expected u.unplaced).unplaced := by
    rcases u with ⟨kind, text, start⟩
    cases kind <;> rfl
  rw [hsame, h.same, ← hsame]

theorem TokenAlike.duplicate {t t' : Token} (h : TokenAlike eof eof' t t') (what : String) :
    ErrorAlike eof eof' (.duplicate what t.span) (.duplicate what t'.span) := by
  refine ⟨rfl, ?_⟩
  rw [ParseError.span, ParseError.span]
  exact h.atEnd

/-! ## Cursors and replies -/

/-- What is left at the cursors looks the same. -/
def Cursor.Alike (c : Cursor eof) (c' : Cursor eof') : Prop := Grammar.Alike eof eof' c.rest c'.rest

theorem Cursor.Alike.token {c : Cursor eof} {c' : Cursor eof'} (h : c.Alike c') :
    TokenAlike eof eof' c.token c'.token := by
  rcases c with ⟨_ | ⟨p, rest⟩, stop⟩ <;> rcases c' with ⟨_ | ⟨p', rest'⟩, stop'⟩
  · exact ⟨Grammar.Alike.ends h, iff_of_true rfl rfl⟩
  · cases h
  · cases h
  · exact Grammar.Alike.token h

/-- The replies are both values that `R` relates, or both errors that say the same. -/
def Reply.Alike (R : α → β → Prop) {n n' : Nat} : Reply eof α n → Reply eof' β n' → Prop
  | .ok a c _, .ok a' c' _ => R a a' ∧ c.Alike c'
  | .fail e, .fail e' => ErrorAlike eof eof' e e'
  | _, _ => False

namespace Reply.Alike

variable {R : α → β → Prop} {S : γ → δ → Prop} {n n' : Nat} {c : Cursor eof} {c' : Cursor eof'}

/-- Values that are given without reading. -/
theorem here {a : α} {a' : β} {h : c.size ≤ n} {h' : c'.size ≤ n'} (hR : R a a')
    (hc : c.Alike c') :
    Reply.Alike R (.ok a c h : Reply eof α n) (.ok a' c' h' : Reply eof' β n') := ⟨hR, hc⟩

/-- Failures at the tokens of the cursors. -/
theorem unexpected (hc : c.Alike c') (expected : String) :
    Reply.Alike R (.fail (.unexpected expected c.token) : Reply eof α n)
      (.fail (.unexpected expected c'.token) : Reply eof' β n') := hc.token.unexpected expected

theorem mono {R' : α → β → Prop} {r : Reply eof α n} {r' : Reply eof' β n'} (h : r.Alike R r')
    (hR : ∀ a a', R a a' → R' a a') : r.Alike R' r' := by
  cases r <;> cases r'
  · exact ⟨hR _ _ h.1, h.2⟩
  · exact h
  · exact h
  · exact h

theorem widen {m m' : Nat} {r : Reply eof α n} {r' : Reply eof' β n'} (h : r.Alike R r')
    (hm : n ≤ m) (hm' : n' ≤ m') : (r.widen hm).Alike R (r'.widen hm') := by
  cases r <;> cases r' <;> exact h

theorem map {f : α → γ} {f' : β → δ} {r : Reply eof α n} {r' : Reply eof' β n'}
    (h : r.Alike R r') (hf : ∀ a a', R a a' → S (f a) (f' a')) : (r.map f).Alike S (r'.map f') := by
  cases r <;> cases r'
  · exact ⟨hf _ _ h.1, h.2⟩
  · exact h
  · exact h
  · exact h

theorem andThen {r : Reply eof α n} {r' : Reply eof' β n'}
    {f : α → (d : Cursor eof) → d.size ≤ n → Reply eof γ d.size}
    {f' : β → (d : Cursor eof') → d.size ≤ n' → Reply eof' δ d.size} (h : r.Alike R r')
    (hf : ∀ a a' d d' hd hd', R a a' → d.Alike d' → (f a d hd).Alike S (f' a' d' hd')) :
    (r.andThen f).Alike S (r'.andThen f') := by
  cases r with
  | fail e =>
    cases r' with
    | fail e' => exact h
    | ok a' d' hd' => exact h.elim
  | ok a d hd =>
    cases r' with
    | fail e' => exact h.elim
    | ok a' d' hd' =>
      rw [Reply.andThen_ok, Reply.andThen_ok]
      exact (hf a a' d d' hd hd' h.1 h.2).widen hd hd'

/-- Phrases in a row. -/
theorem bind {p : Phrase eof α} {p' : Phrase eof' β} {f : α → Phrase eof γ} {f' : β → Phrase eof' δ}
    (h : (p c).Alike R (p' c'))
    (hf : ∀ a a' d d', R a a' → d.Alike d' → (f a d).Alike S (f' a' d')) :
    ((p >>= f) c).Alike S ((p' >>= f') c') := by
  rw [Phrase.bind_apply, Phrase.bind_apply]
  exact h.andThen fun a a' d d' _ _ hR hd => hf a a' d d' hR hd

end Reply.Alike

/-! ## Single tokens -/

section Tokens

variable {c : Cursor eof} {c' : Cursor eof'} {accepts : Token → Bool}

theorem Cursor.Alike.read?_some {t t' : Token} {d : Cursor eof} {d' : Cursor eof'}
    (h : c.Alike c') (hread : c.read? accepts = some (t, d))
    (hread' : c'.read? accepts = some (t', d')) : TokenAlike eof eof' t t' ∧ d.Alike d' := by
  obtain ⟨p, rfl, hr⟩ := read?_reads hread
  obtain ⟨p', rfl, hr'⟩ := read?_reads hread'
  unfold Alike at h
  rw [hr.rest_eq, hr'.rest_eq] at h
  exact ⟨Grammar.Alike.token h, Grammar.Alike.tail h⟩

/-- A token is read in both documents or in none. -/
theorem Cursor.Alike.read?_eq_none_iff (h : c.Alike c')
    (ha : ∀ t, accepts t.unplaced = accepts t) :
    c.read? accepts = none ↔ c'.read? accepts = none := by
  rcases c with ⟨_ | ⟨p, rest⟩, stop⟩ <;> rcases c' with ⟨_ | ⟨p', rest'⟩, stop'⟩
  · exact iff_of_true rfl rfl
  · cases h
  · cases h
  · have heq : accepts p.token = accepts p'.token := (Grammar.Alike.token h).congr ha
    simp [read?, heq]

namespace Phrase

theorem next?_alike (h : c.Alike c') (ha : ∀ t, accepts t.unplaced = accepts t) :
    (next? accepts c).Alike (Option.Rel (TokenAlike eof eof')) (next? accepts c') := by
  have hiff := h.read?_eq_none_iff ha
  unfold next?
  split
  · next t d hread =>
    split
    · next t' d' hread' =>
      obtain ⟨ht, hd⟩ := h.read?_some hread hread'
      exact .here (.some ht) hd
    · next hread' => cases hread.symm.trans (hiff.2 hread')
  · next hread =>
    split
    · next hread' => cases hread'.symm.trans (hiff.1 hread)
    · exact .here .none h

theorem expect_alike (h : c.Alike c') (ha : ∀ t, accepts t.unplaced = accepts t)
    (expected : String) :
    (expect accepts expected c).Alike (TokenAlike eof eof') (expect accepts expected c') := by
  have hiff := h.read?_eq_none_iff ha
  unfold expect
  split
  · next t d hread =>
    split
    · next t' d' hread' =>
      obtain ⟨ht, hd⟩ := h.read?_some hread hread'
      exact .here ht hd
    · next hread' => cases hread.symm.trans (hiff.2 hread')
  · next hread =>
    split
    · next hread' => cases hread'.symm.trans (hiff.1 hread)
    · exact .unexpected h expected

theorem ofKind_alike (h : c.Alike c') (k : Token.Kind) (expected : String) :
    (ofKind k expected c).Alike (TokenAlike eof eof') (ofKind k expected c') :=
  expect_alike h (fun _ => rfl) expected

theorem name_alike (h : c.Alike c') (expected : String) :
    (name expected c).Alike (· = ·) (name expected c') :=
  (expect_alike h (fun _ => rfl) expected).bind fun _ _ _ _ ht hd => .here ht.text_eq hd

theorem lastStop_alike (h : c.Alike c') : (lastStop c).Alike (fun _ _ => True) (lastStop c') :=
  .here trivial h

end Phrase

end Tokens

/-! ## Lists in brackets -/

theorem elements_alike_of_lt {R : α → β → Prop} {close : Token.Kind} {expected : String} :
    ∀ (n : Nat) (c : Cursor eof) (c' : Cursor eof'), c.size < n → c.Alike c' →
      ∀ (element : (d : Cursor eof) → d.size ≤ c.size → Reply eof α d.size)
        (element' : (d : Cursor eof') → d.size ≤ c'.size → Reply eof' β d.size),
        (∀ d d' hd hd', d.Alike d' → (element d hd).Alike R (element' d' hd')) →
        (elements close expected c element).Alike (List.Forall₂ R)
          (elements close expected c' element') := by
  intro n
  induction n with
  | zero => intro c c' hn; omega
  | succ n ih =>
    intro c c' hn hc element element' h
    have hiff : c.read? (·.kind == close) = none ↔ c'.read? (·.kind == close) = none :=
      hc.read?_eq_none_iff fun _ => rfl
    rw [elements, elements]
    split
    · next t d h₁ =>
      split
      · next t' d' h₁' => exact .here .nil (hc.read?_some h₁ h₁').2
      · next h₁' => cases h₁.symm.trans (hiff.2 h₁')
    · next h₁ =>
      split
      · next h₁' => cases h₁'.symm.trans (hiff.1 h₁)
      · refine (h c c' c.le_refl c'.le_refl hc).andThen fun a a' d d' hd hd' ha hdd => ?_
        have hclose : d.read? (·.kind == close) = none ↔ d'.read? (·.kind == close) = none :=
          hdd.read?_eq_none_iff fun _ => rfl
        have hcomma : d.read? (·.kind == .comma) = none ↔ d'.read? (·.kind == .comma) = none :=
          hdd.read?_eq_none_iff fun _ => rfl
        split
        · next t e h₂ =>
          split
          · next t' e' h₂' => exact .here (.cons ha .nil) (hdd.read?_some h₂ h₂').2
          · next h₂' => cases h₂.symm.trans (hclose.2 h₂')
        · next h₂ =>
          have h₂' := hclose.1 h₂
          split
          · next h₃ =>
            split
            · next heq => cases heq.symm.trans h₂'
            · split
              · exact .unexpected hdd expected
              · next h₃' => cases h₃'.symm.trans (hcomma.1 h₃)
          · next t e h₃ =>
            split
            · next heq => cases heq.symm.trans h₂'
            · split
              · next h₃' => cases h₃.symm.trans (hcomma.2 h₃')
              · next t' e' h₃' =>
                have hlt := Cursor.size_lt_of_read? h₃
                have he : e.size ≤ c.size := by omega
                have he' : e'.size ≤ c'.size :=
                  Cursor.le_trans (Cursor.size_le_of_read? h₃') hd'
                have rest := ih e e' (by omega) (hdd.read?_some h₃ h₃').2
                  (fun x hx => element x (Cursor.le_trans hx he))
                  (fun x hx => element' x (Cursor.le_trans hx he'))
                  fun x x' hx hx' hxx => h x x' _ _ hxx
                exact (rest.map fun _ _ hrest => .cons ha hrest).widen _ _

theorem elements_alike {R : α → β → Prop} {close : Token.Kind} {expected : String}
    {c : Cursor eof} {c' : Cursor eof'} (hc : c.Alike c')
    (element : (d : Cursor eof) → d.size ≤ c.size → Reply eof α d.size)
    (element' : (d : Cursor eof') → d.size ≤ c'.size → Reply eof' β d.size)
    (h : ∀ d d' hd hd', d.Alike d' → (element d hd).Alike R (element' d' hd')) :
    (elements close expected c element).Alike (List.Forall₂ R)
      (elements close expected c' element') :=
  elements_alike_of_lt (c.size + 1) c c' (Nat.lt_succ_self _) hc element element' h

/-! ## States and outcomes -/

/-- The cursors look the same, and the errors met say the same. -/
structure State.Alike (s : State eof) (s' : State eof') : Prop where
  cursor : s.toCursor.Alike s'.toCursor
  met : List.Forall₂ (ErrorAlike eof eof') s.met s'.met

/-- The outcomes are both values that `R` relates, or both errors that say the same. -/
def Outcome.Alike (R : α → β → Prop) {n n' : Nat} : Outcome eof α n → Outcome eof' β n' → Prop
  | .ok a s _, .ok a' s' _ => R a a' ∧ s.Alike s'
  | .fail e met, .fail e' met' =>
    ErrorAlike eof eof' e e' ∧ List.Forall₂ (ErrorAlike eof eof') met met'
  | _, _ => False

namespace Outcome.Alike

variable {R : α → β → Prop} {S : γ → δ → Prop} {n n' : Nat} {s : State eof} {s' : State eof'}

/-- Values that are given without reading. -/
theorem here {a : α} {a' : β} {h : s.size ≤ n} {h' : s'.size ≤ n'} (hR : R a a')
    (hs : s.Alike s') :
    Outcome.Alike R (.ok a s h : Outcome eof α n) (.ok a' s' h' : Outcome eof' β n') := ⟨hR, hs⟩

theorem fail {e e' : ParseError} (he : ErrorAlike eof eof' e e') (hs : s.Alike s') :
    Outcome.Alike R (.fail e s.met : Outcome eof α n) (.fail e' s'.met : Outcome eof' β n') :=
  ⟨he, hs.met⟩

theorem mono {Q : α → β → Prop} {r : Outcome eof α n} {r' : Outcome eof' β n'} (h : r.Alike R r')
    (hQ : ∀ a a', R a a' → Q a a') : r.Alike Q r' := by
  cases r <;> cases r'
  · exact ⟨hQ _ _ h.1, h.2⟩
  · exact h
  · exact h
  · exact h

theorem widen {m m' : Nat} {r : Outcome eof α n} {r' : Outcome eof' β n'} (h : r.Alike R r')
    (hm : n ≤ m) (hm' : n' ≤ m') : (r.widen hm).Alike R (r'.widen hm') := by
  cases r <;> cases r' <;> exact h

theorem andThen {r : Outcome eof α n} {r' : Outcome eof' β n'}
    {f : α → (t : State eof) → t.size ≤ n → Outcome eof γ t.size}
    {f' : β → (t : State eof') → t.size ≤ n' → Outcome eof' δ t.size} (h : r.Alike R r')
    (hf : ∀ a a' t t' ht ht', R a a' → t.Alike t' → (f a t ht).Alike S (f' a' t' ht')) :
    (r.andThen f).Alike S (r'.andThen f') := by
  cases r with
  | fail e met =>
    cases r' with
    | fail e' met' => exact h
    | ok a' t' ht' => exact h.elim
  | ok a t ht =>
    cases r' with
    | fail e' met' => exact h.elim
    | ok a' t' ht' =>
      rw [Outcome.andThen_ok, Outcome.andThen_ok]
      exact (hf a a' t t' ht ht' h.1 h.2).widen ht ht'

/-- Values that are changed at the end. -/
theorem andThen_ok {r : Outcome eof α n} {r' : Outcome eof' β n'} {f : α → State eof → γ}
    {f' : β → State eof' → δ} (h : r.Alike R r') (hf : ∀ a a' t t', R a a' → S (f a t) (f' a' t')) :
    (r.andThen fun a t _ => .ok (f a t) t t.le_refl).Alike S
      (r'.andThen fun a t _ => .ok (f' a t) t t.le_refl) :=
  h.andThen fun a a' t t' _ _ hR ht => .here (hf a a' t t' hR) ht

/-- Phrases leave the errors met as they are. -/
theorem of_phrase {p : Phrase eof α} {p' : Phrase eof' β} (hs : s.Alike s')
    (h : (p s.toCursor).Alike R (p' s'.toCursor)) :
    (Clause.ofPhrase p s).Alike R (Clause.ofPhrase p' s') := by
  unfold Clause.ofPhrase
  generalize p s.toCursor = r at h
  generalize p' s'.toCursor = r' at h
  cases r with
  | fail e =>
    cases r' with
    | fail e' => exact ⟨h, hs.met⟩
    | ok a' d' hd' => exact h.elim
  | ok a d hd =>
    cases r' with
    | fail e' => exact h.elim
    | ok a' d' hd' => exact ⟨h.1, h.2, hs.met⟩

/-- Clauses in a row. -/
theorem bind {p : Clause eof α} {p' : Clause eof' β} {f : α → Clause eof γ}
    {f' : β → Clause eof' δ} (h : (p s).Alike R (p' s'))
    (hf : ∀ a a' t t', R a a' → t.Alike t' → (f a t).Alike S (f' a' t')) :
    ((p >>= f) s).Alike S ((p' >>= f') s') :=
  h.andThen fun a a' t t' _ _ hR ht => hf a a' t t' hR ht

end Outcome.Alike

end Grammar

end QuerySuite
