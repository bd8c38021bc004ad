import QuerySuite.Proofs.Accounts

/-!
# Clauses that read forward

What a clause gives, said of its value and of the state after it. `Outcome.From s P r` is the
contract of an outcome `r` of a clause that was begun at `s`: if there is a value, the pieces up to
the state after it were used up in order, and `P` holds. Nothing is said of a failure.

The rules follow the ways in which clauses are put together. The rule for a whole body splits what
is to be shown into the turns of the loop over its members and the two ways in which a body ends.

Results:

* `Outcome.From.andThen`, `Outcome.From.phrase_andThen`: clauses in a row.
* `wholeBody_from`: a body that is read with recovery, from its turns and its ends.
-/

namespace QuerySuite.Grammar

variable {eof : Token} {α β σ : Type}

/-- Reading goes forward from `s` to `t`. -/
def State.Onward (s t : State eof) : Prop := ∃ used, s.toCursor.Reads used t.toCursor

namespace State.Onward

theorem refl (s : State eof) : s.Onward s := ⟨[], .refl _⟩

theorem trans {s t u : State eof} (h : s.Onward t) (h' : t.Onward u) : s.Onward u := by
  obtain ⟨used, hu⟩ := h
  obtain ⟨more, hm⟩ := h'
  exact ⟨used ++ more, hu.trans hm⟩

theorem after (p : Piece) (rest : List Piece) (stop : Position) (met met' : List ParseError) :
    (⟨⟨p :: rest, stop⟩, met⟩ : State eof).Onward ⟨.after p rest, met'⟩ :=
  ⟨[p], .after p rest stop⟩

theorem resume (ctx : Context) (p : Piece) (rest : List Piece) (stop : Position)
    (met met' : List ParseError) :
    (⟨⟨p :: rest, stop⟩, met⟩ : State eof).Onward ⟨(Grammar.resume eof ctx p rest).2, met'⟩ :=
  ⟨p :: skippedAfter ctx p rest, resume_reads ctx p rest stop⟩

end State.Onward

/-! ## The contract of an outcome -/

/-- The outcome of a clause that was begun at `s`: a value is given ahead of `s`, and `P` holds of
it and of the state after it. -/
def Outcome.From (s : State eof) (P : α → State eof → Prop) {n : Nat} : Outcome eof α n → Prop
  | .ok a t _ => s.Onward t ∧ P a t
  | .fail _ _ => True

namespace Outcome.From

variable {s t : State eof} {n : Nat} {P : α → State eof → Prop} {Q : β → State eof → Prop}

/-- A value that is given without reading. -/
theorem here {a : α} {h : s.size ≤ n} (hP : P a s) :
    Outcome.From s P (.ok a s h : Outcome eof α n) := ⟨.refl s, hP⟩

theorem mono {P' : α → State eof → Prop} {r : Outcome eof α n} (h : r.From s P)
    (hP : ∀ a t, s.Onward t → P a t → P' a t) : r.From s P' := by
  cases r with
  | ok a t ht => exact ⟨h.1, hP a t h.1 h.2⟩
  | fail e met => trivial

theorem widen {m : Nat} {r : Outcome eof α n} (h : r.From s P) (hm : n ≤ m) :
    (r.widen hm).From s P := by
  cases r with
  | ok a t ht => exact h
  | fail e met => trivial

/-- A clause that was begun ahead of `s`. -/
theorem before {r : Outcome eof α n} (h : r.From t P) (hs : s.Onward t) : r.From s P := by
  cases r with
  | ok a u hu => exact ⟨hs.trans h.1, h.2⟩
  | fail e met => trivial

/-- A clause that was begun behind the piece `p`. -/
theorem behind {p : Piece} {rest : List Piece} {stop : Position} {met : List ParseError}
    {r : Outcome eof α n} (h : r.From ⟨.after p rest, met⟩ P) :
    r.From ⟨⟨p :: rest, stop⟩, met⟩ P := h.before (.after p rest stop met met)

theorem andThen {r : Outcome eof α n}
    {f : α → (t : State eof) → t.size ≤ n → Outcome eof β t.size} (h : r.From s P)
    (hf : ∀ a t ht, s.Onward t → P a t → (f a t ht).From t Q) : (r.andThen f).From s Q := by
  cases r with
  | fail e met => trivial
  | ok a t ht =>
    rw [Outcome.andThen_ok]
    exact ((hf a t ht h.1 h.2).before h.1).widen ht

/-- A clause whose value is changed at the end. -/
theorem andThen_ok {r : Outcome eof α n} {f : α → State eof → β} (h : r.From s P)
    (hf : ∀ a t, s.Onward t → P a t → Q (f a t) t) :
    (r.andThen fun a t _ => .ok (f a t) t t.le_refl).From s Q :=
  h.andThen fun a t _ ht hP => .here (hf a t ht hP)

/-- A phrase is a clause that leaves the errors noted as they are. It is read at `t`, ahead of
`s`. -/
theorem of_phrase {p : Phrase eof α} {P : α → Cursor eof → Prop} (hm : t.met = s.met)
    (h : (p t.toCursor).From s.toCursor P) :
    (Clause.ofPhrase p t).From s fun a u => P a u.toCursor ∧ u.met = s.met := by
  rcases Clause.ofPhrase_cases p t with ⟨a, u, hd, hu, hp, hm', hc⟩ | ⟨e, hp, hc⟩
  · rw [hp] at h
    rw [hc]
    exact ⟨h.2, h.1, hm'.trans hm⟩
  · rw [hc]
    trivial

/-- A clause behind a phrase. -/
theorem phrase_andThen {p : Phrase eof α} {P : α → Cursor eof → Prop}
    {f : α → (t : State eof) → t.size ≤ s.size → Outcome eof β t.size}
    (h : (p s.toCursor).From s.toCursor P)
    (hf : ∀ a t ht, s.Onward t → t.met = s.met → P a t.toCursor → (f a t ht).From t Q) :
    ((Clause.ofPhrase p s).andThen f).From s Q :=
  (of_phrase rfl h).andThen fun a t ht hs hP => hf a t ht hs hP.2 hP.1

/-- A clause behind a phrase, written as a sequence. -/
theorem phrase_bind {p : Phrase eof α} {P : α → Cursor eof → Prop} {f : α → Clause eof β}
    (h : (p s.toCursor).From s.toCursor P)
    (hf : ∀ a t, s.Onward t → t.met = s.met → P a t.toCursor → (f a t).From t Q) :
    ((Clause.ofPhrase p >>= f) s).From s Q :=
  phrase_andThen (f := fun a t _ => f a t) h fun a t _ hs hm hP => hf a t hs hm hP

end Outcome.From

/-! ## Bodies -/

/-- The record of a body that the end of the document cuts off. -/
def recordUnclosed (eof : Token) (recovery : Recovery) : Recovery :=
  if recovery.contains eof.start then recovery else recovery.absorb (.ofRegion (endMark eof))

section Body

variable {ctx : Context} {place : σ → Member α → σ} {rule : σ → Token → Clause eof α}

/-- What holds of the members of a body that is read with recovery: `inv` is kept by each kind of
turn, of which at most `n` pieces are left. -/
structure Kept (ctx : Context) (place : σ → Member α → σ) (rule : σ → Token → Clause eof α)
    (inv : σ → State eof → Prop) (n : Nat) : Prop where
  separator : ∀ g p rest stop met, ctx.separates p.token = true →
    inv g ⟨⟨p :: rest, stop⟩, met⟩ → inv g ⟨.after p rest, met⟩
  parsed : ∀ g p rest stop met, rest.length < n → ctx.closes p.token = false →
    inv g ⟨⟨p :: rest, stop⟩, met⟩ →
      (rule g p.token ⟨.after p rest, met⟩).From ⟨⟨p :: rest, stop⟩, met⟩ fun a t =>
        inv (place g (.parsed a)) t
  skipped : ∀ g p rest stop met e inner, rest.length < n → ctx.closes p.token = false →
    rule g p.token ⟨.after p rest, met⟩ = .fail e inner → inv g ⟨⟨p :: rest, stop⟩, met⟩ →
      inv (place g (.skipped (resume eof ctx p rest).1))
        ⟨(resume eof ctx p rest).2, inner.take met.length ++ [e]⟩

/-- The members of a body keep what their turns keep. -/
theorem members_from {inv : σ → State eof → Prop} {n : Nat} (kept : Kept ctx place rule inv n)
    {g : σ} {s : State eof} (hs : s.size ≤ n) (start : inv g s) :
    (members .recovery ctx place n (fun g lead t _ => rule g lead t) g s hs).Gives fun g' u =>
      (s.Onward u ∧ inv g' u) ∧ ctx.Ends u.toCursor := by
  refine members_invariant (fun g' u => s.Onward u ∧ inv g' u) ?_ hs ⟨.refl s, start⟩
  rintro g₁ s₁ g₂ s₂ hs₁ turn ⟨hr, hinv⟩
  cases turn with
  | @separator _ p rest stop met inside separates =>
    exact ⟨hr.trans (.after p rest stop met met), kept.separator g₁ p rest stop met separates hinv⟩
  | @parsed _ p rest stop met a _ ht inside begins read =>
    have h := kept.parsed g₁ p rest stop met hs₁ inside hinv
    rw [read] at h
    exact ⟨hr.trans h.1, h.2⟩
  | @skipped _ p rest stop met e inner inside begins failed =>
    have h := kept.skipped g₁ p rest stop met e inner hs₁ inside failed hinv
    exact ⟨hr.trans (.resume ctx p rest stop _ _), h⟩

/-- A whole body: what its turns keep holds at its end, where it is closed by its brace or cut off
by the end of the document. -/
theorem wholeBody_from {inv : σ → State eof → Prop} {Q : β → State eof → Prop}
    (place : σ → Member α → σ) (rule : σ → Token → Clause eof α) (record : σ → Recovery)
    (f : σ → Recovery → State eof → β) {s : State eof} (kept : Kept ctx place rule inv s.size)
    (closed : ∀ g p rest stop met, p.token.kind = .rbrace → inv g ⟨⟨p :: rest, stop⟩, met⟩ →
      Q (f g (record g) ⟨.after p rest, met⟩) ⟨.after p rest, met⟩)
    (cut : ∀ g stop met, inv g ⟨⟨[], stop⟩, met⟩ →
      Q (f g (recordUnclosed eof (record g)) ⟨⟨[], stop⟩, noteUnclosed eof met⟩)
        ⟨⟨[], stop⟩, noteUnclosed eof met⟩)
    {g : σ} (start : inv g s) :
    ((members .recovery ctx place s.size (fun g lead t _ => rule g lead t) g s s.le_refl).andThen
      fun g' u _ => (closeBody .recovery (record g') u).andThen
        fun recovery v _ => .ok (f g' recovery v) v v.le_refl).From s Q := by
  obtain ⟨g', u, hu, hrun, ⟨hr, hinv⟩, ends⟩ := (members_from kept s.le_refl start).exists_eq
  rw [hrun, Outcome.andThen_ok]
  refine Outcome.From.widen ?_ hu
  rcases u with ⟨⟨_ | ⟨p, rest⟩, stop⟩, met⟩
  · rw [closeBody_nil]
    exact ⟨hr, cut g' stop met hinv⟩
  · have hbrace : p.token.kind = .rbrace := ends.kind_eq rfl
    rw [closeBody_cons hbrace]
    exact ⟨hr.trans (.after p rest stop met met), closed g' p rest stop met hbrace hinv⟩

end Body

end QuerySuite.Grammar
