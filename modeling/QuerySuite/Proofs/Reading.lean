import QuerySuite.Grammar.Values

/-!
# Reading forward

What every phrase of the grammar does to the cursor, whatever it reads: it uses up some pieces from
the front of what is left, and an error it fails with is raised at one of the tokens that were left.

`Reply.From c P r` says this of one reply, together with a fact `P` about the value and the cursor
after it. The rules below follow the ways in which phrases are put together, so that the contract of
a phrase is assembled from those of its parts.

Results:

* `Cursor.Reads.trans`: readings follow each other.
* `Reply.From.andThen`, `Reply.From.bind`: the contract of two phrases in a row.
* `elements_from`: the contract of a list in brackets, from that of its elements.
* `RaisedAt.span_eq`, `RaisedAt.flatten_eq`: an error is where it was raised, and has no parts.
-/

namespace QuerySuite.Grammar

variable {eof : Token} {α β : Type}

/-! ## Used pieces -/

/-- The end of the last of the pieces, or `stop` when there are none. -/
def stopAfter : (stop : Position) → List Piece → Position
  | stop, [] => stop
  | _, p :: used => stopAfter p.token.stop used

@[simp]
theorem stopAfter_nil (stop : Position) : stopAfter stop [] = stop := rfl

@[simp]
theorem stopAfter_cons (stop : Position) (p : Piece) (used : List Piece) :
    stopAfter stop (p :: used) = stopAfter p.token.stop used := rfl

theorem stopAfter_append (stop : Position) (u v : List Piece) :
    stopAfter stop (u ++ v) = stopAfter (stopAfter stop u) v := by
  induction u generalizing stop with
  | nil => rfl
  | cons p u ih => exact ih p.token.stop

theorem stopAfter_eq_getLast (p : Piece) (used : List Piece) :
    stopAfter p.token.stop used = (used.getLast?.getD p).token.stop := by
  induction used generalizing p with
  | nil => rfl
  | cons q used ih => rw [stopAfter_cons, ih, List.getLast?_cons, Option.getD_some]

namespace Cursor

/-- The tokens that are left, the end token last. -/
def tokens (c : Cursor eof) : List Token := c.rest.map (·.token) ++ [eof]

/-- Between the cursors `c` and `d` the pieces `used` stand. -/
structure Reads (c : Cursor eof) (used : List Piece) (d : Cursor eof) : Prop where
  rest_eq : c.rest = used ++ d.rest
  stop_eq : d.stop = stopAfter c.stop used

namespace Reads

variable {c d e : Cursor eof} {used more : List Piece}

theorem refl (c : Cursor eof) : c.Reads [] c := ⟨rfl, rfl⟩

theorem after (p : Piece) (rest : List Piece) (stop : Position) :
    (⟨p :: rest, stop⟩ : Cursor eof).Reads [p] (.after p rest) := ⟨rfl, rfl⟩

theorem trans (h : c.Reads used d) (h' : d.Reads more e) : c.Reads (used ++ more) e := by
  constructor
  · rw [h.rest_eq, h'.rest_eq, List.append_assoc]
  · rw [h'.stop_eq, h.stop_eq, stopAfter_append]

/-- What is left later was left before. -/
theorem tokens_subset (h : c.Reads used d) : d.tokens ⊆ c.tokens := by
  intro t ht
  simp only [tokens, h.rest_eq, List.map_append, List.append_assoc]
  exact List.mem_append_right _ ht

theorem size_eq (h : c.Reads used d) : c.size = used.length + d.size := by
  rw [size, h.rest_eq, List.length_append, size]

/-- Where less is left than before, the first piece was used up. -/
theorem exists_cons {p : Piece} {rest : List Piece} {stop : Position}
    (h : (⟨p :: rest, stop⟩ : Cursor eof).Reads used d) (hd : d.size ≤ rest.length) :
    ∃ more, used = p :: more := by
  have hrest := h.rest_eq
  cases used with
  | nil =>
    have hsize := h.size_eq
    rw [size_mk, List.length_cons, List.length_nil] at hsize
    omega
  | cons q more =>
    cases hrest
    exact ⟨more, rfl⟩

end Reads

theorem token_mem_tokens (c : Cursor eof) : c.token ∈ c.tokens := by
  rcases c with ⟨_ | ⟨p, rest⟩, stop⟩
  · exact List.mem_singleton.2 rfl
  · exact List.mem_cons_self

/-- A token that is read is the first piece that was left. -/
theorem read?_reads {c d : Cursor eof} {accepts : Token → Bool} {t : Token}
    (h : c.read? accepts = some (t, d)) : ∃ p, p.token = t ∧ c.Reads [p] d := by
  rcases c with ⟨_ | ⟨p, rest⟩, stop⟩
  · simp [read?] at h
  · simp only [read?] at h
    split at h
    · cases h
      exact ⟨p, rfl, .after p rest stop⟩
    · simp at h

end Cursor

/-! ## Errors and the tokens they are raised at -/

/-- The error says that the token `t` does not fit, or that it stands again. -/
def RaisedAt (t : Token) (e : ParseError) : Prop :=
  (∃ expected, e = .unexpected expected t) ∨ ∃ what, e = .duplicate what t.span

/-- The error is raised at one of the tokens. -/
def RaisedIn (tokens : List Token) (e : ParseError) : Prop := ∃ t ∈ tokens, RaisedAt t e

theorem RaisedAt.span_eq {t : Token} {e : ParseError} (h : RaisedAt t e) : e.span = t.span := by
  rcases h with ⟨expected, rfl⟩ | ⟨what, rfl⟩
  · unfold ParseError.unexpected
    split <;> rw [ParseError.span]
  · rw [ParseError.span]

theorem RaisedAt.flatten_eq {t : Token} {e : ParseError} (h : RaisedAt t e) : e.flatten = [e] := by
  apply ParseError.flatten_of_ne_multiple
  intro errors
  rcases h with ⟨expected, rfl⟩ | ⟨what, rfl⟩
  · unfold ParseError.unexpected
    split <;> simp
  · simp

theorem RaisedIn.unexpected {t : Token} {tokens : List Token} (h : t ∈ tokens) (expected : String) :
    RaisedIn tokens (.unexpected expected t) := ⟨t, h, .inl ⟨expected, rfl⟩⟩

theorem RaisedIn.mono {ts us : List Token} {e : ParseError} (h : RaisedIn ts e) (hs : ts ⊆ us) :
    RaisedIn us e := by
  obtain ⟨t, ht, he⟩ := h
  exact ⟨t, hs ht, he⟩

/-! ## The contract of a reply -/

/-- The reply reads forward from `c`: on success `P` holds of the value and of the cursor after it,
and a failure is raised at a token that was left. -/
def Reply.From (c : Cursor eof) (P : α → Cursor eof → Prop) {n : Nat} : Reply eof α n → Prop
  | .ok a d _ => P a d ∧ ∃ used, c.Reads used d
  | .fail e => RaisedIn c.tokens e

namespace Reply.From

variable {c d : Cursor eof} {n : Nat} {P : α → Cursor eof → Prop} {Q : β → Cursor eof → Prop}

theorem ok {a : α} {h : d.size ≤ n} (hP : P a d) (hr : ∃ used, c.Reads used d) :
    Reply.From c P (.ok a d h : Reply eof α n) := ⟨hP, hr⟩

/-- A value that is given without reading. -/
theorem here {a : α} {h : c.size ≤ n} (hP : P a c) : Reply.From c P (.ok a c h : Reply eof α n) :=
  ⟨hP, [], .refl c⟩

/-- A failure at the token of the cursor. -/
theorem unexpected (expected : String) :
    Reply.From c P (.fail (.unexpected expected c.token) : Reply eof α n) :=
  RaisedIn.unexpected c.token_mem_tokens expected

theorem mono {P' : α → Cursor eof → Prop} {r : Reply eof α n} (h : r.From c P)
    (hP : ∀ a d, P a d → P' a d) : r.From c P' := by
  cases r with
  | ok a d hd => exact ⟨hP a d h.1, h.2⟩
  | fail e => exact h

theorem widen {m : Nat} {r : Reply eof α n} (h : r.From c P) (hm : n ≤ m) :
    (r.widen hm).From c P := by
  cases r with
  | ok a d hd => exact h
  | fail e => exact h

theorem map {f : α → β} {r : Reply eof α n} (h : r.From c P) (hf : ∀ a d, P a d → Q (f a) d) :
    (r.map f).From c Q := by
  cases r with
  | ok a d hd => exact ⟨hf a d h.1, h.2⟩
  | fail e => exact h

/-- A reply that reads forward from a later cursor reads forward from an earlier one. -/
theorem before {used : List Piece} {r : Reply eof α n} (h : r.From d P) (hr : c.Reads used d) :
    r.From c P := by
  cases r with
  | ok a e he =>
    obtain ⟨hP, more, hm⟩ := h
    exact ⟨hP, used ++ more, hr.trans hm⟩
  | fail e => exact RaisedIn.mono h hr.tokens_subset

theorem andThen {r : Reply eof α n} {f : α → (d : Cursor eof) → d.size ≤ n → Reply eof β d.size}
    (h : r.From c P) (hf : ∀ a d hd, P a d → (f a d hd).From d Q) : (r.andThen f).From c Q := by
  cases r with
  | fail e => exact h
  | ok a d hd =>
    obtain ⟨hP, used, hr⟩ := h
    rw [Reply.andThen_ok]
    exact ((hf a d hd hP).before hr).widen hd

end Reply.From

/-! ## Phrases in a row -/

namespace Phrase

@[simp]
theorem bind_apply (p : Phrase eof α) (f : α → Phrase eof β) (c : Cursor eof) :
    (p >>= f) c = (p c).andThen fun a d _ => f a d := rfl

end Phrase

/-- The contract of two phrases in a row. -/
theorem Reply.From.bind {c : Cursor eof} {P : α → Cursor eof → Prop} {Q : β → Cursor eof → Prop}
    {p : Phrase eof α} {f : α → Phrase eof β} (h : (p c).From c P)
    (hf : ∀ a d, P a d → (f a d).From d Q) : ((p >>= f) c).From c Q := by
  rw [Phrase.bind_apply]
  exact h.andThen fun a d _ hP => hf a d hP

namespace Phrase

theorem lastStop_from (c : Cursor eof) : (lastStop c).From c fun stop d => stop = d.stop :=
  .here rfl

theorem next?_from (accepts : Token → Bool) (c : Cursor eof) :
    (next? accepts c).From c fun t _ => ∀ u, t = some u → accepts u = true := by
  unfold next?
  split
  · next t d h =>
    obtain ⟨p, -, hr⟩ := Cursor.read?_reads h
    refine .ok ?_ ⟨[p], hr⟩
    rintro u ⟨⟩
    exact (Cursor.read?_eq_some h).2.1
  · exact .here (by simp)

theorem expect_from (accepts : Token → Bool) (expected : String) (c : Cursor eof) :
    (expect accepts expected c).From c fun t _ => accepts t = true := by
  unfold expect
  split
  · next t d h =>
    obtain ⟨p, -, hr⟩ := Cursor.read?_reads h
    exact .ok (Cursor.read?_eq_some h).2.1 ⟨[p], hr⟩
  · exact .unexpected expected

theorem ofKind_from (k : Token.Kind) (expected : String) (c : Cursor eof) :
    (ofKind k expected c).From c fun _ _ => True :=
  (expect_from _ expected c).mono fun _ _ _ => trivial

theorem name_from (expected : String) (c : Cursor eof) :
    (name expected c).From c fun _ _ => True :=
  (expect_from _ expected c).bind fun _ _ _ => .here trivial

end Phrase

/-- The contract of a list in brackets, of which fewer than `n` pieces are left. -/
theorem elements_from_of_lt {P : α → Prop} {close : Token.Kind} {expected : String} :
    ∀ (n : Nat) (c : Cursor eof), c.size < n →
      ∀ element : (d : Cursor eof) → d.size ≤ c.size → Reply eof α d.size,
        (∀ d hd, (element d hd).From d fun a _ => P a) →
        (elements close expected c element).From c fun as _ => ∀ a ∈ as, P a := by
  intro n
  induction n with
  | zero => intro c hn; omega
  | succ n ih =>
    intro c hn element h
    rw [elements]
    split
    · next t d h₁ =>
      obtain ⟨p, -, hr⟩ := Cursor.read?_reads h₁
      exact .ok (by simp) ⟨[p], hr⟩
    · refine (h c c.le_refl).andThen fun a d hd ha => ?_
      split
      · next t e h₂ =>
        obtain ⟨p, -, hr⟩ := Cursor.read?_reads h₂
        exact .ok (by simpa using ha) ⟨[p], hr⟩
      · split
        · exact .unexpected expected
        · next t e h₃ =>
          obtain ⟨p, -, hr⟩ := Cursor.read?_reads h₃
          have hlt := Cursor.size_lt_of_read? h₃
          have rest := ih e (by omega) _ fun x hx => h x (by omega)
          refine ((rest.map fun as _ has => ?_).before hr).widen _
          intro b hb
          rcases List.mem_cons.1 hb with rfl | hb
          · exact ha
          · exact has b hb

/-- The contract of a list in brackets: `P` holds of every element. -/
theorem elements_from {P : α → Prop} {close : Token.Kind} {expected : String} (c : Cursor eof)
    (element : (d : Cursor eof) → d.size ≤ c.size → Reply eof α d.size)
    (h : ∀ d hd, (element d hd).From d fun a _ => P a) :
    (elements close expected c element).From c fun as _ => ∀ a ∈ as, P a :=
  elements_from_of_lt (c.size + 1) c (Nat.lt_succ_self _) element h

end QuerySuite.Grammar
