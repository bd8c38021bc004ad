import QuerySuite.Grammar.Stream
import QuerySuite.Diagnostic

/-!
# Phrases

A phrase reads pieces from a cursor and either gives a value together with the cursor after it, or
fails with the error of the first token that does not fit. A phrase never reads backwards: its reply
carries the fact that no more pieces are left than before, which is what recursive phrases end by.

The end token of the document is part of a cursor's type, so that it is the same wherever a phrase
goes.

Results:

* `Reply.andThen_ok`, `Reply.andThen_fail`: what follows a phrase sees its value, or is not reached.
* `Cursor.read?_eq_some`: a token is read only where it stands.
-/

namespace QuerySuite.Grammar

/-- What is left to read, and the end of the last token read. -/
structure Cursor (eof : Token) where
  rest : List Piece
  stop : Position

variable {eof : Token} {α β : Type}

namespace Cursor

/-- How many pieces are left. -/
def size (c : Cursor eof) : Nat := c.rest.length

/-- The token at the cursor, which is the end token when nothing is left. -/
def token (c : Cursor eof) : Token :=
  match c.rest with
  | [] => eof
  | p :: _ => p.token

/-- The cursor after the piece `p`. -/
def after (p : Piece) (rest : List Piece) : Cursor eof := ⟨rest, p.token.stop⟩

/-- Reads the token at the cursor if it satisfies `accepts`. The end token is never read. -/
def read? (c : Cursor eof) (accepts : Token → Bool) : Option (Token × Cursor eof) :=
  match c.rest with
  | [] => none
  | p :: rest => if accepts p.token then some (p.token, after p rest) else none

@[simp]
theorem size_mk (rest : List Piece) (stop : Position) :
    (⟨rest, stop⟩ : Cursor eof).size = rest.length := rfl

@[simp]
theorem size_after (p : Piece) (rest : List Piece) :
    (after p rest : Cursor eof).size = rest.length := rfl

theorem read?_eq_some {c d : Cursor eof} {accepts : Token → Bool} {t : Token}
    (h : c.read? accepts = some (t, d)) : t = c.token ∧ accepts t = true ∧ d.size < c.size := by
  rcases c with ⟨_ | ⟨p, rest⟩, stop⟩
  · simp [read?] at h
  · simp only [read?] at h
    split at h
    · next ha => cases h; exact ⟨rfl, ha, by simp [size, after]⟩
    · simp at h

theorem size_lt_of_read? {c d : Cursor eof} {accepts : Token → Bool} {t : Token}
    (h : c.read? accepts = some (t, d)) : d.size < c.size := (read?_eq_some h).2.2

theorem size_le_of_read? {c d : Cursor eof} {accepts : Token → Bool} {t : Token}
    (h : c.read? accepts = some (t, d)) : d.size ≤ c.size := Nat.le_of_lt (size_lt_of_read? h)

theorem le_refl (c : Cursor eof) : c.size ≤ c.size := Nat.le_refl _

theorem le_trans {c d e : Cursor eof} (he : e.size ≤ d.size) (hd : d.size ≤ c.size) :
    e.size ≤ c.size := Nat.le_trans he hd

theorem size_le_trans {n : Nat} {d e : Cursor eof} (he : e.size ≤ d.size) (hd : d.size ≤ n) :
    e.size ≤ n := Nat.le_trans he hd

theorem size_le_of_le {m n : Nat} {d : Cursor eof} (hd : d.size ≤ m) (h : m ≤ n) : d.size ≤ n :=
  Nat.le_trans hd h

theorem after_le (p : Piece) (rest : List Piece) (stop : Position) :
    (after p rest : Cursor eof).size ≤ (⟨p :: rest, stop⟩ : Cursor eof).size := Nat.le_succ _

end Cursor

/-- The reply of a phrase where `n` pieces were left. -/
inductive Reply (eof : Token) (α : Type) (n : Nat) where
  | ok (value : α) (next : Cursor eof) (le : next.size ≤ n)
  | fail (error : ParseError)

namespace Reply

/-- Goes on after a phrase; a failure stands. -/
def andThen {n : Nat} (r : Reply eof α n)
    (f : α → (d : Cursor eof) → d.size ≤ n → Reply eof β d.size) : Reply eof β n :=
  match r with
  | fail e => fail e
  | ok a d hd =>
    match f a d hd with
    | fail e => fail e
    | ok b e he => ok b e (Cursor.size_le_trans he hd)

/-- The same reply where more pieces were left. -/
def widen {m n : Nat} (h : m ≤ n) : Reply eof α m → Reply eof α n
  | fail e => fail e
  | ok a d hd => ok a d (Cursor.size_le_of_le hd h)

/-- Changes the value of a reply. -/
def map {n : Nat} (f : α → β) : Reply eof α n → Reply eof β n
  | fail e => fail e
  | ok a d hd => ok (f a) d hd

@[simp]
theorem andThen_fail {n : Nat} (e : ParseError)
    (f : α → (d : Cursor eof) → d.size ≤ n → Reply eof β d.size) :
    (fail e : Reply eof α n).andThen f = fail e := rfl

@[simp]
theorem andThen_ok {n : Nat} (a : α) (d : Cursor eof) (hd : d.size ≤ n)
    (f : α → (d : Cursor eof) → d.size ≤ n → Reply eof β d.size) :
    (ok a d hd).andThen f = (f a d hd).widen hd := by
  simp only [andThen, widen]
  split <;> rename_i h <;> simp [h]

end Reply

/-- A rule of the grammar that reads pieces from a cursor. -/
def Phrase (eof : Token) (α : Type) : Type := (c : Cursor eof) → Reply eof α c.size

namespace Phrase

/-- Gives a value and reads nothing. -/
def give (a : α) : Phrase eof α := fun c => .ok a c c.le_refl

/-- Reads one phrase after another. -/
def bind (p : Phrase eof α) (f : α → Phrase eof β) : Phrase eof β :=
  fun c => (p c).andThen fun a d _ => f a d

instance : Monad (Phrase eof) where
  pure := give
  bind := bind

/-- Fails. -/
def failure (e : ParseError) : Phrase eof α := fun _ => .fail e

/-- The end of the last token read. -/
def lastStop : Phrase eof Position := fun c => .ok c.stop c c.le_refl

/-- Reads a token that satisfies `accepts`, if one stands at the cursor. -/
def next? (accepts : Token → Bool) : Phrase eof (Option Token) := fun c =>
  match h : c.read? accepts with
  | some (t, d) => .ok (some t) d (Cursor.size_le_of_read? h)
  | none => .ok none c c.le_refl

/-- Reads a token that satisfies `accepts`, or fails. -/
def expect (accepts : Token → Bool) (expected : String) : Phrase eof Token := fun c =>
  match h : c.read? accepts with
  | some (t, d) => .ok t d (Cursor.size_le_of_read? h)
  | none => .fail (.unexpected expected c.token)

/-- Reads a token of the kind `k`, or fails. -/
def ofKind (k : Token.Kind) (expected : String) : Phrase eof Token := expect (·.kind == k) expected

/-- Reads a plain name, or fails. -/
def name (expected : String) : Phrase eof String := do
  let t ← expect (·.isName) expected
  pure t.text

end Phrase

/-! ## Lists in brackets -/

/-- Reads elements with commas between them up to the token `close`, which is read too. A comma may
stand after the last element. -/
def elements (close : Token.Kind) (expected : String) (c : Cursor eof)
    (element : (d : Cursor eof) → d.size ≤ c.size → Reply eof α d.size) :
    Reply eof (List α) c.size :=
  match h₁ : c.read? (·.kind == close) with
  | some (_, d) => .ok [] d (Cursor.size_le_of_read? h₁)
  | none =>
    (element c c.le_refl).andThen fun a d hd =>
      match h₂ : d.read? (·.kind == close) with
      | some (_, e) => .ok [a] e (Cursor.size_le_of_read? h₂)
      | none =>
        match h₃ : d.read? (·.kind == .comma) with
        | none => .fail (.unexpected expected d.token)
        | some (_, e) =>
          have he := Cursor.size_le_of_read? h₃
          ((elements close expected e fun x hx =>
            element x (Cursor.le_trans hx (Cursor.le_trans he hd))).map (a :: ·)).widen he
termination_by c.size
decreasing_by exact Nat.lt_of_lt_of_le (Cursor.size_lt_of_read? h₃) hd

end QuerySuite.Grammar
