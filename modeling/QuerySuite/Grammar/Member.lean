import QuerySuite.Grammar.Resume

/-!
# Clauses and members

A clause is a rule of the grammar that may hold bodies of its own. Beside the cursor it carries the
errors met so far: when errors are recovered from, a member of a body that fails is skipped, its
error is noted and reading goes on; otherwise the first failure ends the reading.

Results:

* `Outcome.andThen_ok`, `Outcome.andThen_fail`: what follows a clause sees its value, or is not
  reached.
* `members_nil`, `members_closed`: at the end of the document and at the closing brace there is no
  further member.
-/

namespace QuerySuite.Grammar

/-- Whether errors are recovered from. -/
inductive Mode where
  | strict
  | recovery
  deriving DecidableEq

/-- A cursor and the errors met so far, in the order they were met. -/
structure State (eof : Token) extends Cursor eof where
  met : List ParseError

variable {eof : Token} {α β σ : Type}

/-- How many pieces are left. -/
def State.size (s : State eof) : Nat := s.toCursor.size

@[simp]
theorem State.size_mk (c : Cursor eof) (met : List ParseError) :
    (⟨c, met⟩ : State eof).size = c.size := rfl

namespace State

theorem le_refl (s : State eof) : s.size ≤ s.size := Nat.le_refl _

theorem size_le_trans {n : Nat} {t u : State eof} (hu : u.size ≤ t.size) (ht : t.size ≤ n) :
    u.size ≤ n := Nat.le_trans hu ht

theorem size_le_of_le {m n : Nat} {t : State eof} (ht : t.size ≤ m) (h : m ≤ n) : t.size ≤ n :=
  Nat.le_trans ht h

theorem after_le (p : Piece) (rest : List Piece) (stop : Position) (met : List ParseError) :
    (⟨.after p rest, met⟩ : State eof).size ≤ (⟨⟨p :: rest, stop⟩, met⟩ : State eof).size :=
  Nat.le_succ _

end State

/-- The outcome of a clause where `n` pieces were left. A failure tells the errors met before it. -/
inductive Outcome (eof : Token) (α : Type) (n : Nat) where
  | ok (value : α) (next : State eof) (le : next.size ≤ n)
  | fail (error : ParseError) (met : List ParseError)

namespace Outcome

/-- Goes on after a clause; a failure stands. -/
def andThen {n : Nat} (r : Outcome eof α n)
    (f : α → (t : State eof) → t.size ≤ n → Outcome eof β t.size) : Outcome eof β n :=
  match r with
  | fail e met => fail e met
  | ok a t ht =>
    match f a t ht with
    | fail e met => fail e met
    | ok b u hu => ok b u (State.size_le_trans hu ht)

/-- The same outcome where more pieces were left. -/
def widen {m n : Nat} (h : m ≤ n) : Outcome eof α m → Outcome eof α n
  | fail e met => fail e met
  | ok a t ht => ok a t (State.size_le_of_le ht h)

@[simp]
theorem andThen_fail {n : Nat} (e : ParseError) (met : List ParseError)
    (f : α → (t : State eof) → t.size ≤ n → Outcome eof β t.size) :
    (fail e met : Outcome eof α n).andThen f = fail e met := rfl

@[simp]
theorem andThen_ok {n : Nat} (a : α) (t : State eof) (ht : t.size ≤ n)
    (f : α → (t : State eof) → t.size ≤ n → Outcome eof β t.size) :
    (ok a t ht).andThen f = (f a t ht).widen ht := by
  simp only [andThen, widen]
  split <;> rename_i h <;> simp [h]

end Outcome

/-- A rule of the grammar that may hold bodies of its own. -/
def Clause (eof : Token) (α : Type) : Type := (s : State eof) → Outcome eof α s.size

namespace Clause

/-- Gives a value and reads nothing. -/
def give (a : α) : Clause eof α := fun s => .ok a s s.le_refl

/-- Reads one clause after another. -/
def bind (p : Clause eof α) (f : α → Clause eof β) : Clause eof β :=
  fun s => (p s).andThen fun a t _ => f a t

instance : Monad (Clause eof) where
  pure := give
  bind := bind

/-- A phrase as a clause: it leaves the errors met as they are. -/
def ofPhrase (p : Phrase eof α) : Clause eof α := fun s =>
  match p s.toCursor with
  | .ok a c h => .ok a ⟨c, s.met⟩ h
  | .fail e => .fail e s.met

/-- Fails. -/
def failure (e : ParseError) : Clause eof α := fun s => .fail e s.met

end Clause

/-- What came of a member: it was read, or it was skipped. -/
inductive Member (α : Type) where
  | parsed (value : α)
  | skipped (region : Region)

/-- Reads the members of a body up to its closing brace, which is not read, or to the end of the
document. Each member is read by `rule`, which gets what was gathered before, the first token of the
member and the state after it; `place` adds what came of it. -/
def members (mode : Mode) (ctx : Context) (place : σ → Member α → σ) (n : Nat)
    (rule : σ → Token → (t : State eof) → t.size < n → Outcome eof α t.size) (gathered : σ)
    (s : State eof) (hs : s.size ≤ n) : Outcome eof σ s.size :=
  match s with
  | ⟨⟨[], stop⟩, met⟩ => .ok gathered ⟨⟨[], stop⟩, met⟩ (Nat.le_refl _)
  | ⟨⟨p :: rest, stop⟩, met⟩ =>
    have hn : rest.length < n := hs
    if ctx.closes p.token then .ok gathered ⟨⟨p :: rest, stop⟩, met⟩ (Nat.le_refl _)
    else if ctx.separates p.token then
      (members mode ctx place n rule gathered ⟨.after p rest, met⟩ (Nat.le_of_lt hn)).widen
        (Nat.le_succ _)
    else
      match rule gathered p.token ⟨.after p rest, met⟩ hn with
      | .ok a t ht =>
        have ht : t.size ≤ rest.length := ht
        (members mode ctx place n rule (place gathered (.parsed a)) t
          (Nat.le_trans ht (Nat.le_of_lt hn))).widen (Nat.le_succ_of_le ht)
      | .fail e inner =>
        match mode with
        | .strict => .fail e inner
        | .recovery =>
          have hr := size_resume_le eof ctx p rest
          -- What the failed member noted is forgotten; its own error is noted instead.
          (members .recovery ctx place n rule
              (place gathered (.skipped (resume eof ctx p rest).1))
              ⟨(resume eof ctx p rest).2, inner.take met.length ++ [e]⟩
              (Nat.le_trans hr (Nat.le_of_lt hn))).widen (Nat.le_succ_of_le hr)
termination_by s.size
decreasing_by
  · exact Nat.lt_succ_self _
  · exact Nat.lt_succ_of_le ht
  · exact Nat.lt_succ_of_le hr

theorem members_nil (mode : Mode) (ctx : Context) (place : σ → Member α → σ) (n : Nat)
    (rule : σ → Token → (t : State eof) → t.size < n → Outcome eof α t.size) (gathered : σ)
    (stop : Position) (met : List ParseError) (hs : (⟨⟨[], stop⟩, met⟩ : State eof).size ≤ n) :
    members mode ctx place n rule gathered ⟨⟨[], stop⟩, met⟩ hs =
      .ok gathered ⟨⟨[], stop⟩, met⟩ (Nat.le_refl _) := by
  rw [members]

theorem members_closed {ctx : Context} {p : Piece} (h : ctx.closes p.token = true) (mode : Mode)
    (place : σ → Member α → σ) (n : Nat)
    (rule : σ → Token → (t : State eof) → t.size < n → Outcome eof α t.size) (gathered : σ)
    (rest : List Piece) (stop : Position) (met : List ParseError)
    (hs : (⟨⟨p :: rest, stop⟩, met⟩ : State eof).size ≤ n) :
    members mode ctx place n rule gathered ⟨⟨p :: rest, stop⟩, met⟩ hs =
      .ok gathered ⟨⟨p :: rest, stop⟩, met⟩ (Nat.le_refl _) := by
  rw [members, if_pos h]

/-- Reads the brace that closes a body. When errors are recovered from, a body that the document
ends in is kept: the error is noted unless one is noted at that place already, and the record of the
body is extended by an open region at the end unless it reaches there already. -/
def closeBody (mode : Mode) (recovery : Recovery) : Clause eof Recovery := fun s =>
  match s with
  | ⟨⟨[], stop⟩, met⟩ =>
    let e := ParseError.unexpected "'\x7d'" eof
    match mode with
    | .strict => .fail e met
    | .recovery =>
      let met' := if met.any (·.span == e.span) then met else met ++ [e]
      let recovery' :=
        if recovery.contains eof.start then recovery
        else recovery.absorb (.ofRegion ⟨eof.start, none, []⟩)
      .ok recovery' ⟨⟨[], stop⟩, met'⟩ (Nat.le_refl _)
  | ⟨⟨p :: rest, stop⟩, met⟩ =>
    if p.token.kind == .rbrace then
      .ok recovery ⟨.after p rest, met⟩ (State.after_le p rest stop met)
    else .fail (.unexpected "'\x7d'" p.token) met

end QuerySuite.Grammar
