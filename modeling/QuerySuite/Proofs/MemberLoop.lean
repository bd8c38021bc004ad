import Mathlib.Logic.Relation
import QuerySuite.Grammar.Member
import QuerySuite.Proofs.Reading

/-!
# The loop over the members of a body

With recovery, reading the members of a body is a run of turns. A turn steps over a separator, reads
a member, or skips a member that cannot be read. Each turn uses up at least one piece, so the run
ends; it ends where nothing is left or where the body is closed, and never with an error.

Every fact about bodies that are read with recovery is an invariant of these turns.

Results:

* `members_run`: reading the members of a body is a run of turns up to the end of the body.
* `members_invariant`: what every turn keeps holds at the end of the body.
* `Turn.size_lt`: a turn leaves less than it found.
* `resume_reads`: a skipped member is a stretch of pieces that begins with its first one.
-/

namespace QuerySuite.Grammar

variable {eof : Token} {α β σ : Type}

/-! ## Skipped stretches -/

/-- The pieces that are skipped with the piece `p`, itself not included. -/
def skippedAfter (ctx : Context) (p : Piece) (rest : List Piece) : List Piece :=
  (skip ctx (depthAfter 0 p.token) rest).1

/-- What is left when the member that begins with `p` was skipped. -/
def leftAfter (ctx : Context) (p : Piece) (rest : List Piece) : List Piece :=
  (skip ctx (depthAfter 0 p.token) rest).2

theorem skippedAfter_append (ctx : Context) (p : Piece) (rest : List Piece) :
    skippedAfter ctx p rest ++ leftAfter ctx p rest = rest := skip_append ctx _ rest

theorem resume_fst (ctx : Context) (p : Piece) (rest : List Piece) :
    (resume eof ctx p rest).1 = regionOf p (skippedAfter ctx p rest) (leftAfter ctx p rest) := rfl

theorem resume_snd_rest (ctx : Context) (p : Piece) (rest : List Piece) :
    (resume eof ctx p rest).2.rest = leftAfter ctx p rest := rfl

/-- A skipped member is a stretch of pieces that begins with its first one. -/
theorem resume_reads (ctx : Context) (p : Piece) (rest : List Piece) (stop : Position) :
    (⟨p :: rest, stop⟩ : Cursor eof).Reads (p :: skippedAfter ctx p rest)
      (resume eof ctx p rest).2 := by
  constructor
  · rw [resume_snd_rest, List.cons_append, skippedAfter_append]
  · rw [stopAfter_cons, stopAfter_eq_getLast]
    rfl

/-! ## Clauses that give a value -/

/-- The outcome is a value, and `P` holds of it and of the state after it. -/
def Outcome.Gives {n : Nat} (r : Outcome eof α n) (P : α → State eof → Prop) : Prop :=
  match r with
  | .ok a t _ => P a t
  | .fail _ _ => False

namespace Outcome.Gives

variable {n : Nat} {r : Outcome eof α n} {P Q : α → State eof → Prop}

theorem exists_eq (h : r.Gives P) : ∃ a t ht, r = .ok a t ht ∧ P a t := by
  cases r with
  | ok a t ht => exact ⟨a, t, ht, rfl, h⟩
  | fail e met => exact h.elim

theorem mono (h : r.Gives P) (hP : ∀ a t, P a t → Q a t) : r.Gives Q := by
  obtain ⟨a, t, ht, rfl, hp⟩ := h.exists_eq
  exact hP a t hp

theorem and (h : r.Gives P) (h' : r.Gives Q) : r.Gives fun a t => P a t ∧ Q a t := by
  obtain ⟨a, t, ht, rfl, hp⟩ := h.exists_eq
  exact ⟨hp, h'⟩

theorem widen {m : Nat} (h : r.Gives P) (hm : n ≤ m) : (r.widen hm).Gives P := by
  obtain ⟨a, t, ht, rfl, hp⟩ := h.exists_eq
  exact hp

theorem andThen {f : α → (t : State eof) → t.size ≤ n → Outcome eof β t.size}
    {Q : β → State eof → Prop} (h : r.Gives P) (hf : ∀ a t ht, P a t → (f a t ht).Gives Q) :
    (r.andThen f).Gives Q := by
  obtain ⟨a, t, ht, rfl, hp⟩ := h.exists_eq
  rw [Outcome.andThen_ok]
  exact (hf a t ht hp).widen ht

end Outcome.Gives

/-! ## Turns -/

/-- The members of the body end at the cursor: nothing is left, or the next token closes the
body. -/
def Context.Ends (ctx : Context) (c : Cursor eof) : Prop :=
  ∀ p ∈ c.rest.head?, ctx.closes p.token = true

/-- Where pieces are left at the end of a body, the closing brace is the first of them. -/
theorem Context.Ends.kind_eq {ctx : Context} {c : Cursor eof} {p : Piece} {rest : List Piece}
    (h : ctx.Ends c) (hc : c.rest = p :: rest) : p.token.kind = .rbrace := by
  have closes := h p (by rw [hc]; rfl)
  simp only [Context.closes, Bool.and_eq_true, beq_iff_eq] at closes
  exact closes.2

/-- One turn of the loop over the members of a body: what was gathered and the state, before and
after it. -/
inductive Turn (ctx : Context) (place : σ → Member α → σ) (rule : σ → Token → Clause eof α) :
    σ × State eof → σ × State eof → Prop where
  /-- A separator is stepped over. -/
  | separator {g : σ} {p : Piece} {rest : List Piece} {stop : Position} {met : List ParseError}
      (inside : ctx.closes p.token = false) (separates : ctx.separates p.token = true) :
      Turn ctx place rule (g, ⟨⟨p :: rest, stop⟩, met⟩) (g, ⟨.after p rest, met⟩)
  /-- A member is read. -/
  | parsed {g : σ} {p : Piece} {rest : List Piece} {stop : Position} {met : List ParseError} {a : α}
      {t : State eof} {ht : t.size ≤ rest.length} (inside : ctx.closes p.token = false)
      (begins : ctx.separates p.token = false)
      (read : rule g p.token ⟨.after p rest, met⟩ = .ok a t ht) :
      Turn ctx place rule (g, ⟨⟨p :: rest, stop⟩, met⟩) (place g (.parsed a), t)
  /-- A member fails and is skipped. What it noted is forgotten, its own error is noted. -/
  | skipped {g : σ} {p : Piece} {rest : List Piece} {stop : Position} {met : List ParseError}
      {e : ParseError} {inner : List ParseError} (inside : ctx.closes p.token = false)
      (begins : ctx.separates p.token = false)
      (failed : rule g p.token ⟨.after p rest, met⟩ = .fail e inner) :
      Turn ctx place rule (g, ⟨⟨p :: rest, stop⟩, met⟩)
        (place g (.skipped (resume eof ctx p rest).1),
          ⟨(resume eof ctx p rest).2, inner.take met.length ++ [e]⟩)

section Loop

variable {ctx : Context} {place : σ → Member α → σ} {rule : σ → Token → Clause eof α}

/-- A turn leaves less than it found. -/
theorem Turn.size_lt {x y : σ × State eof} (h : Turn ctx place rule x y) : y.2.size < x.2.size := by
  cases h with
  | separator => exact Nat.lt_succ_self _
  | parsed _ _ _ => exact Nat.lt_succ_of_le ‹_›
  | skipped => exact Nat.lt_succ_of_le (size_resume_le eof ctx _ _)

/-- Reading the members of a body is a run of turns up to the end of the body. -/
theorem members_run_of_lt {n : Nat} :
    ∀ (m : Nat) (g : σ) (s : State eof) (hs : s.size ≤ n), s.size < m →
      (members .recovery ctx place n (fun g lead t _ => rule g lead t) g s hs).Gives fun g' u =>
        Relation.ReflTransGen (Turn ctx place rule) (g, s) (g', u) ∧ ctx.Ends u.toCursor := by
  intro m
  induction m with
  | zero => intro g s hs hm; omega
  | succ m ih =>
    rintro g ⟨⟨_ | ⟨p, rest⟩, stop⟩, met⟩ hs hm
    · rw [members_nil]
      exact ⟨.refl, by simp [Context.Ends]⟩
    · -- What the loop does after a turn is known by induction.
      have onward {g' : σ} {t : State eof} (ht : t.size ≤ n)
          (turn : Turn ctx place rule (g, ⟨⟨p :: rest, stop⟩, met⟩) (g', t)) :
          (members .recovery ctx place n (fun g lead t _ => rule g lead t) g' t ht).Gives
            fun g'' u =>
              Relation.ReflTransGen (Turn ctx place rule) (g, ⟨⟨p :: rest, stop⟩, met⟩) (g'', u) ∧
                ctx.Ends u.toCursor := by
        have hlt := turn.size_lt
        dsimp only at hlt
        refine (ih g' t ht (by omega)).mono fun g'' u h => ⟨?_, h.2⟩
        exact .head turn h.1
      rw [members]
      dsimp only
      split
      · next closes => exact ⟨.refl, by simpa [Context.Ends] using closes⟩
      · next inside =>
        rw [Bool.not_eq_true] at inside
        split
        · next separates => exact (onward _ (.separator inside separates)).widen _
        · next begins =>
          rw [Bool.not_eq_true] at begins
          split
          · next a t ht read => exact (onward _ (.parsed inside begins read)).widen _
          · next e inner failed => exact (onward _ (.skipped inside begins failed)).widen _

/-- Reading the members of a body is a run of turns up to the end of the body. -/
theorem members_run {n : Nat} (g : σ) (s : State eof) (hs : s.size ≤ n) :
    (members .recovery ctx place n (fun g lead t _ => rule g lead t) g s hs).Gives fun g' u =>
      Relation.ReflTransGen (Turn ctx place rule) (g, s) (g', u) ∧ ctx.Ends u.toCursor :=
  members_run_of_lt (s.size + 1) g s hs (Nat.lt_succ_self _)

/-- What every turn keeps, while at most `n` pieces are left, a run of turns keeps. -/
theorem turns_invariant {n : Nat} (inv : σ → State eof → Prop)
    (turn : ∀ g s g' t, s.size ≤ n → Turn ctx place rule (g, s) (g', t) → inv g s → inv g' t)
    {x y : σ × State eof} (turns : Relation.ReflTransGen (Turn ctx place rule) x y)
    (hx : x.2.size ≤ n) (start : inv x.1 x.2) : y.2.size ≤ n ∧ inv y.1 y.2 := by
  induction turns with
  | refl => exact ⟨hx, start⟩
  | tail _ last ih =>
    have hlt := last.size_lt
    exact ⟨by omega, turn _ _ _ _ ih.1 last ih.2⟩

/-- What every turn keeps holds at the end of the body. -/
theorem members_invariant {n : Nat} (inv : σ → State eof → Prop)
    (turn : ∀ g s g' t, s.size ≤ n → Turn ctx place rule (g, s) (g', t) → inv g s → inv g' t)
    {g : σ} {s : State eof} (hs : s.size ≤ n) (start : inv g s) :
    (members .recovery ctx place n (fun g lead t _ => rule g lead t) g s hs).Gives fun g' u =>
      inv g' u ∧ ctx.Ends u.toCursor :=
  (members_run g s hs).mono fun _ _ h => ⟨(turns_invariant inv turn h.1 hs start).2, h.2⟩

end Loop

end QuerySuite.Grammar
