import Mathlib.Tactic.SplitIfs
import QuerySuite.Token.Scan

/-!
# Where tokens stand

Positions are ordered by line and column. A text that is not empty ends behind its start, so tokens
that are laid one after another stand in increasing order: no two of them start at the same place,
and which of them a stretch of the document holds can be told from where they start.

Results:

* `Position.isBefore_iff`, `Position.isAfter_iff`: the order as arithmetic on lines and columns.
* `Token.Laid.bounds`: a token stands between the ends of the stretch it is laid in.
* `Token.Laid.nodup`: tokens that are laid one after another differ.
* `Token.scanFrom_laid`: scanning lays tokens one after another, the end token last.
-/

namespace QuerySuite

/-! ## The order of positions -/

namespace Position

theorem compare_eq_lt_iff (p q : Position) :
    p.compare q = .lt ↔ p.line < q.line ∨ p.line = q.line ∧ p.column < q.column := by
  rw [compare, Ordering.then_eq_lt, Nat.compare_eq_lt, Nat.compare_eq_eq, Nat.compare_eq_lt]

theorem compare_eq_gt_iff (p q : Position) :
    p.compare q = .gt ↔ q.line < p.line ∨ p.line = q.line ∧ q.column < p.column := by
  rw [compare, Ordering.then_eq_gt, Nat.compare_eq_gt, Nat.compare_eq_eq, Nat.compare_eq_gt]

theorem isBefore_iff (p q : Position) :
    p.isBefore q = true ↔ p.line < q.line ∨ p.line = q.line ∧ p.column < q.column := by
  rw [isBefore, beq_iff_eq, compare_eq_lt_iff]

theorem isAfter_iff (p q : Position) :
    p.isAfter q = true ↔ q.line < p.line ∨ p.line = q.line ∧ q.column < p.column := by
  rw [isAfter, beq_iff_eq, compare_eq_gt_iff]

/-- `p` stands at the place of `q` or before it. -/
def AtOrBefore (p q : Position) : Prop := p.line < q.line ∨ p.line = q.line ∧ p.column ≤ q.column

theorem atOrBefore_iff (p q : Position) : p.AtOrBefore q ↔ q.isBefore p = false := by
  rw [← Bool.not_eq_true, isBefore_iff, AtOrBefore]
  omega

theorem AtOrBefore.refl (p : Position) : p.AtOrBefore p := .inr ⟨rfl, Nat.le_refl _⟩

theorem AtOrBefore.trans {p q r : Position} (h : p.AtOrBefore q) (h' : q.AtOrBefore r) :
    p.AtOrBefore r := by
  unfold AtOrBefore at *
  omega

theorem AtOrBefore.of_isBefore {p q : Position} (h : p.isBefore q = true) : p.AtOrBefore q := by
  rw [isBefore_iff] at h
  unfold AtOrBefore
  omega

theorem isBefore_of_isBefore_of_atOrBefore {p q r : Position} (h : p.isBefore q = true)
    (h' : q.AtOrBefore r) : p.isBefore r = true := by
  rw [isBefore_iff] at *
  unfold AtOrBefore at h'
  omega

theorem isBefore_next (p : Position) (c : Char) : p.isBefore (p.next c) = true := by
  rw [isBefore_iff, next]
  split_ifs
  · exact .inl (Nat.lt_succ_self _)
  · exact .inr ⟨rfl, Nat.lt_succ_self _⟩

theorem atOrBefore_advance (p : Position) (text : List Char) : p.AtOrBefore (p.advance text) := by
  induction text generalizing p with
  | nil => exact .refl p
  | cons c text ih => exact (AtOrBefore.of_isBefore (p.isBefore_next c)).trans (ih (p.next c))

/-- A text that is not empty ends behind its start. -/
theorem isBefore_advance (p : Position) {text : List Char} (h : text ≠ []) :
    p.isBefore (p.advance text) = true := by
  cases text with
  | nil => exact absurd rfl h
  | cons c text =>
    exact isBefore_of_isBefore_of_atOrBefore (p.isBefore_next c) (atOrBefore_advance _ text)

end Position

theorem Span.encloses_of_atOrBefore {a b : Span} (hstart : a.start.AtOrBefore b.start)
    (hb : b.start.AtOrBefore b.stop) (hstop : b.stop.AtOrBefore a.stop) : a.encloses b = true := by
  have hafter (p : Position) (h : p.AtOrBefore a.stop) : p.isAfter a.stop = false := by
    rw [← Bool.not_eq_true, Position.isAfter_iff]
    unfold Position.AtOrBefore at h
    omega
  have hbefore (p : Position) (h : a.start.AtOrBefore p) : p.isBefore a.start = false :=
    (Position.atOrBefore_iff _ _).1 h
  simp only [encloses, contains, hbefore _ hstart, hbefore _ (hstart.trans hb), hafter _ hstop,
    hafter _ (hb.trans hstop)]
  rfl

namespace Token

/-! ## Tokens in a row -/

/-- The tokens are laid one after another from `p` to `q`, and none is empty. -/
inductive Laid : Position → List Token → Position → Prop where
  | nil (p : Position) : Laid p [] p
  | cons {t : Token} {ts : List Token} {q : Position} (text : t.text.toList ≠ [])
      (h : Laid t.stop ts q) : Laid t.start (t :: ts) q

namespace Laid

variable {p q : Position} {ts us : List Token}

theorem start_eq {t : Token} (h : Laid p (t :: ts) q) : t.start = p := by
  cases h with
  | cons _ _ => rfl

theorem atOrBefore (h : Laid p ts q) : p.AtOrBefore q := by
  induction h with
  | nil p => exact .refl p
  | cons text _ ih =>
    exact (Position.AtOrBefore.of_isBefore (Position.isBefore_advance _ text)).trans ih

/-- A row of tokens splits at any place. -/
theorem exists_of_append (h : Laid p (ts ++ us) q) : ∃ m, Laid p ts m ∧ Laid m us q := by
  induction ts generalizing p with
  | nil => exact ⟨p, .nil p, h⟩
  | cons t ts ih =>
    cases h with
    | cons text h =>
      obtain ⟨m, hts, hus⟩ := ih h
      exact ⟨m, .cons text hts, hus⟩

/-- A token stands between the ends of the row, and is not empty. -/
theorem bounds (h : Laid p ts q) {t : Token} (ht : t ∈ ts) :
    p.AtOrBefore t.start ∧ t.start.isBefore t.stop = true ∧ t.stop.AtOrBefore q := by
  induction h with
  | nil p => simp at ht
  | @cons u ts q text h ih =>
    have hu : u.start.isBefore u.stop = true := Position.isBefore_advance _ text
    rcases List.mem_cons.1 ht with rfl | ht
    · exact ⟨.refl _, hu, h.atOrBefore⟩
    · obtain ⟨h1, h2, h3⟩ := ih ht
      exact ⟨(Position.AtOrBefore.of_isBefore hu).trans h1, h2, h3⟩

/-- A token starts before the end of the row. -/
theorem start_isBefore (h : Laid p ts q) {t : Token} (ht : t ∈ ts) : t.start.isBefore q = true := by
  obtain ⟨-, h2, h3⟩ := h.bounds ht
  exact Position.isBefore_of_isBefore_of_atOrBefore h2 h3

/-- Tokens that are laid one after another differ. -/
theorem nodup (h : Laid p ts q) : ts.Nodup := by
  induction h with
  | nil p => exact List.nodup_nil
  | @cons u ts q text h ih =>
    refine List.nodup_cons.2 ⟨fun hu => ?_, ih⟩
    -- The first token would start where it ends.
    have hle := (h.bounds hu).1
    have hlt : u.start.isBefore u.stop = true := Position.isBefore_advance _ text
    rw [Position.atOrBefore_iff, hlt] at hle
    cases hle

end Laid

/-! ## Scanned documents -/

theorem symbolLexeme_ne (c : Char) (rest : List Char) :
    (symbolLexeme c rest).1 ≠ .eof ∧ (symbolLexeme c rest).1 ≠ .unterminatedRaw := by
  unfold symbolLexeme
  split <;> try split_ifs
  all_goals simp

theorem lexeme_ne_eof (c : Char) (rest : List Char) : (lexeme c rest).1 ≠ .eof := by
  unfold lexeme
  split_ifs
  · simp
  · unfold wordLexeme
    dsimp only
    split_ifs <;> simp
  · simp
  · simp
  · unfold stringLexeme
    split <;> simp
  · unfold rawLexeme
    dsimp only
    split_ifs <;> simp
  · exact (symbolLexeme_ne c rest).1

/-- Scanning lays tokens one after another, and the end of the document behind the last one. -/
theorem scanFrom_laid (p : Position) (text : List Char) :
    ∃ ts q, scanFrom p text = ts ++ [endOfFile q] ∧ Laid p ts q ∧ ∀ t ∈ ts, t.kind ≠ .eof := by
  fun_induction scanFrom p text with
  | case1 p => exact ⟨[], p, rfl, .nil p, by simp⟩
  | case2 p c rest t ih =>
    obtain ⟨ts, q, hscan, hlaid, hkind⟩ := ih
    refine ⟨t :: ts, q, by rw [hscan, List.cons_append], ?_, ?_⟩
    · have htext : t.text.toList ≠ [] := by simp [t, first]
      exact .cons htext hlaid
    · intro u hu
      rcases List.mem_cons.1 hu with rfl | hu
      · exact lexeme_ne_eof c rest
      · exact hkind u hu

end Token

end QuerySuite
