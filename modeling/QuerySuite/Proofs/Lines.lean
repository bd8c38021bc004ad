import QuerySuite.Proofs.LongestMatch

/-!
# The lines of a document

Only white space and query bodies reach over the end of a line; all other tokens end on the line
where they start. A comment reaches up to the end of its line, so what follows it is a newline or
the end of the document, and no two comments stand on one line.

Results:

* `Pattern.not_mem_of_avoids`: a regular expression that does not mention a character matches no
  text with it.
* `Token.stop_line_eq`: a token that is neither white space nor a query body stays on its line.
* `Token.comments_on_lines`: each comment stands on a later line than the comments before it.
-/

namespace QuerySuite

/-! ## Regular expressions without a character -/

namespace Pattern

/-- The regular expression has no place for the character. -/
def avoids (c : Char) : Pattern → Bool
  | text word => !word.toList.contains c
  | oneOf p => !p c
  | seq a b => a.avoids c && b.avoids c
  | either a b => a.avoids c && b.avoids c
  | many a => a.avoids c

theorem not_mem_of_avoids {a : Pattern} {c : Char} {w : List Char} (h : a.avoids c = true)
    (hw : w ∈ a.language) : c ∉ w := by
  induction a generalizing w with
  | text word =>
    obtain rfl := mem_text_iff.1 hw
    simpa [avoids] using h
  | oneOf p =>
    obtain ⟨d, hd, rfl⟩ := mem_oneOf_iff.1 hw
    intro hmem
    obtain rfl := List.mem_singleton.1 hmem
    simp [avoids, hd] at h
  | seq a b iha ihb =>
    rw [avoids, Bool.and_eq_true] at h
    obtain ⟨u, hu, v, hv, rfl⟩ := mem_seq_iff.1 hw
    rw [List.mem_append, not_or]
    exact ⟨iha h.1 hu, ihb h.2 hv⟩
  | either a b iha ihb =>
    rw [avoids, Bool.and_eq_true] at h
    exact (mem_either_iff.1 hw).elim (iha h.1) (ihb h.2)
  | many a ih =>
    obtain ⟨pieces, rfl, hpieces⟩ := Language.mem_kstar.1 hw
    intro hmem
    obtain ⟨piece, hpiece, hc⟩ := List.mem_flatten.1 hmem
    exact ih h (hpieces piece hpiece) hc

end Pattern

namespace Token

/-! ## Tokens on one line -/

/-- Tokens of this kind may reach over the end of a line. -/
def Kind.spansLines : Kind → Bool
  | rawString | unterminatedRaw | whitespace => true
  | _ => false

theorem classes_avoid_newline :
    ∀ x ∈ classes, x.1.spansLines = false → x.2.avoids '\n' = true := by
  unfold classes
  rw [List.forall_mem_append, List.forall_mem_append]
  refine ⟨⟨?_, ?_⟩, ?_⟩
  · simp [keywords, Pattern.avoids]
  · simp [symbols, Pattern.avoids]
  · decide

theorem newline_not_mem_of_admits {k : Kind} {w : List Char} (h : Admits k w)
    (hk : k.spansLines = false) : '\n' ∉ w := by
  obtain ⟨p, hp, hw⟩ := h
  exact Pattern.not_mem_of_avoids (classes_avoid_newline (k, p) hp hk) hw

/-- A token that is neither white space nor a query body stays on its line. -/
theorem stop_line_eq {source : String} {t : Token} (ht : t ∈ scan source)
    (hk : t.kind.spansLines = false) (hknown : t.kind ≠ .error) (hinside : t.kind ≠ .eof) :
    t.stop.line = t.start.line := by
  obtain ⟨before, after, hscan⟩ := List.append_of_mem ht
  obtain ⟨c, rest, -, hkind, htext⟩ := exists_lexeme_of_scanFrom hscan hinside
  have hnone : '\n' ∉ t.text.toList := by
    rw [htext]
    rw [hkind] at hk hknown
    exact newline_not_mem_of_admits (admits_lexeme hknown) hk
  rw [stop, Position.line_advance, List.count_eq_zero_of_not_mem hnone, Nat.add_zero]

/-! ## Comments -/

theorem lexeme_comment {c : Char} {rest : List Char} (h : (lexeme c rest).1 = .comment) :
    (lexeme c rest).2 = runLength (· != '\n') rest := by
  unfold lexeme at h ⊢
  split_ifs at h ⊢
  · unfold wordLexeme at h
    dsimp only at h
    split_ifs at h
  · unfold stringLexeme at h
    split at h <;> cases h
  · unfold rawLexeme at h
    dsimp only at h
    split_ifs at h
  · revert h
    fun_cases symbolLexeme c rest <;> simp

/-- What follows a comment begins with a newline. -/
theorem newline_after_comment {source : String} {before after : List Token} {t u : Token}
    (h : scan source = before ++ t :: u :: after) (ht : t.kind = .comment) (hu : u.kind ≠ .eof) :
    ∃ more, u.text.toList = '\n' :: more ∧ u.kind = .whitespace := by
  have hinside : t.kind ≠ .eof := by rw [ht]; decide
  have hnext : scan source = (before ++ [t]) ++ u :: after := by rw [h, List.append_assoc]; rfl
  obtain ⟨c, rest, hsource, hkind, htext⟩ := exists_lexeme_of_scanFrom h hinside
  obtain ⟨d, more, hsource', hkind', htext'⟩ := exists_lexeme_of_scanFrom hnext hu
  -- What the comment leaves of the text is what the next token begins.
  have hleft : rest.dropWhile (· != '\n') = d :: more := by
    rw [hsource, textsOf_append, List.append_assoc, List.append_cancel_left_eq, textsOf_cons,
      htext] at hsource'
    have hrest : rest = rest.take (lexeme c rest).2 ++ d :: more := by
      simpa [textsOf] using hsource'
    rw [← drop_runLength, ← lexeme_comment (hkind.symm.trans ht)]
    have hcut : rest.take (lexeme c rest).2 ++ rest.drop (lexeme c rest).2 =
        rest.take (lexeme c rest).2 ++ d :: more := by
      rw [List.take_append_drop]
      exact hrest
    exact List.append_cancel_left hcut
  have hd : d = '\n' := by
    have hhead := List.head?_dropWhile_not (· != '\n') rest
    rw [hleft] at hhead
    simpa using hhead
  subst hd
  exact ⟨_, htext', hkind'⟩

theorem Laid.tail {p q : Position} {t : Token} {ts : List Token} (h : Laid p (t :: ts) q) :
    Laid t.stop ts q := by
  cases h with
  | cons _ h => exact h

/-- A comment stands on a later line than a comment before it. -/
theorem line_lt_of_comment {source : String} {before after : List Token} {t u : Token}
    (h : scan source = before ++ t :: after) (ht : t.kind = .comment) (hu : u ∈ after)
    (hkind : u.kind = .comment) : t.start.line < u.start.line := by
  obtain ⟨ts, q, hscan, hlaid, hinside⟩ := scanFrom_laid .start source.toList
  obtain ⟨middle, last, rfl⟩ := (List.eq_nil_or_concat after).resolve_left (List.ne_nil_of_mem hu)
  rw [List.concat_eq_append] at h hu
  have hsplit : ts ++ [endOfFile q] = (before ++ t :: middle) ++ [last] := by
    rw [← hscan, ← scan, h, List.append_assoc, List.cons_append]
  obtain ⟨rfl, hlast⟩ := List.append_inj' hsplit rfl
  obtain rfl := List.singleton_inj.1 hlast
  have hu : u ∈ middle := by
    rcases List.mem_append.1 hu with hu | hu
    · exact hu
    · rw [List.mem_singleton.1 hu] at hkind
      cases hkind
  obtain ⟨next, more, rfl⟩ := List.exists_cons_of_ne_nil (List.ne_nil_of_mem hu)
  obtain ⟨text, hnewline, hspace⟩ :=
    newline_after_comment h ht (hinside next (by simp))
  -- The newline behind the comment stands between the two.
  obtain ⟨m, -, hrow⟩ := hlaid.exists_of_append
  have hstart := hrow.tail.start_eq
  rcases List.mem_cons.1 hu with rfl | hu
  · rw [hspace] at hkind
    cases hkind
  · have hle := (hrow.tail.tail.bounds hu).1
    have htail : t.stop.line = t.start.line + t.text.toList.count '\n' :=
      Position.line_advance _ _
    have hbreak : next.stop.line = next.start.line + (text.count '\n' + 1) := by
      rw [stop, Position.line_advance, hnewline, List.count_cons_self]
    unfold Position.AtOrBefore at hle
    rw [hstart] at hbreak
    omega

theorem pairwise_of_splits {α : Type} {R : α → α → Prop} {l : List α}
    (h : ∀ before a after, l = before ++ a :: after → ∀ b ∈ after, R a b) : l.Pairwise R := by
  induction l with
  | nil => exact .nil
  | cons x l ih =>
    refine .cons (h [] x l rfl) (ih fun before a after heq => h (x :: before) a after ?_)
    rw [heq, List.cons_append]

/-- Each comment stands on a later line than the comments before it. -/
theorem comments_on_lines (source : String) :
    ((scan source).filter (·.kind == .comment)).Pairwise fun t u =>
      t.start.line < u.start.line := by
  rw [List.pairwise_filter]
  refine pairwise_of_splits fun before t after hscan u hu ht hkind => ?_
  exact line_lt_of_comment hscan (beq_iff_eq.1 ht) hu (beq_iff_eq.1 hkind)

end Token

end QuerySuite
