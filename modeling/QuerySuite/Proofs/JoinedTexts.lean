import Mathlib.Tactic.SplitIfs
import QuerySuite.Text

/-!
# Joined texts

Texts are cut at a character, and pieces are joined with one between them: names with slashes to
paths, parts with dots to keys, definitions with line ends to documents. Joining what was cut gives
the text again. Cutting what was joined gives the pieces only if none of them holds the character;
in general each piece is cut.

Results:

* `Text.splitOn_intercalate`: cutting joined pieces cuts each piece.
* `Text.intercalate_eq_intercalate_iff`: which pieces are the same when they are joined.
* `Text.exists_splitOn_append_eq_cons`, `Text.exists_splitOn_append`: what stands before or behind a
  text belongs to its first or last piece.
-/

namespace QuerySuite.Text

variable {sep : Char}

/-! ## Joining -/

/-- A character of joined pieces is the one between them, or stands in a piece. -/
theorem mem_intercalate {pieces : List (List Char)} {c : Char}
    (h : c ∈ [sep].intercalate pieces) : c = sep ∨ ∃ piece ∈ pieces, c ∈ piece := by
  induction pieces with
  | nil => cases h
  | cons piece pieces ih =>
    by_cases hnil : pieces = []
    · rw [hnil, List.intercalate_singleton] at h
      exact .inr ⟨piece, List.mem_cons_self, h⟩
    · rw [intercalate_cons sep piece hnil, List.mem_append, List.mem_cons] at h
      rcases h with h | h | h
      · exact .inr ⟨piece, List.mem_cons_self, h⟩
      · exact .inl h
      · exact (ih h).imp_right fun ⟨other, hother, hc⟩ => ⟨other, List.mem_cons_of_mem _ hother, hc⟩

theorem intercalate_append_cons (sep : Char) {pieces : List (List Char)} (h : pieces ≠ [])
    (piece : List Char) (more : List (List Char)) :
    [sep].intercalate (pieces ++ piece :: more) =
      [sep].intercalate pieces ++ sep :: [sep].intercalate (piece :: more) := by
  induction pieces with
  | nil => exact absurd rfl h
  | cons first pieces ih =>
    by_cases hnil : pieces = []
    · rw [hnil, List.intercalate_singleton, List.singleton_append]
      exact intercalate_cons sep first (List.cons_ne_nil piece more)
    · rw [List.cons_append, intercalate_cons sep first (by simp),
        intercalate_cons sep first hnil, ih hnil, List.append_assoc, List.cons_append]

theorem intercalate_concat_append (sep : Char) (pieces : List (List Char))
    (piece rest : List Char) :
    [sep].intercalate (pieces ++ [piece]) ++ rest =
      [sep].intercalate (pieces ++ [piece ++ rest]) := by
  by_cases hnil : pieces = []
  · rw [hnil, List.nil_append, List.nil_append, List.intercalate_singleton,
      List.intercalate_singleton]
  · rw [intercalate_append_cons sep hnil, intercalate_append_cons sep hnil,
      List.intercalate_singleton, List.intercalate_singleton, List.append_assoc, List.cons_append]

/-- Joined pieces end with the last piece. -/
theorem exists_intercalate_eq_append (sep : Char) {pieces : List (List Char)} {last : List Char}
    (h : pieces.getLast? = some last) : ∃ front, [sep].intercalate pieces = front ++ last := by
  obtain ⟨init, rfl⟩ := List.getLast?_eq_some_iff.1 h
  by_cases hnil : init = []
  · exact ⟨[], by rw [hnil, List.nil_append, List.intercalate_singleton, List.nil_append]⟩
  · refine ⟨[sep].intercalate init ++ [sep], ?_⟩
    rw [intercalate_append_cons sep hnil, List.intercalate_singleton, List.append_assoc,
      List.singleton_append]

/-! ## Cutting -/

/-- No piece holds the character at which the text was cut. -/
theorem not_mem_of_mem_splitOn {text piece : List Char} (h : piece ∈ text.splitOn sep) :
    sep ∉ piece := by
  induction text generalizing piece with
  | nil =>
    rw [List.splitOn_nil] at h
    rw [List.mem_singleton.1 h]
    exact List.not_mem_nil
  | cons c text ih =>
    rw [List.splitOn_cons_eq_if_modifyHead] at h
    split_ifs at h with hc
    · rcases List.mem_cons.1 h with rfl | h
      · exact List.not_mem_nil
      · exact ih h
    · obtain ⟨first, rest, hsplit⟩ := List.exists_cons_of_ne_nil (List.splitOn_ne_nil sep text)
      rw [hsplit] at h ih
      rcases List.mem_cons.1 h with rfl | h
      · rw [List.mem_cons, not_or]
        exact ⟨fun e => hc (beq_iff_eq.2 e.symm), ih List.mem_cons_self⟩
      · exact ih (List.mem_cons_of_mem _ h)

/-- Cutting joined pieces cuts each piece. -/
theorem splitOn_intercalate (sep : Char) {pieces : List (List Char)} (h : pieces ≠ []) :
    ([sep].intercalate pieces).splitOn sep = pieces.flatMap (List.splitOn sep) := by
  induction pieces with
  | nil => exact absurd rfl h
  | cons piece pieces ih =>
    rw [List.flatMap_cons]
    by_cases hmore : pieces = []
    · rw [hmore, List.intercalate_singleton, List.flatMap_nil, List.append_nil]
    · rw [intercalate_cons sep piece hmore, List.splitOn_append_cons_self, ih hmore]

/-- Joined pieces are the same texts exactly if they are the same when each piece is cut. -/
theorem intercalate_eq_intercalate_iff (sep : Char) {pieces pieces' : List (List Char)}
    (h : pieces ≠ []) (h' : pieces' ≠ []) :
    [sep].intercalate pieces = [sep].intercalate pieces' ↔
      pieces.flatMap (List.splitOn sep) = pieces'.flatMap (List.splitOn sep) := by
  rw [← splitOn_intercalate sep h, ← splitOn_intercalate sep h']
  refine ⟨congrArg (List.splitOn sep), fun heq => ?_⟩
  calc [sep].intercalate pieces
      = [sep].intercalate (([sep].intercalate pieces).splitOn sep) :=
        (List.intercalate_splitOn sep).symm
    _ = [sep].intercalate (([sep].intercalate pieces').splitOn sep) := by rw [heq]
    _ = [sep].intercalate pieces' := List.intercalate_splitOn sep

/-- What stands before a text belongs to its first piece. -/
theorem exists_splitOn_append_eq_cons {u : List Char} (hu : sep ∉ u) (text : List Char) :
    ∃ first, (u ++ text).splitOn sep = (u ++ first) :: (text.splitOn sep).tail := by
  induction u with
  | nil =>
    obtain ⟨first, rest, hsplit⟩ := List.exists_cons_of_ne_nil (List.splitOn_ne_nil sep text)
    rw [List.nil_append, hsplit]
    exact ⟨first, rfl⟩
  | cons c u ih =>
    rw [List.mem_cons, not_or] at hu
    obtain ⟨first, hsplit⟩ := ih hu.2
    refine ⟨first, ?_⟩
    rw [List.cons_append, List.splitOn_cons_eq_if_modifyHead, beq_eq_false_iff_ne.2 (Ne.symm hu.1),
      hsplit]
    rfl

/-- What stands behind a text belongs to its last piece. -/
theorem exists_splitOn_append {v : List Char} (hv : sep ∉ v) (text : List Char) :
    ∃ front last, text.splitOn sep = front ++ [last] ∧
      (text ++ v).splitOn sep = front ++ [last ++ v] := by
  induction text with
  | nil => exact ⟨[], [], List.splitOn_nil sep, List.splitOn_eq_singleton hv⟩
  | cons c text ih =>
    obtain ⟨front, last, htext, happend⟩ := ih
    rw [List.cons_append, List.splitOn_cons_eq_if_modifyHead, List.splitOn_cons_eq_if_modifyHead,
      htext, happend]
    split_ifs
    · exact ⟨[] :: front, last, rfl, rfl⟩
    · cases front with
      | nil => exact ⟨[], c :: last, rfl, rfl⟩
      | cons piece front => exact ⟨(c :: piece) :: front, last, rfl, rfl⟩

theorem mem_tail_splitOn_append {v : List Char} (hv : sep ∉ v) {text line : List Char}
    (h : line ∈ ((text ++ v).splitOn sep).tail) :
    ∃ piece ∈ (text.splitOn sep).tail, line = piece ∨ line = piece ++ v := by
  obtain ⟨front, last, htext, happend⟩ := exists_splitOn_append hv text
  rw [happend] at h
  rw [htext]
  cases front with
  | nil => cases h
  | cons first front =>
    rcases List.mem_append.1 h with h | h
    · exact ⟨line, List.mem_append_left _ h, .inl rfl⟩
    · exact ⟨last, List.mem_append_right _ List.mem_cons_self, .inr (List.mem_singleton.1 h)⟩

end QuerySuite.Text
