import Mathlib
import QuerySuite.Proofs.Coordinates
import QuerySuite.Proofs.LineScan

/-!
# Texts on later lines

A text is scanned the same way wherever it stands at the front of a line: its tokens keep their
kinds, their texts and their columns, and only their lines and offsets tell what stands before. So
a document can be scanned line by line, as long as no query body is left open. An open body takes
all that follows, the line break included, and then the tokens are others.

Results:

* `Token.scanFrom_shift`: moving a text moves its tokens.
* `Token.stop_of_unterminatedRaw`: an open query body reaches to the end of its text.
* `Token.lines_scan_apart_iff`: two texts with a line break between them are scanned one by one
  exactly if the first leaves no query body open.
-/

namespace QuerySuite

namespace Position

/-- The place so many lines and bytes further on, in the same column. -/
def shift (lines bytes : Nat) (p : Position) : Position :=
  ⟨p.line + lines, p.column, p.offset + bytes⟩

theorem next_shift (lines bytes : Nat) (p : Position) (c : Char) :
    (p.shift lines bytes).next c = (p.next c).shift lines bytes := by
  unfold next shift
  split_ifs
  · exact congrArg₂ (mk · 1 ·) (Nat.add_right_comm _ _ _) (Nat.add_right_comm _ _ _)
  · exact congrArg (mk _ _ ·) (Nat.add_right_comm _ _ _)

/-- Moving over a text from a place further on leads as much further on. -/
theorem advance_shift (lines bytes : Nat) (p : Position) (text : List Char) :
    (p.shift lines bytes).advance text = (p.advance text).shift lines bytes := by
  induction text generalizing p with
  | nil => rfl
  | cons c text ih => rw [advance_cons, advance_cons, next_shift, ih]

/-- Behind a text and a line break, a line begins. -/
theorem start_advance_line (text : String) :
    start.advance (text.toList ++ ['\n']) =
      start.shift (text.toList.count '\n' + 1) (text.utf8ByteSize + 1) := by
  have hline : (start.advance text.toList).line = 1 + text.toList.count '\n' :=
    line_advance start text.toList
  have hoffset : (start.advance text.toList).offset = 0 + text.utf8ByteSize := by
    rw [offset_advance, String.ofList_toList]
    rfl
  have hsize : '\n'.utf8Size = 1 := rfl
  rw [advance_concat, next, if_pos rfl, hline, hoffset, hsize]
  rfl

end Position

namespace Token

/-- The token so many lines and bytes further on. -/
def shift (lines bytes : Nat) (t : Token) : Token :=
  { t with start := t.start.shift lines bytes }

theorem stop_shift (lines bytes : Nat) (t : Token) :
    (t.shift lines bytes).stop = t.stop.shift lines bytes :=
  Position.advance_shift lines bytes t.start t.text.toList

theorem visible_map_shift (lines bytes : Nat) (tokens : List Token) :
    visible (tokens.map (shift lines bytes)) = (visible tokens).map (shift lines bytes) :=
  List.filter_map

/-- Moving a text moves its tokens. -/
theorem scanFrom_shift (lines bytes : Nat) (p : Position) (text : List Char) :
    scanFrom (p.shift lines bytes) text = (scanFrom p text).map (shift lines bytes) := by
  fun_induction scanFrom p text with
  | case1 p => exact scanFrom_nil _
  | case2 p c rest t ih =>
    have hfirst : first (p.shift lines bytes) c rest = t.shift lines bytes := rfl
    rw [scanFrom_cons, hfirst, stop_shift, ih, List.map_cons]

/-- An open query body reaches to the end of its text. -/
theorem stop_of_unterminatedRaw {source : String} {t : Token} (ht : t ∈ scan source)
    (hk : t.kind = .unterminatedRaw) : t.stop = Position.start.advance source.toList := by
  obtain ⟨ts, q, hscan⟩ := eq_concat_of_unterminatedRaw ht hk
  have hlast := getLast?_scanFrom .start source.toList
  rw [hscan, List.getLast?_append_cons, List.getLast?_cons_cons, List.getLast?_singleton,
    Option.some_inj] at hlast
  rw [(start_stop_of_scan hscan).2 _ rfl, hlast]
  rfl

/-- Two texts with a line break between them have the tokens of the first, where they stand, and
those of the second, moved down by the lines and bytes of the first and its line break, in kind,
text and column as if the second stood alone. White space, which grows together at the seam, and
the end of the document are left out. It is so exactly if the first text leaves no query body
open. -/
theorem lines_scan_apart_iff (a b : String) :
    visible (scan (a ++ "\n" ++ b)) = visible (scan a) ++
        (visible (scan b)).map (shift (a.toList.count '\n' + 1) (a.utf8ByteSize + 1)) ↔
      ∀ t ∈ scan a, t.kind ≠ .unterminatedRaw := by
  have htext : (a ++ "\n" ++ b).toList = a.toList ++ '\n' :: b.toList := by
    rw [String.toList_append, String.toList_append, List.append_assoc]
    rfl
  constructor
  · intro hsame t ht hk
    -- The open body would end both with the first text and with the whole.
    have hvisible : t ∈ visible (scan a) := List.mem_filter.2 ⟨ht, by rw [hk]; rfl⟩
    have hmem : t ∈ visible (scan (a ++ "\n" ++ b)) := by
      rw [hsame]
      exact List.mem_append_left _ hvisible
    have hstop := stop_of_unterminatedRaw (List.mem_of_mem_filter hmem) hk
    rw [stop_of_unterminatedRaw ht hk, htext, Position.advance_append] at hstop
    have hbefore := Position.isBefore_advance (Position.start.advance a.toList)
      (List.cons_ne_nil '\n' b.toList)
    rw [← hstop, Position.isBefore_iff] at hbefore
    omega
  · intro hclosed
    rw [scan, htext, visible_append_line _ _ _ fun t ht => hclosed t (List.mem_of_mem_filter ht),
      Position.start_advance_line, scanFrom_shift, visible_map_shift]
    rfl

end Token

end QuerySuite
