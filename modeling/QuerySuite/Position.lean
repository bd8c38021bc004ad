/-!
# Positions and spans

A position is a place in a document: its line and column as an editor counts them, and its offset
in UTF-8 bytes. A span is a stretch between two positions.

Order is by line and column only, so that a cursor that carries no offset can be compared with
positions of the document. Moving over a text is `Position.advance`; every position the scanner
produces is `Position.start` advanced over a piece of the document.

Results:

* `Position.advance_nil`, `Position.advance_append`: moving over a text piece by piece.
-/

namespace QuerySuite

/-- A place in a document: line and column count from one, the offset counts bytes from zero. -/
structure Position where
  line : Nat
  column : Nat
  offset : Nat
  deriving DecidableEq

namespace Position

/-- The place before any document: all three numbers are zero. -/
def zero : Position := ⟨0, 0, 0⟩

/-- The first place of a document. -/
def start : Position := ⟨1, 1, 0⟩

/-- A place known only by line and column, as an editor cursor is. -/
def ofLineColumn (line column : Nat) : Position := ⟨line, column, 0⟩

/-- Order by line, then by column. The offset takes no part. -/
def compare (p q : Position) : Ordering :=
  (Ord.compare p.line q.line).then (Ord.compare p.column q.column)

/-- `p` stands before `q` by line and column. -/
def isBefore (p q : Position) : Bool := p.compare q == .lt

/-- `p` stands after `q` by line and column. -/
def isAfter (p q : Position) : Bool := p.compare q == .gt

/-- The place after one character: a newline opens the next line, any other character takes a
column, and the offset grows by the character's UTF-8 length. -/
def next (p : Position) (c : Char) : Position :=
  if c = '\n' then ⟨p.line + 1, 1, p.offset + c.utf8Size⟩
  else ⟨p.line, p.column + 1, p.offset + c.utf8Size⟩

/-- The place after a run of characters. -/
def advance (p : Position) (text : List Char) : Position := text.foldl next p

/-- The text `line:column`. -/
def display (p : Position) : String := s!"{p.line}:{p.column}"

@[simp]
theorem advance_nil (p : Position) : p.advance [] = p := rfl

@[simp]
theorem advance_cons (p : Position) (c : Char) (text : List Char) :
    p.advance (c :: text) = (p.next c).advance text := rfl

theorem advance_append (p : Position) (u v : List Char) :
    p.advance (u ++ v) = (p.advance u).advance v := by
  simp [advance]

end Position

/-- A stretch of a document, from its first place to the place just after it. -/
structure Span where
  start : Position
  stop : Position
  deriving DecidableEq

namespace Span

/-- The span that has no place yet. -/
def zero : Span := ⟨.zero, .zero⟩

/-- The empty span at `p`. -/
def point (p : Position) : Span := ⟨p, p⟩

/-- The empty span at the start of a document. -/
def opening : Span := point .start

/-- The least span around both. Where two ends are level, the end of `a` is kept. -/
def merge (a b : Span) : Span where
  start := if b.start.isBefore a.start then b.start else a.start
  stop := if b.stop.isAfter a.stop then b.stop else a.stop

/-- `p` lies in the span, both ends included. -/
def contains (a : Span) (p : Position) : Bool := !p.isBefore a.start && !p.isAfter a.stop

/-- Both ends of `b` lie in `a`. -/
def encloses (a b : Span) : Bool := a.contains b.start && a.contains b.stop

/-- The two ends stand at the same line and column. -/
def isEmpty (a : Span) : Bool := a.start.compare a.stop == .eq

/-- The text `line:column-line:column`. -/
def display (a : Span) : String := a.start.display ++ "-" ++ a.stop.display

end Span

end QuerySuite
