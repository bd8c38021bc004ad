import QuerySuite.Suite.Edit
import QuerySuite.Token

/-!
# Attaching comments

Every comment of a document goes to the node it speaks of: a comment on the line where a node ends,
after that node, trails it; any other leads the closest node that starts after it. A comment with no
node after it is dropped, and the suite itself is never spoken of.

The notes are gathered by the place of the node. Of several nodes with one place the first in
the order of the walk takes them.
-/

namespace QuerySuite

/-- The comments gathered for places, in the order in which the places came up. -/
abbrev CommentMap : Type := List (Span × Comments)

namespace CommentMap

/-- Changes the comments gathered for a place. -/
def update (place : Span) (f : Comments → Comments) : CommentMap → CommentMap
  | [] => [(place, f {})]
  | (p, c) :: map => if p = place then (p, f c) :: map else (p, c) :: update place f map

/-- Takes the comments gathered for a place out of the map. -/
def take (place : Span) : CommentMap → Option Comments × CommentMap
  | [] => (none, [])
  | (p, c) :: map =>
    if p = place then (some c, map)
    else
      let (found, map) := take place map
      (found, (p, c) :: map)

end CommentMap

/-- The place a comment trails: the first one that ends on its line, before it. -/
def trailingTarget (places : List Span) (comment : Trivia) : Option Span :=
  let start := comment.span.start
  places.find? fun p => p.stop.line == start.line && p.stop.offset ≤ start.offset

/-- The closer of two places that a comment may lead, the earlier one of two that start together. -/
def closer (comment : Trivia) (best : Option Span) (p : Span) : Option Span :=
  if p.start.offset < comment.span.stop.offset then best
  else
    match best with
    | some b => if b.start.offset ≤ p.start.offset then some b else some p
    | none => some p

/-- The place a comment leads: the closest one that starts after it, the first of several. -/
def leadingTarget (places : List Span) (comment : Trivia) : Option Span :=
  places.foldl (closer comment) none

/-- Adds one comment to the notes. -/
def noteComment (places : List Span) (map : CommentMap) (comment : Trivia) : CommentMap :=
  match trailingTarget places comment with
  | some p => map.update p fun c => { c with trailing := some comment.body }
  | none =>
    match leadingTarget places comment with
    | some p => map.update p fun c => { c with leading := c.leading ++ [comment.body] }
    | none => map

/-- The notes for all comments, given the places of the nodes in the order of the walk. -/
def commentMap (places : List Span) (trivia : List Trivia) : CommentMap :=
  (trivia.filter (·.isComment)).foldl (noteComment places) []

/-- Gives a node the comments gathered for its place, and takes them out of the notes. The suite
itself gets none. -/
def takeComments (n : Node) : StateM CommentMap Comments := fun map =>
  if n.kind = .suite then (n.info.comments, map)
  else
    match map.take n.info.span with
    | (some c, map) => (n.info.comments.extend c, map)
    | (none, map) => (n.info.comments, map)

/-- Attaches the comments among the trivia of a document to the nodes of its suite. All comments are
noted before any is handed out, so that a node gets what is noted for its place at once. -/
def Suite.attachComments (s : Suite) (trivia : List Trivia) : Suite :=
  let places := s.children.map (·.info.span)
  (s.edit takeComments (commentMap places trivia)).1

theorem closer_eq (comment : Trivia) (best : Option Span) (p : Span) :
    closer comment best p = best ∨ closer comment best p = some p := by
  unfold closer
  split
  · exact .inl rfl
  · split
    · split
      · exact .inl rfl
      · exact .inr rfl
    · exact .inr rfl

end QuerySuite
