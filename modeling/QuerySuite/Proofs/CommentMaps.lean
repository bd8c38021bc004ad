import Mathlib.Data.List.Induction
import Mathlib.Logic.Basic
import Mathlib.Tactic.SplitIfs
import QuerySuite.Proofs.Edits
import QuerySuite.Proofs.Targets

/-!
# Notes of comments

Comments are noted by place and handed out in the order of the walk: the first node with a place
takes what is noted for it, and the notes for that place are gone. That node is the one the comments
speak of, since what they ask of a node they ask of its place.

Results:

* `commentsAt_foldl_noteComment`: what is noted for a place.
* `commentsAt_eq_noted`: it is meant for the first node with that place.
* `map_comments_editAll`: what each node takes.
-/

namespace QuerySuite

/-! ## Notes -/

namespace CommentMap

/-- What is noted for a place. -/
def commentsAt (map : CommentMap) (p : Span) : Comments := (map.take p).1.getD {}

/-- The places that something is noted for. -/
def places (map : CommentMap) : List Span := map.map (·.1)

variable {map : CommentMap} {p q : Span} {c : Comments}

theorem take_cons_self : take p ((p, c) :: map) = (some c, map) := by
  rw [take, if_pos rfl]

theorem take_cons_of_ne (h : q ≠ p) :
    take p ((q, c) :: map) = ((take p map).1, (q, c) :: (take p map).2) := by
  rw [take, if_neg h]

theorem commentsAt_cons :
    commentsAt ((q, c) :: map) p = if q = p then c else map.commentsAt p := by
  unfold commentsAt
  split_ifs with h
  · subst h
    rw [take_cons_self]
    rfl
  · rw [take_cons_of_ne h]

theorem commentsAt_update (map : CommentMap) (p q : Span) (g : Comments → Comments) :
    (map.update q g).commentsAt p = if p = q then g (map.commentsAt q) else map.commentsAt p := by
  induction map with
  | nil =>
    rw [update, commentsAt_cons]
    simp only [eq_comm]
    rfl
  | cons entry map ih =>
    rcases entry with ⟨r, c⟩
    rw [update]
    split_ifs with hr hp hp
    · subst hr hp
      rw [commentsAt_cons, commentsAt_cons, if_pos rfl, if_pos rfl]
    · subst hr
      rw [commentsAt_cons, commentsAt_cons, if_neg (Ne.symm hp), if_neg (Ne.symm hp)]
    · subst hp
      rw [commentsAt_cons, commentsAt_cons, if_neg hr, if_neg hr, ih, if_pos rfl]
    · rw [commentsAt_cons, commentsAt_cons, ih, if_neg hp]

theorem mem_places_update {g : Comments → Comments} (h : p ∈ (map.update q g).places) :
    p = q ∨ p ∈ map.places := by
  induction map with
  | nil => exact .inl (List.mem_singleton.1 h)
  | cons entry map ih =>
    rcases entry with ⟨r, c⟩
    rw [update] at h
    split_ifs at h
    · exact .inr h
    · rcases List.mem_cons.1 h with rfl | h
      · exact .inr List.mem_cons_self
      · exact (ih h).imp_right (List.mem_cons_of_mem _)

theorem nodup_update (h : map.places.Nodup) (q : Span) (g : Comments → Comments) :
    (map.update q g).places.Nodup := by
  induction map with
  | nil => exact List.nodup_cons.2 ⟨List.not_mem_nil, List.nodup_nil⟩
  | cons entry map ih =>
    rcases entry with ⟨r, c⟩
    obtain ⟨hr, hmap⟩ := List.nodup_cons.1 h
    rw [update]
    split_ifs with heq
    · exact h
    · refine List.nodup_cons.2 ⟨fun hmem => ?_, ih hmap⟩
      exact (mem_places_update hmem).elim heq hr

theorem places_take_sublist (map : CommentMap) (p : Span) :
    (map.take p).2.places.Sublist map.places := by
  induction map with
  | nil => exact .slnil
  | cons entry map ih =>
    rcases entry with ⟨q, c⟩
    by_cases h : q = p
    · subst h
      rw [take_cons_self]
      exact List.sublist_cons_self _ _
    · rw [take_cons_of_ne h]
      exact ih.cons_cons q

theorem commentsAt_of_not_mem (h : p ∉ map.places) : map.commentsAt p = {} := by
  induction map with
  | nil => rfl
  | cons entry map ih =>
    obtain ⟨hne, hp⟩ := not_or.1 (mt List.mem_cons.2 h)
    rw [commentsAt_cons, if_neg (Ne.symm hne), ih hp]

/-- What was taken is noted no more. -/
theorem commentsAt_take (h : map.places.Nodup) (p q : Span) :
    (map.take p).2.commentsAt q = if q = p then {} else map.commentsAt q := by
  induction map with
  | nil => split_ifs <;> rfl
  | cons entry map ih =>
    rcases entry with ⟨r, c⟩
    obtain ⟨hr, hmap⟩ := List.nodup_cons.1 h
    by_cases hrp : r = p
    · subst hrp
      rw [take_cons_self, commentsAt_cons]
      by_cases hq : q = r
      · subst hq
        rw [if_pos rfl, commentsAt_of_not_mem hr]
      · rw [if_neg hq, if_neg (Ne.symm hq)]
    · rw [take_cons_of_ne hrp, commentsAt_cons, commentsAt_cons, ih hmap]
      split_ifs with hq hq' hq'
      · exact absurd (hq.trans hq') hrp
      · rfl
      · rfl
      · rfl

end CommentMap

/-! ## What is noted -/

section Notes

variable (places : List Span)

theorem openTarget_of_trailing {c : Trivia} {p : Span} (h : trailingTarget places c = some p) :
    openTarget places c = none := by
  rw [openTarget, h]
  rfl

theorem openTarget_of_not_trailing {c : Trivia} (h : trailingTarget places c = none) :
    openTarget places c = leadingTarget places c := by
  rw [openTarget, h]
  rfl

/-- A comment is noted for the place it trails, else for the place it leads, and else nowhere. -/
theorem noteComment_cases (map : CommentMap) (c : Trivia) :
    (∃ p, trailingTarget places c = some p ∧ openTarget places c = none ∧
      noteComment places map c = map.update p fun n => { n with trailing := some c.body }) ∨
    (∃ p, trailingTarget places c = none ∧ openTarget places c = some p ∧
      noteComment places map c =
        map.update p fun n => { n with leading := n.leading ++ [c.body] }) ∨
    (trailingTarget places c = none ∧ openTarget places c = none ∧
      noteComment places map c = map) := by
  unfold noteComment
  cases htrail : trailingTarget places c with
  | some p => exact .inl ⟨p, rfl, openTarget_of_trailing places htrail, rfl⟩
  | none =>
    rw [openTarget_of_not_trailing places htrail]
    cases leadingTarget places c with
    | some p => exact .inr (.inl ⟨p, rfl, rfl, rfl⟩)
    | none => exact .inr (.inr ⟨rfl, rfl, rfl⟩)

/-- No place has two notes. -/
theorem nodup_foldl_noteComment (comments : List Trivia) :
    (CommentMap.places (comments.foldl (noteComment places) [])).Nodup := by
  induction comments using List.reverseRecOn with
  | nil => exact List.nodup_nil
  | append_singleton comments c ih =>
    rw [List.foldl_append, List.foldl_cons, List.foldl_nil]
    rcases noteComment_cases places (comments.foldl (noteComment places) []) c with
      ⟨p, -, -, heq⟩ | ⟨p, -, -, heq⟩ | ⟨-, -, heq⟩
    · rw [heq]
      exact CommentMap.nodup_update ih _ _
    · rw [heq]
      exact CommentMap.nodup_update ih _ _
    · rw [heq]
      exact ih

/-- What is noted for a place: the comments that lead it in their order, and the last that trails
it. -/
theorem commentsAt_foldl_noteComment (comments : List Trivia) (p : Span) :
    CommentMap.commentsAt (comments.foldl (noteComment places) []) p =
      ⟨(comments.filter (openTarget places · = some p)).map Trivia.body,
        ((comments.filter (trailingTarget places · = some p)).map Trivia.body).getLast?⟩ := by
  induction comments using List.reverseRecOn with
  | nil => rfl
  | append_singleton comments c ih =>
    rw [List.foldl_append, List.foldl_cons, List.foldl_nil, List.filter_append,
      List.filter_append, List.map_append, List.map_append]
    rcases noteComment_cases places (comments.foldl (noteComment places) []) c with
      ⟨q, htrail, hopen, heq⟩ | ⟨q, htrail, hopen, heq⟩ | ⟨htrail, hopen, heq⟩
    · rw [heq, CommentMap.commentsAt_update]
      split_ifs with hp
      · subst hp
        simp [htrail, hopen, ih]
      · simp [htrail, hopen, ih, Ne.symm hp]
    · rw [heq, CommentMap.commentsAt_update]
      split_ifs with hp
      · subst hp
        simp [htrail, hopen, ih]
      · simp [htrail, hopen, ih, Ne.symm hp]
    · simp [heq, htrail, hopen, ih]

/-- The comments that the node at the index `i` has in the end. -/
def noted (comments : List Trivia) (i : Nat) : Comments :=
  ⟨(comments.filter (Leads places i ·)).map Trivia.body,
    ((comments.filter (Trails places i ·)).map Trivia.body).getLast?⟩

/-- What is noted for a place is meant for the first node with that place. -/
theorem commentsAt_eq_noted (comments : List Trivia) {i : Nat} {p : Span}
    (hi : places[i]? = some p) :
    (if p ∈ places.take i then {}
      else CommentMap.commentsAt (comments.foldl (noteComment places) []) p) =
      noted places comments i := by
  have hleads (c : Trivia) := (pointsAt_leading places c).iff_eq_some hi
  have htrails (c : Trivia) := (pointsAt_trailing places c).iff_eq_some hi
  split_ifs with hp
  · have hnoLead : comments.filter (Leads places i ·) = [] := by simp [hleads, hp]
    have hnoTrail : comments.filter (Trails places i ·) = [] := by simp [htrails, hp]
    rw [noted, hnoLead, hnoTrail]
    rfl
  · simp [noted, commentsAt_foldl_noteComment, hleads, htrails, hp]

end Notes

/-! ## Handing out -/

/-- What the node at the index `i` takes: what is noted for its place, if no node before it has the
same place. -/
def CommentMap.handed (map : CommentMap) (places : List Span) (i : Nat) : Comments :=
  places[i]?.elim {} fun p => if p ∈ places.take i then {} else map.commentsAt p

theorem takeComments_eq {n : Node} (hkind : n.kind ≠ .suite) (hbare : n.info.comments = {})
    (map : CommentMap) :
    takeComments n map = (map.commentsAt n.info.span, (map.take n.info.span).2) := by
  unfold takeComments CommentMap.commentsAt
  rw [if_neg hkind, hbare]
  rcases map.take n.info.span with ⟨_ | c, map'⟩
  · rfl
  · simp [Comments.extend]

/-- Each of the nodes takes what is noted for its place, the first of those with one place. -/
theorem map_comments_editAll {nodes : List Node} {map : CommentMap} (hmap : map.places.Nodup)
    (hnodes : ∀ n ∈ nodes, n.kind ≠ .suite ∧ n.info.comments = {}) :
    (Node.editAll takeComments nodes map).1.map (·.info.comments) =
      (List.range nodes.length).map (map.handed (nodes.map (·.info.span))) := by
  induction nodes generalizing map with
  | nil => rfl
  | cons n nodes ih =>
    obtain ⟨⟨hkind, hbare⟩, hnodes⟩ := List.forall_mem_cons.1 hnodes
    have hrest := hmap.sublist (map.places_take_sublist n.info.span)
    rw [Node.editAll, takeComments_eq hkind hbare, List.map_cons, ih hrest hnodes,
      List.length_cons, List.range_succ_eq_map, List.map_cons, List.map_map]
    refine congrArg₂ List.cons rfl (List.map_congr_left fun i _ => ?_)
    unfold CommentMap.handed
    dsimp only [Function.comp_apply]
    rw [List.map_cons, List.getElem?_cons_succ, List.take_succ_cons]
    cases (nodes.map (·.info.span))[i]? with
    | none => rfl
    | some p =>
      simp only [Option.elim_some, List.mem_cons, CommentMap.commentsAt_take hmap]
      split_ifs <;> simp_all

end QuerySuite
