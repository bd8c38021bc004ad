import QuerySuite.Grammar.Member
import QuerySuite.Proofs.MemberLoop
import QuerySuite.Proofs.PhraseShapes

/-!
# Bodies in documents of the same shape

Members are read and skipped in step where two documents look the same: a failed member is skipped
up to the same token, and its region has the same shape in both. Whether a body was cut off by the
end of the document, and whether that is noted already, is asked of places; the answer is in the
shape, since a region reaches to the end exactly if reading was not resumed after it.

Results:

* `region_alike`, `resume_alike`: a skipped member, and where reading goes on.
* `members_alike`: the members of a body, from one member.
* `closeBody_alike`: the end of a body.
* `wholeBody_alike`: a whole body.
-/

namespace QuerySuite

/-! ## Regions and records -/

/-- The end of the document lies in the region exactly if reading was not resumed after it. -/
def Region.OpenAt (eof : Token) (r : Region) : Prop := r.holds eof.start = r.resumed.isNone

namespace Grammar

variable {eof eof' : Token} {α β γ σ : Type}

/-- The regions have the same shape. -/
structure RegionAlike (eof eof' : Token) (r r' : Region) : Prop where
  same : r.shape = r'.shape
  left : r.OpenAt eof
  right : r'.OpenAt eof'

theorem RegionAlike.lead_eq {r r' : Region} (h : RegionAlike eof eof' r r') :
    r.lead = r'.lead := by
  have hskipped := (Region.mk.inj h.same).2.2
  have hhead := congrArg List.head? hskipped
  rw [List.head?_map, List.head?_map] at hhead
  unfold Region.lead
  cases ht : r.significant.head? with
  | none =>
    rw [ht, Option.map_none] at hhead
    rw [Option.map_eq_none_iff.1 hhead.symm]
  | some t =>
    rw [ht, Option.map_some] at hhead
    obtain ⟨t', ht', hsame⟩ := Option.map_eq_some_iff.1 hhead.symm
    rw [ht']
    have hlead (u : Token) : Lead.ofToken u.unplaced = Lead.ofToken u := rfl
    dsimp only
    rw [← hlead t, ← hlead t', hsame]

/-- The records have the same shape. -/
structure RecoveryAlike (eof eof' : Token) (r r' : Recovery) : Prop where
  same : r.shape = r'.shape
  left : ∀ region ∈ r.regions, region.OpenAt eof
  right : ∀ region ∈ r'.regions, region.OpenAt eof'

namespace RecoveryAlike

variable {r r' : Recovery}

theorem clean : RecoveryAlike eof eof' .clean .clean := ⟨rfl, by simp, by simp⟩

theorem absorb (h : RecoveryAlike eof eof' r r') {g g' : Region} (hg : RegionAlike eof eof' g g') :
    RecoveryAlike eof eof' (r.absorb (.ofRegion g)) (r'.absorb (.ofRegion g')) := by
  refine ⟨?_, ?_, ?_⟩
  · rw [Recovery.shape_absorb, Recovery.shape_absorb, h.same, Recovery.shape_ofRegion,
      Recovery.shape_ofRegion, hg.same]
  · rw [Recovery.regions_absorb]
    exact List.forall_mem_append.2 ⟨h.left, List.forall_mem_singleton.2 hg.left⟩
  · rw [Recovery.regions_absorb]
    exact List.forall_mem_append.2 ⟨h.right, List.forall_mem_singleton.2 hg.right⟩

/-- Whether a record reaches to the end of the document can be told from its shape. -/
theorem contains_iff {eof : Token} {r : Recovery} (h : ∀ region ∈ r.regions, region.OpenAt eof) :
    r.contains eof.start = true ↔ none ∈ r.shape.regions.map (·.resumed) := by
  rw [Recovery.contains_iff, Recovery.regions_shape, List.map_map, List.mem_map]
  refine exists_congr fun region => and_congr_right fun hregion => ?_
  rw [h region hregion, Option.isNone_iff_eq_none]
  exact Option.map_eq_none_iff.symm

theorem contains_eq (h : RecoveryAlike eof eof' r r') :
    r.contains eof.start = r'.contains eof'.start := by
  rw [Bool.eq_iff_iff, contains_iff h.left, contains_iff h.right, h.same]

end RecoveryAlike

/-! ## Skipped members -/

/-- A token does not change the depth of braces, or whether reading can go on, by its place. -/
theorem skip_alike {rest rest' : List Piece} (h : Alike eof eof' rest rest') (ctx : Context)
    (depth : Nat) :
    ((skip ctx depth rest).1.map (·.token)).map (·.unplaced) =
        ((skip ctx depth rest').1.map (·.token)).map (·.unplaced) ∧
      Alike eof eof' (skip ctx depth rest).2 (skip ctx depth rest').2 := by
  induction h generalizing depth with
  | nil ends => exact ⟨rfl, .nil ends⟩
  | @cons p p' rest rest' same placed placed' follows follows' h ih =>
    have hall : Alike eof eof' (p :: rest) (p' :: rest') :=
      .cons same placed placed' follows follows' h
    have hresumes : ctx.resumesAt p = ctx.resumesAt p' := by
      unfold Context.resumesAt
      rw [hall.opensLine_eq, hall.token.congr (f := ctx.closes) fun _ => rfl,
        hall.token.congr (f := ctx.canStart) fun _ => by cases ctx <;> rfl]
    have hdepth : depthAfter depth p.token = depthAfter depth p'.token :=
      hall.token.congr fun _ => rfl
    rw [skip, skip, hresumes, hdepth]
    split_ifs
    · exact ⟨rfl, hall⟩
    · obtain ⟨hskipped, hleft⟩ := ih (depthAfter depth p'.token)
      refine ⟨?_, hleft⟩
      simp only [List.map_cons]
      rw [hskipped, hall.token.same]

theorem openAt_regionOf {p : Piece} (hp : p.Placed eof) (skipped : List Piece) {left : List Piece}
    (hleft : ∀ q ∈ left.head?, q.Placed eof) : (regionOf p skipped left).OpenAt eof := by
  have hstart : eof.start.isBefore p.token.start = false :=
    (Position.atOrBefore_iff _ _).1 hp.start_le
  unfold Region.OpenAt Region.holds regionOf
  cases left with
  | nil => simp [hstart]
  | cons q left =>
    have hq : eof.start.isBefore q.token.start = false :=
      (Position.atOrBefore_iff _ _).1 (hleft q rfl).start_le
    simp [hq]

theorem Alike.placed_head {rest rest' : List Piece} (h : Alike eof eof' rest rest') :
    (∀ q ∈ rest.head?, q.Placed eof) ∧ ∀ q ∈ rest'.head?, q.Placed eof' := by
  cases h with
  | nil => exact ⟨by simp, by simp⟩
  | cons _ placed placed' => exact ⟨by simpa using placed, by simpa using placed'⟩

theorem shape_regionOf {p : Piece} {skipped : List Piece} (left : List Piece)
    (hwf : ∀ q ∈ p :: skipped, q.WellFormed) :
    (regionOf p skipped left).shape = ⟨.zero, left.head?.map fun _ => .zero,
      ((p :: skipped).map (·.token)).map (·.unplaced)⟩ := by
  unfold Region.shape Region.significant regionOf
  rw [significant_pieces hwf, Option.map_map]
  rfl

theorem wellFormed_skippedAfter (ctx : Context) {p : Piece} {rest : List Piece}
    (hwf : ∀ q ∈ p :: rest, q.WellFormed) :
    ∀ q ∈ p :: skippedAfter ctx p rest, q.WellFormed := by
  rw [← skippedAfter_append ctx p rest, ← List.cons_append] at hwf
  exact fun q hq => hwf q (List.mem_append_left _ hq)

section Resume

variable {p p' : Piece} {rest rest' : List Piece} (h : Alike eof eof' (p :: rest) (p' :: rest'))
  (ctx : Context)
include h

theorem skippedAfter_alike :
    ((skippedAfter ctx p rest).map (·.token)).map (·.unplaced) =
        ((skippedAfter ctx p' rest').map (·.token)).map (·.unplaced) ∧
      Alike eof eof' (leftAfter ctx p rest) (leftAfter ctx p' rest') := by
  have hdepth : depthAfter 0 p.token = depthAfter 0 p'.token := h.token.congr fun _ => rfl
  unfold skippedAfter leftAfter
  rw [← hdepth]
  exact skip_alike h.tail ctx _

/-- The region of a skipped member has the same shape. -/
theorem region_alike :
    RegionAlike eof eof' (resume eof ctx p rest).1 (resume eof' ctx p' rest').1 := by
  obtain ⟨hskipped, hleft⟩ := skippedAfter_alike h ctx
  obtain ⟨hplaced, hplaced'⟩ := h.placed_head
  obtain ⟨hwf, hwf'⟩ := h.wellFormed
  rw [resume_fst, resume_fst]
  refine ⟨?_, openAt_regionOf (hplaced p rfl) _ hleft.placed_head.1,
    openAt_regionOf (hplaced' p' rfl) _ hleft.placed_head.2⟩
  have hresumed : (leftAfter ctx p rest).head?.map (fun _ => Position.zero) =
      (leftAfter ctx p' rest').head?.map fun _ => Position.zero := by
    generalize leftAfter ctx p rest = left at hleft ⊢
    generalize leftAfter ctx p' rest' = left' at hleft ⊢
    cases hleft <;> rfl
  rw [shape_regionOf _ (wellFormed_skippedAfter ctx hwf),
    shape_regionOf _ (wellFormed_skippedAfter ctx hwf'), hresumed, List.map_cons, List.map_cons,
    List.map_cons, List.map_cons, hskipped, h.token.same]

/-- Reading goes on at the same token. -/
theorem resume_alike : (resume eof ctx p rest).2.Alike (resume eof' ctx p' rest').2 :=
  (skippedAfter_alike h ctx).2

end Resume

/-! ## Bodies -/

/-- What came of two members is alike. -/
inductive MemberAlike (eof eof' : Token) (S : α → β → Prop) : Member α → Member β → Prop where
  | parsed {a : α} {a' : β} (h : S a a') : MemberAlike eof eof' S (.parsed a) (.parsed a')
  | skipped {r r' : Region} (h : RegionAlike eof eof' r r') :
      MemberAlike eof eof' S (.skipped r) (.skipped r')

section Body

variable {ctx : Context} {place : σ → Member α → σ} {rule : σ → Token → Clause eof α}
  {rule' : σ → Token → Clause eof' α} {R : σ → σ → Prop} {S : α → α → Prop}

/-- The contract of a member rule in two documents: what is gathered stays alike, and the members
that are read are. -/
structure RulesAlike (place : σ → Member α → σ) (rule : σ → Token → Clause eof α)
    (rule' : σ → Token → Clause eof' α) (R : σ → σ → Prop) (S : α → α → Prop) (n : Nat) : Prop where
  place : ∀ g g' m m', R g g' → MemberAlike eof eof' S m m' → R (place g m) (place g' m')
  rule : ∀ g g' p p' rest rest' met met', R g g' → rest.length < n →
    Alike eof eof' (p :: rest) (p' :: rest') → List.Forall₂ (ErrorAlike eof eof') met met' →
      (rule g p.token ⟨.after p rest, met⟩).Alike S (rule' g' p'.token ⟨.after p' rest', met'⟩)

/-- The errors that a failed member noted are forgotten, its own is noted. -/
theorem forget_alike {e e' : ParseError} {met met' inner inner' : List ParseError}
    (hmet : List.Forall₂ (ErrorAlike eof eof') met met')
    (hinner : List.Forall₂ (ErrorAlike eof eof') inner inner') (he : ErrorAlike eof eof' e e') :
    List.Forall₂ (ErrorAlike eof eof') (inner.take met.length ++ [e])
      (inner'.take met'.length ++ [e']) := by
  rw [hmet.length_eq]
  exact List.rel_append (List.forall₂_take _ hinner) (.cons he .nil)

theorem members_alike_of_lt {mode : Mode} {n n' : Nat}
    (h : RulesAlike place rule rule' R S n) :
    ∀ (m : Nat) (g g' : σ) (s : State eof) (s' : State eof') (hs : s.size ≤ n) (hs' : s'.size ≤ n'),
      s.size < m → R g g' → s.Alike s' →
      (members mode ctx place n (fun g lead t _ => rule g lead t) g s hs).Alike R
        (members mode ctx place n' (fun g lead t _ => rule' g lead t) g' s' hs') := by
  intro m
  induction m with
  | zero => intro g g' s s' hs hs' hm; omega
  | succ m ih =>
    rintro g g' ⟨⟨_ | ⟨p, rest⟩, stop⟩, met⟩ ⟨⟨_ | ⟨p', rest'⟩, stop'⟩, met'⟩ hs hs' hm hg hss
    · rw [members_nil, members_nil]
      exact .here hg hss
    · cases hss.cursor
    · cases hss.cursor
    · have hall : Alike eof eof' (p :: rest) (p' :: rest') := hss.cursor
      have hrest : rest.length < m := Nat.lt_of_succ_lt_succ hm
      rw [members, members]
      dsimp only
      rw [hall.token.congr (f := ctx.closes) fun _ => rfl,
        hall.token.congr (f := ctx.separates) fun _ => rfl]
      split_ifs
      · exact .here hg hss
      · exact Outcome.Alike.widen (ih g g' ⟨.after p rest, met⟩ ⟨.after p' rest', met'⟩ _ _ hrest hg
          ⟨hall.tail, hss.met⟩) _ _
      · have hrule := h.rule g g' p p' rest rest' met met' hg hs hall hss.met
        generalize rule g p.token ⟨.after p rest, met⟩ = x at hrule
        generalize rule' g' p'.token ⟨.after p' rest', met'⟩ = x' at hrule
        cases x with
        | ok a t ht =>
          cases x' with
          | fail e' inner' => exact hrule.elim
          | ok a' t' ht' =>
            refine Outcome.Alike.widen (ih _ _ t t' _ _ ?_ ?_ hrule.2) _ _
            · exact Nat.lt_of_le_of_lt ht hrest
            · exact h.place _ _ _ _ hg (.parsed hrule.1)
        | fail e inner =>
          cases x' with
          | ok a' t' ht' => exact hrule.elim
          | fail e' inner' =>
            cases mode with
            | strict => exact hrule
            | recovery =>
              refine Outcome.Alike.widen (ih _ _
                ⟨(resume eof ctx p rest).2, inner.take met.length ++ [e]⟩
                ⟨(resume eof' ctx p' rest').2, inner'.take met'.length ++ [e']⟩
                _ _ ?_ ?_ ⟨?_, ?_⟩) _ _
              · exact Nat.lt_of_le_of_lt (size_resume_le eof ctx p rest) hrest
              · exact h.place _ _ _ _ hg (.skipped (region_alike hall ctx))
              · exact resume_alike hall ctx
              · exact forget_alike hss.met hrule.2 hrule.1

/-- The members of a body are read and skipped in step. -/
theorem members_alike {mode : Mode} {n n' : Nat} (h : RulesAlike place rule rule' R S n)
    {g g' : σ} {s : State eof} {s' : State eof'} (hs : s.size ≤ n) (hs' : s'.size ≤ n')
    (hg : R g g') (hss : s.Alike s') :
    (members mode ctx place n (fun g lead t _ => rule g lead t) g s hs).Alike R
      (members mode ctx place n' (fun g lead t _ => rule' g lead t) g' s' hs') :=
  members_alike_of_lt h (s.size + 1) g g' s s' hs hs' (Nat.lt_succ_self _) hg hss

/-- An error is noted at the end of both documents or of none. -/
theorem any_atEnd_eq {met met' : List ParseError}
    (h : List.Forall₂ (ErrorAlike eof eof') met met') :
    met.any (·.span == eof.span) = met'.any (·.span == eof'.span) := by
  induction h with
  | nil => rfl
  | @cons e e' met met' he _ ih =>
    have hspan : (e.span == eof.span) = (e'.span == eof'.span) := by
      rw [Bool.eq_iff_iff, beq_iff_eq, beq_iff_eq]
      exact he.atEnd
    rw [List.any_cons, List.any_cons, hspan, ih]

theorem endMark_alike : RegionAlike eof eof' ⟨eof.start, none, []⟩ ⟨eof'.start, none, []⟩ := by
  have hopen (t : Token) : Region.OpenAt t ⟨t.start, none, []⟩ := by
    have hstart : t.start.isBefore t.start = false :=
      (Position.atOrBefore_iff _ _).1 (.refl _)
    simp [Region.OpenAt, Region.holds, hstart]
  exact ⟨rfl, hopen eof, hopen eof'⟩

/-- A body is closed, or cut off, in both documents. -/
theorem closeBody_alike {mode : Mode} {recovery recovery' : Recovery}
    (h : RecoveryAlike eof eof' recovery recovery') {s : State eof} {s' : State eof'}
    (hss : s.Alike s') :
    (closeBody mode recovery s).Alike (RecoveryAlike eof eof') (closeBody mode recovery' s') := by
  rcases s with ⟨⟨_ | ⟨p, rest⟩, stop⟩, met⟩ <;> rcases s' with ⟨⟨_ | ⟨p', rest'⟩, stop'⟩, met'⟩
  · have hends : TokenAlike eof eof' eof eof' := hss.cursor.token
    have herror := hends.unexpected "'\x7d'"
    cases mode with
    | strict => exact ⟨herror, hss.met⟩
    | recovery =>
      unfold closeBody
      dsimp only
      refine ⟨?_, hss.cursor, ?_⟩
      · rw [h.contains_eq]
        split_ifs
        · exact h
        · exact h.absorb endMark_alike
      · have hspan (t : Token) : (ParseError.unexpected "'\x7d'" t).span = t.span :=
          RaisedAt.span_eq (.inl ⟨_, rfl⟩)
        rw [hspan, hspan, any_atEnd_eq hss.met]
        split_ifs
        · exact hss.met
        · exact List.rel_append hss.met (.cons herror .nil)
  · cases hss.cursor
  · cases hss.cursor
  · have hall : Alike eof eof' (p :: rest) (p' :: rest') := hss.cursor
    unfold closeBody
    dsimp only
    rw [hall.token.kind_eq]
    split_ifs
    · exact ⟨h, hall.tail, hss.met⟩
    · exact ⟨hall.token.unexpected _, hss.met⟩

/-- A whole body: its members, and how it ends. -/
theorem wholeBody_alike {T : β → β → Prop} {mode : Mode} (place : σ → Member α → σ)
    (rule : σ → Token → Clause eof α) (rule' : σ → Token → Clause eof' α) (R : σ → σ → Prop)
    (S : α → α → Prop) (record : σ → Recovery) (f : σ → Recovery → State eof → β)
    (f' : σ → Recovery → State eof' → β) {s : State eof} {s' : State eof'}
    (h : RulesAlike place rule rule' R S s.size)
    (hrecord : ∀ g g', R g g' → RecoveryAlike eof eof' (record g) (record g'))
    (hf : ∀ g g' recovery recovery' t t', R g g' → RecoveryAlike eof eof' recovery recovery' →
      T (f g recovery t) (f' g' recovery' t')) {g g' : σ} (hg : R g g') (hss : s.Alike s') :
    ((members mode ctx place s.size (fun g lead t _ => rule g lead t) g s s.le_refl).andThen
      fun g u _ => (closeBody mode (record g) u).andThen
        fun recovery v _ => .ok (f g recovery v) v v.le_refl).Alike T
    ((members mode ctx place s'.size (fun g lead t _ => rule' g lead t) g' s' s'.le_refl).andThen
      fun g u _ => (closeBody mode (record g) u).andThen
        fun recovery v _ => .ok (f' g recovery v) v v.le_refl) := by
  refine (members_alike h s.le_refl s'.le_refl hg hss).andThen fun x x' u u' _ _ hx hu => ?_
  refine (closeBody_alike (hrecord x x' hx) hu).andThen_ok fun recovery recovery' t t' hr => ?_
  exact hf x x' recovery recovery' t t' hx hr

end Body

end Grammar

end QuerySuite
