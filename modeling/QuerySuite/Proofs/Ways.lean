import Mathlib.Data.List.Pairwise
import Mathlib.Tactic.SplitIfs
import QuerySuite.Proofs.Clauses
import QuerySuite.Proofs.Elements
import QuerySuite.Proofs.Forward
import QuerySuite.Proofs.Streams

/-!
# One way down to what holds a place

Of the elements that record a place as skipped, no two stand beside each other: they all stand on
one way down from the root of the tree. Members of a body are read one after another, and what is
recorded for a member lies between its first token and the token behind it, or reaches to the end
where nothing is left behind it. So at most one member of a body holds a given place; and a body
that the end of the document cuts off records the end only for itself, around the member that was
read last.

`Gathered x pieces lo c own branches` says this of a body that is being read: its own record and the
trees of its members hold `x` only between `lo` and the cursor.

Results:

* `ElementTree.OneWay.pairwise`: the ways to the elements go on from each other.
* `Gathered.add`, `Gathered.absorb`, `Gathered.cut`, `Gathered.node`: the steps of reading a body.
* `kept_gathered`: the turns of the loop over its members.
-/

namespace QuerySuite

/-! ## Ways in trees -/

namespace ElementTree

variable {holds : Element → Bool} {t : ElementTree}

/-- No element of the tree is one of those that are looked for. -/
def Lacks (holds : Element → Bool) (t : ElementTree) : Prop := ∀ e ∈ t.elements, holds e = false

/-- At most one branch has elements that are looked for, and so on down in that branch. -/
inductive OneWay (holds : Element → Bool) : ElementTree → Prop where
  | node {e : Element} {branches : List ElementTree} (each : ∀ b ∈ branches, OneWay holds b)
      (one : branches.Pairwise fun a b => a.Lacks holds ∨ b.Lacks holds) :
      OneWay holds (node e branches)

theorem Lacks.of_node {e : Element} {branches : List ElementTree}
    (h : (node e branches).Lacks holds) : ∀ b ∈ branches, b.Lacks holds := by
  intro b hb e' he'
  refine h e' ?_
  rw [elements_node]
  exact List.mem_cons_of_mem e (List.mem_flatMap.2 ⟨b, hb, he'⟩)

theorem Lacks.pairwise {branches : List ElementTree} (h : ∀ b ∈ branches, b.Lacks holds) :
    branches.Pairwise fun a b => a.Lacks holds ∨ b.Lacks holds :=
  List.pairwise_of_forall_mem_list fun a ha _ _ => .inl (h a ha)

mutual

theorem Lacks.oneWay (t : ElementTree) (h : t.Lacks holds) : OneWay holds t := by
  cases t with
  | node e branches =>
    have hbranches := h.of_node
    exact .node (Lacks.forall_oneWay branches hbranches) (Lacks.pairwise hbranches)

theorem Lacks.forall_oneWay (trees : List ElementTree) (h : ∀ t ∈ trees, t.Lacks holds) :
    ∀ t ∈ trees, OneWay holds t := by
  cases trees with
  | nil => exact List.forall_mem_nil _
  | cons t trees =>
    obtain ⟨ht, htrees⟩ := List.forall_mem_cons.1 h
    exact List.forall_mem_cons.2 ⟨Lacks.oneWay t ht, Lacks.forall_oneWay trees htrees⟩

end

theorem mem_elements_of_mem_places {y : List Nat × Element} (h : y ∈ t.places) :
    y.2 ∈ t.elements := by
  rw [← map_snd_places]
  exact List.mem_map_of_mem h

theorem exists_mem_of_mem_placesFrom {i : Nat} {trees : List ElementTree}
    {y : List Nat × Element} (h : y ∈ placesFrom i trees) : ∃ t ∈ trees, y.2 ∈ t.elements := by
  have hmem : y.2 ∈ elementsOfList trees := by
    rw [← map_snd_placesFrom i]
    exact List.mem_map_of_mem h
  rw [elementsOfList_eq_flatMap] at hmem
  exact List.mem_flatMap.1 hmem

theorem ne_nil_of_mem_placesFrom {i : Nat} {trees : List ElementTree} {y : List Nat × Element}
    (h : y ∈ placesFrom i trees) : y.1 ≠ [] := by
  induction trees generalizing i with
  | nil => simp [placesFrom] at h
  | cons t trees ih =>
    rw [placesFrom] at h
    rcases List.mem_append.1 h with h | h
    · obtain ⟨z, -, rfl⟩ := List.mem_map.1 h
      exact List.cons_ne_nil _ _
    · exact ih h

/-- `y` is on the way to `z`. -/
def Leads (y z : List Nat × Element) : Prop := y.1 <+: z.1 ∧ y.1 ≠ z.1

theorem pairwise_placesFrom {trees : List ElementTree} (i : Nat)
    (each : ∀ t ∈ trees, (t.places.filter fun y => holds y.2).Pairwise Leads)
    (one : trees.Pairwise fun a b => a.Lacks holds ∨ b.Lacks holds) :
    ((placesFrom i trees).filter fun y => holds y.2).Pairwise Leads := by
  induction trees generalizing i with
  | nil => simp [placesFrom]
  | cons t trees ih =>
    obtain ⟨ht, htrees⟩ := List.forall_mem_cons.1 each
    obtain ⟨hone, hmore⟩ := List.pairwise_cons.1 one
    rw [placesFrom, List.filter_append, List.pairwise_append]
    refine ⟨?_, ih (i + 1) htrees hmore, ?_⟩
    · rw [List.filter_map, List.pairwise_map]
      refine ht.imp fun {y z} h => ⟨List.cons_prefix_cons.2 ⟨rfl, h.1⟩, fun heq => h.2 ?_⟩
      exact (List.cons.inj heq).2
    · -- The tree and one behind it would both have such elements.
      intro y hy z hz
      obtain ⟨hy, hholds⟩ := List.mem_filter.1 hy
      obtain ⟨hz, hholds'⟩ := List.mem_filter.1 hz
      obtain ⟨y', hy', rfl⟩ := List.mem_map.1 hy
      obtain ⟨u, hu, hz⟩ := exists_mem_of_mem_placesFrom hz
      rcases hone u hu with hlacks | hlacks
      · rw [hlacks _ (mem_elements_of_mem_places hy')] at hholds
        cases hholds
      · rw [hlacks _ hz] at hholds'
        cases hholds'

/-- The elements that are looked for stand on one way: the way to each goes on from the ways to
those before it. -/
theorem OneWay.pairwise (h : OneWay holds t) :
    (t.places.filter fun y => holds y.2).Pairwise Leads := by
  induction h with
  | @node e branches each one ih =>
    have hbelow := pairwise_placesFrom 0 ih one
    rw [places, List.filter_cons]
    split_ifs
    · refine List.pairwise_cons.2 ⟨fun z hz => ⟨List.nil_prefix, ?_⟩, hbelow⟩
      exact (ne_nil_of_mem_placesFrom (List.mem_filter.1 hz).1).symm
    · exact hbelow

end ElementTree

namespace Grammar

variable {eof : Token} {α σ : Type} {pieces : List Piece} {c d : Cursor eof} {x lo : Position}

/-! ## Cursors in a stream -/

/-- The cursor stands in the stream `pieces`, whose tokens are laid up to the end token. -/
structure Cursor.On (pieces : List Piece) (c : Cursor eof) : Prop where
  laid : ∃ m, Token.Laid m (pieces.flatMap Piece.tokens) eof.start
  suffix : c.rest <:+ pieces

namespace Cursor.On

theorem reads (h : c.On pieces) {used : List Piece} (hr : c.Reads used d) : d.On pieces := by
  refine ⟨h.laid, List.IsSuffix.trans ?_ h.suffix⟩
  rw [hr.rest_eq]
  exact List.suffix_append used d.rest

theorem after {p : Piece} {rest : List Piece} {stop : Position}
    (h : (⟨p :: rest, stop⟩ : Cursor eof).On pieces) : (.after p rest : Cursor eof).On pieces :=
  h.reads (.after p rest stop)

/-- No token is left that starts before the one at the cursor, and that starts no later than the
end token. -/
theorem exists_laid (h : c.On pieces) :
    Token.Laid c.token.start (c.rest.flatMap Piece.tokens) eof.start := by
  obtain ⟨m, laid⟩ := h.laid
  obtain ⟨before, hpieces⟩ := h.suffix
  rw [← hpieces, List.flatMap_append] at laid
  obtain ⟨n, -, hrest⟩ := laid.exists_of_append
  rcases c with ⟨_ | ⟨p, rest⟩, stop⟩
  · exact .nil _
  · have hp : Token.Laid n (p.token :: (p.gap ++ rest.flatMap Piece.tokens)) eof.start := hrest
    have hstart : (⟨p :: rest, stop⟩ : Cursor eof).token.start = n := hp.start_eq
    rw [hstart]
    exact hrest

theorem start_le (h : c.On pieces) {used : List Piece} (hr : c.Reads used d) :
    c.token.start.AtOrBefore d.token.start := by
  have laid := h.exists_laid
  rw [hr.rest_eq] at laid
  rcases d with ⟨_ | ⟨q, rest⟩, stop⟩
  · exact laid.atOrBefore
  · refine (laid.bounds (t := q.token) ?_).1
    rw [List.flatMap_append]
    exact List.mem_append_right _ List.mem_cons_self

end Cursor.On

theorem State.Onward.on {s t : State eof} (h : s.Onward t) (hs : s.On pieces) : t.On pieces := by
  obtain ⟨used, hr⟩ := h
  exact hs.reads hr

/-! ## Stretches -/

/-- The place is not before `lo`, and it is before the token at the cursor if one is left. -/
def Within (lo : Position) (c : Cursor eof) (x : Position) : Prop :=
  lo.AtOrBefore x ∧ (c.rest ≠ [] → x.isBefore c.token.start = true)

theorem Within.reads (h : Within lo c x) (hc : c.On pieces) {used : List Piece}
    (hr : c.Reads used d) : Within lo d x := by
  refine ⟨h.1, fun hd => ?_⟩
  have hne : c.rest ≠ [] := by
    rw [hr.rest_eq]
    exact List.append_ne_nil_of_right_ne_nil _ hd
  exact Position.isBefore_of_isBefore_of_atOrBefore (h.2 hne) (hc.start_le hr)

/-- A skipped member holds what lies between its first token and the one where reading goes on. -/
theorem holds_resume_iff (ctx : Context) (p : Piece) (rest : List Piece) :
    (resume eof ctx p rest).1.holds x = true ↔
      Within p.token.start (resume eof ctx p rest).2 x := by
  rw [resume_fst, Region.holds, Bool.and_eq_true, Bool.not_eq_true', ← Position.atOrBefore_iff]
  refine and_congr_right fun _ => ?_
  have hrest : (resume eof ctx p rest).2.rest = leftAfter ctx p rest := resume_snd_rest ctx p rest
  rcases hcursor : (resume eof ctx p rest).2 with ⟨left, stop⟩
  rw [hcursor] at hrest
  obtain rfl : left = leftAfter ctx p rest := hrest
  rw [regionOf]
  cases leftAfter ctx p rest with
  | nil => simp
  | cons q left => simp [Cursor.token]

/-- The record of a body that is cut off holds what it held before, and what lies behind the end. -/
theorem contains_recordUnclosed {own : Recovery}
    (h : (recordUnclosed eof own).contains x = true) :
    own.contains x = true ∨ eof.start.AtOrBefore x := by
  unfold recordUnclosed at h
  split_ifs at h
  · exact .inl h
  · rw [Recovery.contains_iff] at h ⊢
    obtain ⟨r, hr, hx⟩ := h
    rw [Recovery.regions_absorb, Recovery.regions_ofRegion, List.mem_append,
      List.mem_singleton] at hr
    rcases hr with hr | rfl
    · exact .inl ⟨r, hr, hx⟩
    · simp only [Region.holds, endMark, Bool.and_eq_true, Bool.not_eq_true'] at hx
      exact .inr ((Position.atOrBefore_iff _ _).2 hx.1)

/-! ## What a body gathers -/

/-- Nothing is recorded for what is read as a whole or not at all, and the tokens of an expression
are among the pieces. -/
structure Plain (pieces : List Piece) (e : Element) : Prop where
  whole : e.node.kind.isWhole = true → e.recovery = .clean
  tokens : ∀ x, e = .expr x → ∀ t ∈ x.tokens, ∃ p ∈ pieces, p.token.exprToken? = some t

theorem Plain.of_not_isWhole {e : Element} (h : e.node.kind.isWhole = false) :
    Plain pieces e where
  whole hwhole := absurd (h.symm.trans hwhole) Bool.false_ne_true
  tokens y hy := by
    subst hy
    cases h

/-- The record of the element holds the place. -/
def holdsAt (x : Position) (e : Element) : Bool := e.recovery.contains x

/-- A placeholder has no parts. -/
theorem exists_eq_node_of_standsFor {r : Region} {t : ElementTree} (h : StandsFor r t.nodes) :
    ∃ e, t = .node e [] ∧ e.node.kind.isWhole = false ∧ e.recovery = .ofRegion r := by
  rcases t with ⟨e, branches⟩
  rw [ElementTree.nodes_node] at h
  generalize hbranches : branches.flatMap ElementTree.nodes = below at h
  rcases hnode : e.node with ⟨kind, info⟩
  rw [hnode] at h
  cases h with
  | of_kind hkind =>
    refine ⟨e, ?_, by rw [hnode]; exact hkind, by rw [Element.recovery, hnode]; rfl⟩
    rcases branches with _ | ⟨⟨e', more⟩, branches⟩
    · rfl
    · simp at hbranches

/-- A body that is being read: what it records itself and what its members record holds `x` only
between `lo` and the cursor, and of its members at most one does, on one way down. -/
structure Gathered (x : Position) (pieces : List Piece) (lo : Position) (c : Cursor eof)
    (own : Recovery) (branches : List ElementTree) : Prop where
  on : c.On pieces
  behind : lo.AtOrBefore c.token.start
  each : ∀ b ∈ branches, b.OneWay (holdsAt x)
  one : branches.Pairwise fun a b => a.Lacks (holdsAt x) ∨ b.Lacks (holdsAt x)
  within : own.contains x = true ∨ (∃ b ∈ branches, ¬b.Lacks (holdsAt x)) → Within lo c x
  plain : ∀ b ∈ branches, ∀ e ∈ b.elements, Plain pieces e

namespace Gathered

variable {own : Recovery} {branches more : List ElementTree}

theorem empty (h : c.On pieces) (hlo : lo.AtOrBefore c.token.start) :
    Gathered x pieces lo c .clean [] where
  on := h
  behind := hlo
  each := List.forall_mem_nil _
  one := .nil
  within := by simp [Recovery.contains]
  plain := List.forall_mem_nil _

/-- Reading goes on and nothing is recorded. -/
theorem onward (h : Gathered x pieces lo c own branches) {used : List Piece}
    (hr : c.Reads used d) : Gathered x pieces lo d own branches where
  on := h.on.reads hr
  behind := h.behind.trans (h.on.start_le hr)
  each := h.each
  one := h.one
  within hx := (h.within hx).reads h.on hr
  plain := h.plain

/-- Reading began at an earlier place. -/
theorem mono (h : Gathered x pieces lo c own branches) {lo' : Position}
    (hlo : lo'.AtOrBefore lo) : Gathered x pieces lo' c own branches where
  on := h.on
  behind := hlo.trans h.behind
  each := h.each
  one := h.one
  within hx := ⟨hlo.trans (h.within hx).1, (h.within hx).2⟩
  plain := h.plain

/-- Trees for which nothing is recorded. -/
theorem of_clean (hc : c.On pieces) {used : List Piece} (hr : c.Reads used d)
    (hclean : ∀ t ∈ branches, regionsOf t.nodes = [])
    (htokens : ∀ t ∈ branches, ∀ y, .expr y ∈ t.elements → ∀ u ∈ y.tokens,
      ∃ p ∈ pieces, p.token.exprToken? = some u) :
    Gathered x pieces c.token.start d .clean branches := by
  have hrecord (t : ElementTree) (ht : t ∈ branches) (e : Element) (he : e ∈ t.elements) :
      e.recovery = .clean := by
    have hregions := List.flatMap_eq_nil_iff.1 (hclean t ht) e.node (List.mem_map_of_mem he)
    exact Recovery.eq_of_regions_eq hregions
  have hlacks : ∀ t ∈ branches, t.Lacks (holdsAt x) := by
    intro t ht e he
    rw [holdsAt, hrecord t ht e he]
    rfl
  constructor
  case on => exact hc.reads hr
  case behind => exact hc.start_le hr
  case each => exact ElementTree.Lacks.forall_oneWay branches hlacks
  case one => exact ElementTree.Lacks.pairwise hlacks
  case within =>
    rintro (hx | ⟨t, ht, hx⟩)
    · simp [Recovery.contains] at hx
    · exact absurd (hlacks t ht) hx
  case plain =>
    intro t ht e he
    refine ⟨fun _ => hrecord t ht e he, ?_⟩
    rintro y rfl
    exact htokens t ht y he

/-- A member, begun where the ones before it ended, is added to a body. -/
theorem add {p : Piece} {rest : List Piece} {stop : Position}
    (h : Gathered x pieces lo (⟨p :: rest, stop⟩ : Cursor eof) own branches)
    {member : ElementTree} (hm : Gathered x pieces p.token.start d .clean [member])
    {used : List Piece} (hr : (⟨p :: rest, stop⟩ : Cursor eof).Reads used d)
    (hmore : more.Perm (branches ++ [member])) : Gathered x pieces lo d own more := by
  have hold (hx : ∃ b ∈ branches, ¬b.Lacks (holdsAt x)) : x.isBefore p.token.start = true :=
    (h.within (.inr hx)).2 (List.cons_ne_nil _ _)
  have hnew (hx : ¬member.Lacks (holdsAt x)) : Within p.token.start d x :=
    hm.within (.inr ⟨member, List.mem_singleton_self _, hx⟩)
  have hlo : lo.AtOrBefore p.token.start := h.behind
  have hapart (b : ElementTree) (hb : b ∈ branches) :
      b.Lacks (holdsAt x) ∨ member.Lacks (holdsAt x) := by
    by_contra hboth
    rw [not_or] at hboth
    have hlt := hold ⟨b, hb, hboth.1⟩
    have hle := (hnew hboth.2).1
    rw [Position.atOrBefore_iff, hlt] at hle
    cases hle
  have hmem {b : ElementTree} : b ∈ more ↔ b ∈ branches ∨ b = member := by
    rw [hmore.mem_iff, List.mem_append, List.mem_singleton]
  constructor
  case on => exact hm.on
  case behind => exact hlo.trans hm.behind
  case each =>
    intro b hb
    rcases hmem.1 hb with hb | rfl
    · exact h.each b hb
    · exact hm.each b (List.mem_singleton_self b)
  case one =>
    rw [hmore.pairwise_iff fun {a b} => Or.symm, List.pairwise_append]
    refine ⟨h.one, List.pairwise_singleton _ _, fun b hb m hm => ?_⟩
    obtain rfl := List.mem_singleton.1 hm
    exact hapart b hb
  case within =>
    rintro (hx | ⟨b, hb, hx⟩)
    · exact (h.within (.inl hx)).reads h.on hr
    · rcases hmem.1 hb with hb | rfl
      · exact (h.within (.inr ⟨b, hb, hx⟩)).reads h.on hr
      · exact ⟨hlo.trans (hnew hx).1, (hnew hx).2⟩
  case plain =>
    intro b hb
    rcases hmem.1 hb with hb | rfl
    · exact h.plain b hb
    · exact hm.plain b (List.mem_singleton_self b)

/-- A body becomes an element with its members below it. -/
theorem node (h : Gathered x pieces lo c own branches) {e : Element} (he : e.recovery = own)
    (hplain : Plain pieces e) : Gathered x pieces lo c .clean [.node e branches] := by
  constructor
  case on => exact h.on
  case behind => exact h.behind
  case each =>
    rw [List.forall_mem_singleton]
    exact .node h.each h.one
  case one => exact List.pairwise_singleton _ _
  case within =>
    rintro (hx | ⟨b, hb, hx⟩)
    · simp [Recovery.contains] at hx
    · obtain rfl := List.mem_singleton.1 hb
      refine h.within ?_
      by_contra hnone
      rw [not_or] at hnone
      refine hx fun e' he' => ?_
      rw [ElementTree.elements_node] at he'
      rcases List.mem_cons.1 he' with rfl | he'
      · rw [holdsAt, he]
        exact Bool.not_eq_true _ ▸ hnone.1
      · obtain ⟨b, hb, he'⟩ := List.mem_flatMap.1 he'
        by_contra hholds
        exact hnone.2 ⟨b, hb, fun hlacks => hholds (hlacks e' he')⟩
  case plain =>
    rw [List.forall_mem_singleton, ElementTree.elements_node]
    refine List.forall_mem_cons.2 ⟨hplain, fun e' he' => ?_⟩
    obtain ⟨b, hb, he'⟩ := List.mem_flatMap.1 he'
    exact h.plain b hb e' he'

/-- The body itself records a member that was skipped. -/
theorem absorb {ctx : Context} {p : Piece} {rest : List Piece} {stop : Position}
    (h : Gathered x pieces lo (⟨p :: rest, stop⟩ : Cursor eof) own branches) :
    Gathered x pieces lo (resume eof ctx p rest).2
      (own.absorb (.ofRegion (resume eof ctx p rest).1)) branches := by
  have hr := @resume_reads eof ctx p rest stop
  refine ⟨h.on.reads hr, h.behind.trans (h.on.start_le hr), h.each, h.one, ?_, h.plain⟩
  rintro (hx | hx)
  · rw [Recovery.contains_iff] at hx
    obtain ⟨r, hmem, hx⟩ := hx
    rw [Recovery.regions_absorb, Recovery.regions_ofRegion, List.mem_append,
      List.mem_singleton] at hmem
    rcases hmem with hmem | rfl
    · have hown : own.contains x = true := (Recovery.contains_iff _ _).2 ⟨r, hmem, hx⟩
      exact (h.within (.inl hown)).reads h.on hr
    · have hin := (holds_resume_iff ctx p rest).1 hx
      have hlo : lo.AtOrBefore p.token.start := h.behind
      exact ⟨hlo.trans hin.1, hin.2⟩
  · exact (h.within (.inr hx)).reads h.on hr

/-- A placeholder for a member that was skipped. -/
theorem placeholder {ctx : Context} {p : Piece} {rest : List Piece} {stop : Position}
    (h : (⟨p :: rest, stop⟩ : Cursor eof).On pieces) {t : ElementTree}
    (ht : StandsFor (resume eof ctx p rest).1 t.nodes) :
    Gathered x pieces p.token.start (resume eof ctx p rest).2 .clean [t] := by
  obtain ⟨e, rfl, hkind, he⟩ := exists_eq_node_of_standsFor ht
  have hstart : Gathered x pieces p.token.start (⟨p :: rest, stop⟩ : Cursor eof) .clean [] :=
    .empty h (.refl _)
  have habsorbed : Gathered x pieces p.token.start (resume eof ctx p rest).2
      (Recovery.clean.absorb (.ofRegion (resume eof ctx p rest).1)) [] := hstart.absorb
  exact habsorbed.node (he.trans (Recovery.clean_absorb _).symm) (.of_not_isWhole hkind)

/-- The end of the document cuts the body off. -/
theorem cut {stop : Position}
    (h : Gathered x pieces lo (⟨[], stop⟩ : Cursor eof) own branches) :
    Gathered x pieces lo (⟨[], stop⟩ : Cursor eof) (recordUnclosed eof own) branches where
  on := h.on
  behind := h.behind
  each := h.each
  one := h.one
  within := by
    rintro (hx | hx)
    · rcases contains_recordUnclosed hx with hx | hx
      · exact h.within (.inl hx)
      · exact ⟨h.behind.trans hx, fun hne => absurd rfl hne⟩
    · exact h.within (.inr hx)
  plain := h.plain

end Gathered

/-! ## The members of a body -/

section Body

variable {ctx : Context} {place : σ → Member α → σ} {rule : σ → Token → Clause eof α}

/-- The body `g'` is `g` with a further member, whose tree is `t`. -/
structure Takes (own : σ → Recovery) (branches : σ → List ElementTree) (t : ElementTree)
    (g g' : σ) : Prop where
  own_eq : own g' = own g
  perm : (branches g').Perm (branches g ++ [t])

/-- A body takes a member among the others. -/
theorem Takes.of_eq {own : σ → Recovery} {branches : σ → List ElementTree} {t : ElementTree}
    {g g' : σ} (hown : own g' = own g) (before after : List ElementTree)
    (h : branches g = before ++ after) (h' : branches g' = before ++ t :: after) :
    Takes own branches t g g' := by
  refine ⟨hown, ?_⟩
  rw [h, h']
  exact List.perm_middle.trans (List.perm_append_singleton t (before ++ after)).symm

/-- The body `g'` is `g` after a member was skipped: a placeholder stands for it, or the body itself
records it. -/
def TakesSkipped (own : σ → Recovery) (branches : σ → List ElementTree) (r : Region)
    (g g' : σ) : Prop :=
  (∃ t, StandsFor r t.nodes ∧ Takes own branches t g g') ∨
    (own g' = (own g).absorb (.ofRegion r) ∧ branches g' = branches g)

/-- What a body gathers is kept by its turns. -/
theorem kept_gathered (tree : α → ElementTree) (own : σ → Recovery)
    (branches : σ → List ElementTree) {n : Nat}
    (hrule : ∀ g p rest stop met, rest.length < n → ctx.closes p.token = false →
      (⟨p :: rest, stop⟩ : Cursor eof).On pieces →
        (rule g p.token ⟨.after p rest, met⟩).From ⟨⟨p :: rest, stop⟩, met⟩ fun a t =>
          Gathered x pieces p.token.start t.toCursor .clean [tree a] ∧
            Takes own branches (tree a) g (place g (.parsed a)))
    (hskip : ∀ g r, TakesSkipped own branches r g (place g (.skipped r))) :
    Kept ctx place rule
      (fun g u => Gathered x pieces lo u.toCursor (own g) (branches g)) n where
  separator g p rest stop met _ h := h.onward (.after p rest stop)
  parsed g p rest stop met hlt inside h := by
    refine (hrule g p rest stop met hlt inside h.on).mono fun a t ht ha => ?_
    obtain ⟨hmember, htakes⟩ := ha
    obtain ⟨used, hr⟩ := ht
    rw [htakes.own_eq]
    exact h.add hmember hr htakes.perm
  skipped g p rest stop met e inner _ _ _ h := by
    rcases hskip g (resume eof ctx p rest).1 with ⟨t, hstands, htakes⟩ | ⟨hown, hbranches⟩
    · rw [htakes.own_eq]
      exact h.add (.placeholder h.on hstands) (resume_reads ctx p rest stop) htakes.perm
    · rw [hown, hbranches]
      exact h.absorb

end Body

end Grammar

end QuerySuite
