import Mathlib
import QuerySuite.Parse
import QuerySuite.Proofs.Agreement
import QuerySuite.Proofs.Forward
import QuerySuite.Proofs.Outlines
import QuerySuite.Proofs.Streams

/-!
# Places nest

A node reaches from its first token to the last one that was used up for it, read or skipped. Pieces
are used up in the order of the document, so what is read for a part lies behind the parts that were
read before it, and within the node around it. This is so at any depth, also for placeholders and
for bodies that the end of the document cuts off.

Results:

* `Cursor.Ordered`: the pieces that are left stand behind the last token read.
* `Phrase.datum_between`: the outline of a value.
* `Clause.setup_between`, `Clause.assertion_between`, `Clause.test_between`, `Clause.body_fills`,
  `Clause.scope_between`: the clauses, from the inside out.
* `spans_nest`: the outline of every suite is tidy, in both ways to read a source.
-/

namespace QuerySuite

open Outline

namespace Grammar

variable {eof : Token} {α β σ : Type}

/-! ## Pieces in order -/

/-- The pieces stand behind `stop`, one after another, and none is empty. -/
inductive Ahead : Position → List Piece → Prop where
  | nil (stop : Position) : Ahead stop []
  | cons {stop : Position} {p : Piece} {rest : List Piece} (wellFormed : p.WellFormed)
      (behind : stop.AtOrBefore p.token.start) (text : p.token.start.AtOrBefore p.token.stop)
      (h : Ahead p.token.stop rest) : Ahead stop (p :: rest)

theorem Ahead.of_append {stop : Position} {used rest : List Piece} (h : Ahead stop (used ++ rest)) :
    stop.AtOrBefore (stopAfter stop used) ∧ Ahead (stopAfter stop used) rest := by
  induction used generalizing stop with
  | nil => exact ⟨.refl stop, h⟩
  | cons p used ih =>
    cases h with
    | cons _ behind text h =>
      obtain ⟨hle, hrest⟩ := ih h
      exact ⟨(behind.trans text).trans hle, hrest⟩

theorem Ahead.wellFormed {stop : Position} {pieces : List Piece} (h : Ahead stop pieces) :
    ∀ p ∈ pieces, p.WellFormed := by
  induction h with
  | nil => simp
  | cons wellFormed _ _ _ ih =>
    intro q hq
    rcases List.mem_cons.1 hq with rfl | hq
    · exact wellFormed
    · exact ih q hq

/-- Pieces that are laid one after another are in order. -/
theorem Ahead.of_laid {pieces : List Piece} (hwf : ∀ p ∈ pieces, p.WellFormed) {p q : Position}
    (laid : Token.Laid p (pieces.flatMap Piece.tokens) q) {stop : Position}
    (hstop : stop.AtOrBefore p) : Ahead stop pieces := by
  induction pieces generalizing p stop with
  | nil => exact .nil stop
  | cons r pieces ih =>
    have hr : Token.Laid p (r.token :: (r.gap ++ pieces.flatMap Piece.tokens)) q := laid
    obtain ⟨m, hlead, hmore⟩ := laid.exists_of_append
    obtain ⟨-, htext, hm⟩ := hlead.bounds (t := r.token) List.mem_cons_self
    refine .cons (hwf r List.mem_cons_self) ?_ (.of_isBefore htext) ?_
    · rw [hr.start_eq]
      exact hstop
    · exact ih (fun s hs => hwf s (List.mem_cons_of_mem r hs)) hmore hm

/-- What is left stands behind the last token read. -/
def Cursor.Ordered (c : Cursor eof) : Prop := Ahead c.stop c.rest

namespace Cursor.Ordered

variable {c d : Cursor eof} {p : Piece} {rest : List Piece} {stop : Position}

theorem reads (h : c.Ordered) {used : List Piece} (hr : c.Reads used d) :
    c.stop.AtOrBefore d.stop ∧ d.Ordered := by
  unfold Ordered at h ⊢
  rw [hr.rest_eq] at h
  rw [hr.stop_eq]
  exact h.of_append

theorem after (h : (⟨p :: rest, stop⟩ : Cursor eof).Ordered) :
    (.after p rest : Cursor eof).Ordered := (h.reads (.after p rest stop)).2

theorem behind (h : (⟨p :: rest, stop⟩ : Cursor eof).Ordered) : stop.AtOrBefore p.token.start := by
  cases h with
  | cons _ behind _ _ => exact behind

theorem text (h : (⟨p :: rest, stop⟩ : Cursor eof).Ordered) :
    p.token.start.AtOrBefore p.token.stop := by
  cases h with
  | cons _ _ text _ => exact text

/-- Where the first piece was used up, reading stands behind its start. -/
theorem start_le (h : c.Ordered) {used : List Piece} (hr : c.Reads (p :: used) d) :
    p.token.start.AtOrBefore d.stop := by
  rcases c with ⟨_ | ⟨q, rest⟩, stop⟩
  · cases hr.rest_eq
  · obtain ⟨rfl, hrest⟩ := List.cons.inj hr.rest_eq
    have hread : (.after q rest : Cursor eof).Reads used d := ⟨hrest, hr.stop_eq⟩
    exact h.text.trans (h.after.reads hread).1

end Cursor.Ordered

/-- A phrase that reads forward from where the pieces are in order ends where they are. -/
theorem Reply.From.ordered {c : Cursor eof} {n : Nat} {P : α → Cursor eof → Prop}
    {r : Reply eof α n} (h : r.From c P) (hc : c.Ordered) :
    r.From c fun a d => P a d ∧ c.stop.AtOrBefore d.stop ∧ d.Ordered := by
  cases r with
  | fail e => exact h
  | ok a d hd =>
    obtain ⟨hP, used, hr⟩ := h
    exact ⟨⟨hP, hc.reads hr⟩, used, hr⟩

theorem State.Onward.ordered {s t : State eof} (h : s.Onward t) (hs : s.Ordered) :
    s.stop.AtOrBefore t.stop ∧ t.Ordered := by
  obtain ⟨used, hr⟩ := h
  exact hs.reads hr

/-! ## Phrases -/

/-- Elements in brackets stand one behind another. -/
theorem elements_fills_of_lt (outline : α → Outline) {close : Token.Kind} {expected : String} :
    ∀ (n : Nat) (c : Cursor eof), c.size < n → c.Ordered →
      ∀ element : (d : Cursor eof) → d.size ≤ c.size → Reply eof α d.size,
        (∀ d hd, d.Ordered → (element d hd).From d fun a e => (outline a).Between d.stop e.stop) →
        (elements close expected c element).From c fun as d =>
          Filled c.stop d.stop [as.map outline] := by
  intro n
  induction n with
  | zero => intro c hn; omega
  | succ n ih =>
    intro c hn hc element h
    rw [elements]
    split
    · next t d h₁ =>
      obtain ⟨p, -, hr⟩ := Cursor.read?_reads h₁
      exact .ok (.empty (hc.reads hr).1 (by simp)) ⟨[p], hr⟩
    · refine ((h c c.le_refl hc).ordered hc).andThen fun a d hd ha => ?_
      obtain ⟨ha, hcd, hdo⟩ := ha
      split
      · next t e h₂ =>
        obtain ⟨p, -, hr⟩ := Cursor.read?_reads h₂
        exact .ok ((Filled.single ha).mono (.refl _) (hdo.reads hr).1) ⟨[p], hr⟩
      · split
        · exact .unexpected expected
        · next t e h₃ =>
          obtain ⟨p, -, hr⟩ := Cursor.read?_reads h₃
          obtain ⟨hde, heo⟩ := hdo.reads hr
          have hlt := Cursor.size_lt_of_read? h₃
          have rest := ih e (by omega) heo _ fun x hx hxo => h x (by omega) hxo
          refine ((rest.map fun as f has => ?_).before hr).widen _
          exact Filled.cons ha (has.mono hde (.refl _))

theorem elements_fills (outline : α → Outline) {close : Token.Kind} {expected : String}
    {c : Cursor eof} (hc : c.Ordered)
    (element : (d : Cursor eof) → d.size ≤ c.size → Reply eof α d.size)
    (h : ∀ d hd, d.Ordered → (element d hd).From d fun a e => (outline a).Between d.stop e.stop) :
    (elements close expected c element).From c fun as d => Filled c.stop d.stop [as.map outline] :=
  elements_fills_of_lt outline (c.size + 1) c (Nat.lt_succ_self _) hc element h

namespace Phrase

/-- A token that is read is used up. -/
theorem expect_reads (accepts : Token → Bool) (expected : String) (c : Cursor eof) :
    (expect accepts expected c).From c fun _ d => ∃ p, c.Reads [p] d := by
  unfold expect
  split
  · next t d h =>
    obtain ⟨p, -, hr⟩ := Cursor.read?_reads h
    exact .ok ⟨p, hr⟩ ⟨[p], hr⟩
  · exact .unexpected expected

/-- A token that may stand at the cursor is used up if it is read. -/
theorem next?_reads (accepts : Token → Bool) (c : Cursor eof) :
    (next? accepts c).From c fun t d => ∀ u, t = some u → ∃ p, p.token = u ∧ c.Reads [p] d := by
  unfold next?
  split
  · next t d h =>
    obtain ⟨p, hp, hr⟩ := Cursor.read?_reads h
    refine .ok ?_ ⟨[p], hr⟩
    rintro u ⟨⟩
    exact ⟨p, hp, hr⟩
  · exact .here (by simp)

theorem label_reads (expected : String) (c : Cursor eof) :
    (label expected c).From c fun _ d => ∃ p, c.Reads [p] d :=
  (expect_reads _ expected c).bind fun _ _ h => .here h

theorem literal_reads (p : Piece) (rest : List Piece) (stop : Position) :
    (literal ⟨p :: rest, stop⟩).From (⟨p :: rest, stop⟩ : Cursor eof) fun _ d =>
      (⟨p :: rest, stop⟩ : Cursor eof).Reads [p] d := by
  have hr : (⟨p :: rest, stop⟩ : Cursor eof).Reads [p] (.after p rest) := .after p rest stop
  simp only [literal]
  split
  · exact .ok hr ⟨[p], hr⟩
  · next e h => exact ⟨p.token, List.mem_cons_self, raisedIn_of_literalOf h⟩

/-- An entry of a map reaches from its key to the end of its value. -/
theorem entry_between {c : Cursor eof} (hc : c.Ordered)
    (element : (d : Cursor eof) → d.size ≤ c.size → Reply eof Value d.size)
    (h : ∀ d hd, d.Ordered → (element d hd).From d fun v e => v.outline.Between d.stop e.stop) :
    (entry c element).From c fun e d => e.outline.Between c.stop d.stop := by
  refine ((label_reads "map key" c).ordered hc).andThen fun key d hd hkey => ?_
  obtain ⟨⟨p, hr⟩, hcd, hdo⟩ := hkey
  have hstart : c.token.start.AtOrBefore d.stop ∧ c.stop.AtOrBefore c.token.start := by
    rcases c with ⟨_ | ⟨q, rest⟩, stop⟩
    · cases hr.rest_eq
    · obtain ⟨rfl, -⟩ := List.cons.inj hr.rest_eq
      exact ⟨hc.start_le hr, hc.behind⟩
  refine ((ofKind_from .colon "':'" d).ordered hdo).andThen fun _ e he hcolon => ?_
  obtain ⟨-, hde, heo⟩ := hcolon
  refine (h e _ heo).andThen fun v f _ hv => .here ?_
  have hfill : Filled c.token.start f.stop [[v.outline]] :=
    (Filled.single hv).mono (hstart.1.trans hde) (.refl _)
  exact hfill.node_between.mono hstart.2 (.refl _)

theorem datum_between_of_lt :
    ∀ (n : Nat) (c : Cursor eof), c.size < n → c.Ordered →
      (datum c).From c fun v d => v.outline.Between c.stop d.stop := by
  intro n
  induction n with
  | zero => intro c hn; omega
  | succ n ih =>
    rintro ⟨_ | ⟨p, rest⟩, stop⟩ hn hc
    · rw [datum]
      exact .unexpected "value"
    · have hr : Cursor.Reads (⟨p :: rest, stop⟩ : Cursor eof) [p] (.after p rest) :=
        .after p rest stop
      have inner (d : Cursor eof) (hd : d.size ≤ rest.length) (hdo : d.Ordered) :
          (datum d).From d fun v e => v.outline.Between d.stop e.stop :=
        ih d (by simp at hn; omega) hdo
      -- The parts lie behind the opening bracket.
      have around {q : Position} {parts : List (List Outline)}
          (h : Filled p.token.stop q parts) : (node ⟨p.token.start, q⟩ parts).Between stop q :=
        (h.mono hc.text (.refl q)).node_between.mono hc.behind (.refl q)
      rw [datum]
      split_ifs
      · refine (((elements_fills Value.outline hc.after _ inner).andThen
          fun vs d _ hvs => .here ?_).before hr).widen _
        rw [Value.outline, Value.outlinesOfList_eq]
        exact around hvs
      · refine (((elements_fills Entry.outline hc.after _ ?_).andThen
          fun es d _ hes => .here ?_).before hr).widen _
        · intro d hd hdo
          exact entry_between hdo _ fun e he heo => inner e (Nat.le_trans he hd) heo
        · rw [Value.outline, Value.outlinesOfEntries_eq]
          exact around hes
      · refine ((literal_reads p rest stop).ordered hc).andThen fun l d _ hl => .here ?_
        rw [Value.outline]
        exact (leaf_between (hc.start_le hl.1)).mono hc.behind (.refl _)

/-- The outline of a value. -/
theorem datum_between {c : Cursor eof} (hc : c.Ordered) :
    (datum c).From c fun v d => v.outline.Between c.stop d.stop :=
  datum_between_of_lt (c.size + 1) c (Nat.lt_succ_self _) hc

/-! ## Phrases behind a first token -/

theorem call_span (first : Token) (c : Cursor eof) :
    (call first c).From c fun call d => call.span = ⟨first.start, d.stop⟩ := by
  refine (callTarget_from first c).bind fun target d _ => ?_
  refine (callParams_from d).bind fun params e _ => ?_
  exact (lastStop_from e).bind fun stop f hs => .here (by rw [hs])

theorem statement_parts (first : Token) {c : Cursor eof} (hc : c.Ordered) :
    (statement first c).From c fun s d => s.span = ⟨first.start, d.stop⟩ ∧
      Filled c.stop d.stop [(s.value.map Value.outline).toList] := by
  refine Reply.From.bind ((segments_from c.stop c.rest).ordered hc) fun more d hd => ?_
  refine ((ofKind_from .colon "':'" d).ordered hd.2.2).bind fun _ e he => ?_
  refine Reply.From.bind (datum_between he.2.2) fun value f hv => ?_
  refine Reply.From.here (c := f) ⟨rfl, ?_⟩
  exact (Filled.single hv).mono (hd.2.1.trans he.2.1) (.refl _)

theorem expr_span {first : Token} {t : ExprToken} (h : first.exprToken? = some t)
    (c : Cursor eof) : (expr first c).From c fun e d => e.span = ⟨first.start, d.stop⟩ := by
  unfold expr
  rw [h]
  refine Reply.From.bind (exprRest_from _ c.stop c.rest) fun more d _ => ?_
  exact (lastStop_from d).bind fun stop e hs => .here (by rw [hs])

end Phrase

/-! ## Bodies -/

/-- The region of a skipped member extends from its first token to the last one skipped. -/
theorem extent_resume (ctx : Context) {p : Piece} {rest : List Piece} {stop : Position}
    (h : (⟨p :: rest, stop⟩ : Cursor eof).Ordered) :
    (resume eof ctx p rest).1.extent = ⟨p.token.start, (resume eof ctx p rest).2.stop⟩ := by
  have hwf : ∀ q ∈ p :: skippedAfter ctx p rest, q.WellFormed := by
    intro q hq
    refine Ahead.wellFormed h q ?_
    rcases List.mem_cons.1 hq with rfl | hq
    · exact List.mem_cons_self
    · refine List.mem_cons_of_mem p ?_
      rw [← skippedAfter_append ctx p rest]
      exact List.mem_append_left _ hq
  have hsig : (Recovery.ofRegion (resume eof ctx p rest).1).significant =
      p.token :: (skippedAfter ctx p rest).map (·.token) := by
    rw [resume_fst, Recovery.significant, Recovery.regions_ofRegion, List.flatMap_singleton]
    exact significant_pieces hwf
  have hstop : (resume eof ctx p rest).2.stop =
      stopAfter p.token.stop (skippedAfter ctx p rest) :=
    (resume_reads ctx p rest stop).stop_eq
  rw [Region.extent, Recovery.coveredSpan, hsig, hstop, stopAfter_eq_getLast, List.getLast?_cons,
    List.getLast?_map]
  cases (skippedAfter ctx p rest).getLast? <;> rfl

/-- A skipped member adds a placeholder without parts, or no part at all. -/
def Stands (r : Region) (parts parts' : List (List Outline)) : Prop :=
  (∃ lists, (∀ part ∈ lists, part = []) ∧ Added (.node r.extent lists) parts parts') ∨
    parts' = parts

theorem Stands.filled {r : Region} {parts parts' : List (List Outline)} (h : Stands r parts parts')
    {lo m hi : Position} (hfill : Filled lo m parts) (hm : m.AtOrBefore r.extent.start)
    (horder : r.extent.start.AtOrBefore r.extent.stop) (hhi : r.extent.stop = hi) :
    Filled lo hi parts' := by
  subst hhi
  rcases h with ⟨lists, hlists, hadd⟩ | rfl
  · have hnode : (node r.extent lists).Between r.extent.start r.extent.stop :=
      (Filled.empty horder hlists).node_between
    exact hfill.add (hnode.mono hm (.refl _)) hadd
  · exact hfill.mono (.refl lo) (hm.trans horder)

/-- A placeholder is placed like a member that was read. -/
theorem Stands.placed {r : Region} {parts parts' : List (List Outline)}
    (lists : List (List Outline)) (hlists : ∀ part ∈ lists, part = [])
    (h : Added (.node r.extent lists) parts parts') : Stands r parts parts' :=
  .inl ⟨lists, hlists, h⟩

section Body

variable {ctx : Context} {place : σ → Member α → σ} {rule : σ → Token → Clause eof α}

/-- The members of a body fill it: each one that is read is added behind the others, and so is the
placeholder of one that is skipped. -/
theorem kept_filled (outline : α → Outline) {parts : σ → List (List Outline)} {lo : Position}
    {n : Nat}
    (hrule : ∀ g p rest stop met, rest.length < n → ctx.closes p.token = false →
      (⟨p :: rest, stop⟩ : Cursor eof).Ordered →
        (rule g p.token ⟨.after p rest, met⟩).From ⟨⟨p :: rest, stop⟩, met⟩ fun a t =>
          (outline a).Between p.token.start t.stop ∧
            Added (outline a) (parts g) (parts (place g (.parsed a))))
    (hskip : ∀ g r, Stands r (parts g) (parts (place g (.skipped r)))) :
    Kept ctx place rule (fun g u => u.Ordered ∧ Filled lo u.stop (parts g)) n where
  separator g p rest stop met _ h := by
    obtain ⟨hord, hfill⟩ := h
    obtain ⟨hle, hafter⟩ := (State.Onward.after p rest stop met met).ordered hord
    exact ⟨hafter, hfill.mono (.refl lo) hle⟩
  parsed g p rest stop met hlt inside h := by
    obtain ⟨hord, hfill⟩ := h
    refine (hrule g p rest stop met hlt inside hord).mono fun a t ht ha => ?_
    obtain ⟨hbetween, hadd⟩ := ha
    have hle : stop.AtOrBefore p.token.start := hord.behind
    exact ⟨(ht.ordered hord).2, hfill.add (hbetween.mono hle (.refl _)) hadd⟩
  skipped g p rest stop met e inner _ _ _ h := by
    obtain ⟨hord, hfill⟩ := h
    have hordered : (⟨p :: rest, stop⟩ : Cursor eof).Ordered := hord
    have hextent := extent_resume ctx hordered
    have hreads := @resume_reads eof ctx p rest stop
    refine ⟨(hordered.reads hreads).2, (hskip g _).filled hfill ?_ ?_ (by rw [hextent])⟩
    · rw [hextent]
      exact hordered.behind
    · rw [hextent]
      exact hordered.start_le hreads

end Body

namespace Clause

/-! ## Setups -/

variable {p : Piece} {rest : List Piece} {stop : Position}

theorem setupItem_between (h : (⟨p :: rest, stop⟩ : Cursor eof).Ordered) (met : List ParseError) :
    (setupItem p.token ⟨.after p rest, met⟩).From (⟨⟨p :: rest, stop⟩, met⟩ : State eof)
      fun i t => i.outline.Between p.token.start t.stop := by
  unfold setupItem
  split_ifs
  · refine .behind (.here ?_)
    exact (Filled.empty h.text (by simp [SetupTask.outlines])).node_between
  · refine .behind (.phrase_bind (Phrase.call_span p.token _) fun call t ht hm hspan => .here ?_)
    have hle : p.token.start.AtOrBefore t.stop := h.text.trans (ht.ordered h.after).1
    have hcall : call.outline.Between p.token.start t.stop := by
      rw [Call.outline, hspan]
      exact leaf_between hle
    exact (Filled.single hcall).node_between
  · trivial

theorem setupBlock_fills {s : State eof} (hs : s.Ordered) :
    (setupBlock .recovery s).From s fun b t => Filled s.stop t.stop [b.1.outlines] := by
  have kept : Kept .setupBlock placeSetupItem (fun _ lead => @setupItem eof lead)
      (fun items u => u.Ordered ∧ Filled s.stop u.stop [items.map SetupItem.outline]) s.size := by
    refine kept_filled SetupItem.outline ?_ ?_
    · intro items p rest stop met _ _ hord
      refine (setupItem_between hord met).mono fun i t _ hi => ⟨hi, ?_⟩
      exact ⟨[], items.map SetupItem.outline, [], rfl, by simp [placeSetupItem]⟩
    · intro items r
      refine .inl ⟨[[]], by simp, [], items.map SetupItem.outline, [], rfl, ?_⟩
      simp [placeSetupItem, SetupItem.outline, Region.placeholder]
  refine wholeBody_from placeSetupItem _ (fun _ => .clean)
    (fun items recovery _ => (SetupBody.block items, recovery)) kept ?_ ?_
    ⟨hs, .empty (.refl _) (by simp)⟩
  · intro items q rest stop met _ h
    have hle := ((State.Onward.after q rest stop met met).ordered h.1).1
    exact h.2.mono (.refl _) hle
  · intro items stop met h
    exact h.2

theorem setupName_fills (h : (⟨p :: rest, stop⟩ : Cursor eof).Ordered) (met : List ParseError) :
    (setupName p.token ⟨.after p rest, met⟩).From (⟨.after p rest, met⟩ : State eof)
      fun b t => Filled p.token.start t.stop [b.outlines] := by
  unfold setupName
  split_ifs
  · refine Outcome.From.phrase_andThen (Phrase.call_span p.token _) fun call t _ ht _ hspan => ?_
    have hle : p.token.start.AtOrBefore t.stop := h.text.trans (ht.ordered h.after).1
    refine .here (Filled.single ?_)
    rw [Call.outline, hspan]
    exact leaf_between hle
  · exact .here (.empty h.text (by simp [SetupBody.outlines]))

theorem setupBody_fills {s : State eof} (hs : s.Ordered) :
    (setupBody .recovery s).From s fun b t => Filled s.stop t.stop [b.1.outlines] := by
  rcases s with ⟨⟨_ | ⟨p, rest⟩, stop⟩, met⟩
  · trivial
  · have h : (⟨p :: rest, stop⟩ : Cursor eof).Ordered := hs
    simp only [setupBody]
    split_ifs
    · refine .behind (.here (.empty ?_ (by simp [SetupBody.outlines])))
      exact h.behind.trans h.text
    · refine Outcome.From.widen ?_ _
      refine (setupBlock_fills (s := ⟨.after p rest, met⟩) h.after).behind.mono fun b t _ hb => ?_
      exact hb.mono (h.behind.trans h.text) (.refl _)
    · refine Outcome.From.widen (Outcome.From.behind ?_) _
      refine (setupName_fills h met).andThen_ok fun b t _ hb => ?_
      exact hb.mono h.behind (.refl _)
    · trivial

/-- A setup reaches from its reserved word to the last token that was used up for it. -/
theorem setup_between (h : (⟨p :: rest, stop⟩ : Cursor eof).Ordered) (met : List ParseError) :
    (setup .recovery p.token ⟨.after p rest, met⟩).From (⟨⟨p :: rest, stop⟩, met⟩ : State eof)
      fun x t => x.outline.Between p.token.start t.stop := by
  have hbody := setupBody_fills (s := ⟨.after p rest, met⟩) h.after
  refine .behind (hbody.andThen_ok (f := fun b t =>
    ({ body := some b.1, span := ⟨p.token.start, t.stop⟩, recovery := b.2 } : Setup))
    fun b t _ hb => ?_)
  exact (hb.mono h.text (.refl _)).node_between

/-! ## Assertions -/

theorem assertionQuery_fills {c : Cursor eof} (hc : c.Ordered) :
    (assertionQuery c).From c fun q d =>
      Filled c.stop d.stop [(q.map AssertionQuery.outlines).getD []] := by
  refine ((Phrase.next?_reads _ c).ordered hc).bind fun t d hd => ?_
  obtain ⟨hread, hcd, hdo⟩ := hd
  cases t with
  | none => exact .here (.empty hcd (by simp))
  | some t =>
    obtain ⟨p, rfl, hr⟩ := hread t rfl
    dsimp only
    split_ifs
    · exact .here (.empty hcd (by simp [AssertionQuery.outlines]))
    · refine ((Phrase.call_span p.token d).ordered hdo).bind fun call e he => .here ?_
      obtain ⟨hspan, hde, -⟩ := he
      have hstart : c.stop.AtOrBefore p.token.start := by
        rcases c with ⟨_ | ⟨q, rest⟩, stop⟩
        · cases hr.rest_eq
        · obtain ⟨rfl, -⟩ := List.cons.inj hr.rest_eq
          exact hc.behind
      refine Filled.single ?_
      rw [Call.outline, hspan]
      exact (leaf_between ((hc.start_le hr).trans hde)).mono hstart (.refl _)

theorem expr_between (h : (⟨p :: rest, stop⟩ : Cursor eof).Ordered) (met : List ParseError) :
    (ofPhrase (.expr p.token) ⟨.after p rest, met⟩).From (⟨⟨p :: rest, stop⟩, met⟩ : State eof)
      fun e t => (leaf e.span).Between p.token.start t.stop := by
  cases htoken : p.token.exprToken? with
  | none =>
    have hfail : ofPhrase (.expr p.token) (⟨.after p rest, met⟩ : State eof) =
        .fail (.unexpected "expression" p.token) met := by
      unfold ofPhrase Phrase.expr
      rw [htoken]
      rfl
    rw [hfail]
    trivial
  | some token =>
    have hphrase := Phrase.expr_span htoken (.after p rest : Cursor eof)
    refine .behind ((Outcome.From.of_phrase (s := ⟨.after p rest, met⟩) rfl hphrase).mono
      fun e t ht he => ?_)
    rw [he.1]
    exact leaf_between (h.text.trans (ht.ordered h.after).1)

/-- An assertion reaches from its reserved word to the last token that was used up for it. -/
theorem assertion_between (h : (⟨p :: rest, stop⟩ : Cursor eof).Ordered) (met : List ParseError) :
    (assertion .recovery p.token ⟨.after p rest, met⟩).From
      (⟨⟨p :: rest, stop⟩, met⟩ : State eof)
      fun a t => a.outline.Between p.token.start t.stop := by
  refine .behind (.phrase_bind (assertionQuery_fills h.after) fun query t ht _ hquery => ?_)
  have hto := (ht.ordered h.after).2
  refine .phrase_bind (Phrase.ofKind_from .lbrace _ _) fun _ u hu _ _ => ?_
  obtain ⟨htu, huo⟩ := hu.ordered hto
  have kept : Kept .assertBody placeExpr (fun _ lead => @ofPhrase eof Expr (.expr lead))
      (fun a v => v.Ordered ∧ Filled p.token.start v.stop a.parts) u.size := by
    refine kept_filled (fun e => leaf e.span) ?_ ?_
    · intro a q rest stop met _ _ hord
      refine (expr_between hord met).mono fun e v _ he => ⟨he, ?_⟩
      exact ⟨[(a.query.map AssertionQuery.outlines).getD []], a.exprs.map fun e => leaf e.span, [],
        rfl, by simp [placeExpr, Assertion.parts]⟩
    · intro a r
      exact .inr rfl
  refine wholeBody_from placeExpr _ (fun a => a.recovery)
    (fun a recovery v => { a with recovery, span := ⟨p.token.start, v.stop⟩ }) kept ?_ ?_ ⟨huo, ?_⟩
  · intro a q rest stop met _ h
    have hle := ((State.Onward.after q rest stop met met).ordered h.1).1
    exact (h.2.mono (.refl _) hle).node_between
  · intro a stop met h
    exact h.2.node_between
  · exact (hquery.mono h.text htu).concat_nil

/-! ## Tests -/

/-- The outline of a member of a test. -/
def TestMember.outline : TestMember → Outline
  | setup s => s.outline
  | statement s => s.outline
  | assertion a => a.outline

/-- A test takes a member behind the others. -/
theorem parts_placeTestMember (t : Test) (m : TestMember) (h : m.Fits t) :
    Added m.outline t.parts (placeTestMember t (.parsed m)).parts := by
  cases m with
  | setup s =>
    have hs : t.setup = none := h
    exact ⟨[], [], [t.statements.map Statement.outline, t.asserts.map Assertion.outline],
      by simp [Test.parts, hs], rfl⟩
  | statement s =>
    exact ⟨[(t.setup.map Setup.outline).toList], t.statements.map Statement.outline,
      [t.asserts.map Assertion.outline], rfl,
      by simp [Test.parts, placeTestMember, TestMember.outline]⟩
  | assertion a =>
    exact ⟨[(t.setup.map Setup.outline).toList, t.statements.map Statement.outline],
      t.asserts.map Assertion.outline, [], rfl,
      by simp [Test.parts, placeTestMember, TestMember.outline]⟩

/-- A member that was skipped in a test is a part of it, or is recorded by the test itself. -/
theorem stands_skipInTest (t : Test) (r : Region) : Stands r t.parts (skipInTest t r).parts := by
  unfold skipInTest
  split
  · split_ifs with h
    · exact .placed [[]] (by simp) (parts_placeTestMember t (.setup { r.placeholder with })
        (Option.isNone_iff_eq_none.1 h))
    · exact .inr rfl
  · exact .placed [[], []] (by simp)
      (parts_placeTestMember t (.assertion { r.placeholder with }) trivial)
  · exact .placed [[]] (by simp)
      (parts_placeTestMember t (.statement { r.placeholder with }) trivial)
  · exact .inr rfl

theorem testMember_between (t : Test) (h : (⟨p :: rest, stop⟩ : Cursor eof).Ordered)
    (met : List ParseError) :
    (testMember .recovery t p.token ⟨.after p rest, met⟩).From
      (⟨⟨p :: rest, stop⟩, met⟩ : State eof)
      fun m u => m.outline.Between p.token.start u.stop ∧ m.Fits t := by
  unfold testMember
  split_ifs with _ hsome
  · trivial
  · refine (setup_between h met).andThen_ok fun s u _ hs => ⟨hs, ?_⟩
    show t.setup = none
    simpa using hsome
  · exact (assertion_between h met).andThen_ok fun a u _ ha => ⟨ha, trivial⟩
  · refine .behind (.phrase_bind (Phrase.statement_parts p.token h.after)
      fun s u _ _ hs => .here ⟨?_, trivial⟩)
    obtain ⟨hspan, hfill⟩ := hs
    rw [TestMember.outline, Statement.outline, hspan]
    exact (hfill.mono h.text (.refl _)).node_between
  · trivial

/-- A test reaches from its reserved word to the last token that was used up for it. -/
theorem test_between (h : (⟨p :: rest, stop⟩ : Cursor eof).Ordered) (met : List ParseError) :
    (test .recovery p.token ⟨.after p rest, met⟩).From (⟨⟨p :: rest, stop⟩, met⟩ : State eof)
      fun t u => t.outline.Between p.token.start u.stop := by
  refine .behind (.phrase_bind (Phrase.label_from _ _) fun name t ht _ _ => ?_)
  refine .phrase_bind (Phrase.ofKind_from .lbrace _ _) fun _ u hu _ _ => ?_
  obtain ⟨hle, huo⟩ := (ht.trans hu).ordered h.after
  have kept : Kept .testBody placeTestMember (@testMember eof .recovery)
      (fun t v => v.Ordered ∧ Filled p.token.start v.stop t.parts) u.size := by
    refine kept_filled TestMember.outline ?_ stands_skipInTest
    intro t q rest stop met _ _ hord
    refine (testMember_between t hord met).mono fun m v _ hm => ⟨hm.1, ?_⟩
    exact parts_placeTestMember t m hm.2
  refine wholeBody_from placeTestMember _ (fun t => t.recovery)
    (fun t recovery v => { t with recovery, span := ⟨p.token.start, v.stop⟩ }) kept ?_ ?_ ⟨huo, ?_⟩
  · intro t q rest stop met _ h
    have hle := ((State.Onward.after q rest stop met met).ordered h.1).1
    exact (h.2.mono (.refl _) hle).node_between
  · intro t stop met h
    exact h.2.node_between
  · exact .empty (h.text.trans hle) (by simp [Test.parts])

/-! ## Scopes and groups -/

/-- The outline of a member of a scope or a group. -/
def BodyMember.outline : BodyMember → Outline
  | setup s => s.outline
  | teardown t => t.outline
  | item i => i.outline

/-- The parts of a body. -/
def Body.parts (b : Body) : List (List Outline) := bodyParts b.setup b.teardown b.items

/-- A body takes a member behind the others. -/
theorem parts_placeBodyMember (b : Body) (m : BodyMember) (h : m.Fits b) :
    Added m.outline b.parts (placeBodyMember b (.parsed m)).parts := by
  cases m with
  | setup s =>
    have hs : b.setup = none := h
    exact ⟨[], [], [(b.teardown.map Teardown.outline).toList, b.items.map Item.outline],
      by simp [Body.parts, bodyParts, hs], rfl⟩
  | teardown t =>
    have ht : b.teardown = none := h
    exact ⟨[(b.setup.map Setup.outline).toList], [], [b.items.map Item.outline],
      by simp [Body.parts, bodyParts, ht], rfl⟩
  | item i =>
    exact ⟨[(b.setup.map Setup.outline).toList, (b.teardown.map Teardown.outline).toList],
      b.items.map Item.outline, [], rfl,
      by simp [Body.parts, bodyParts, placeBodyMember, BodyMember.outline]⟩

/-- A member that was skipped in a body is a part of it, or is recorded by the body itself. -/
theorem stands_skipInBody (b : Body) (r : Region) : Stands r b.parts (skipInBody b r).parts := by
  unfold skipInBody
  split
  · split_ifs with h
    · exact .placed [[]] (by simp) (parts_placeBodyMember b (.setup { r.placeholder with })
        (Option.isNone_iff_eq_none.1 h))
    · exact .inr rfl
  · split_ifs with h
    · exact .placed [] (by simp) (parts_placeBodyMember b (.teardown { r.placeholder with })
        (Option.isNone_iff_eq_none.1 h))
    · exact .inr rfl
  · have h := parts_placeBodyMember b (.item (.test { r.placeholder with })) trivial
    rw [BodyMember.outline, Item.outline] at h
    exact .placed [[], [], []] (by simp) h
  · have h := parts_placeBodyMember b (.item (.group { r.placeholder with } [])) trivial
    rw [BodyMember.outline, Item.outline_group] at h
    exact .placed [[], [], []] (by simp) h
  · exact .inr rfl

/-- A group, if the parts of its body fill it. -/
theorem group_between (h : (⟨p :: rest, stop⟩ : Cursor eof).Ordered) (met : List ParseError)
    (hbody : ∀ v : State eof, v.size ≤ rest.length → v.Ordered →
      (body .recovery v).From v fun b u => Filled v.stop u.stop b.parts) :
    (group p.token ⟨.after p rest, met⟩ fun v _ => body .recovery v).From
      (⟨⟨p :: rest, stop⟩, met⟩ : State eof)
      fun i u => i.outline.Between p.token.start u.stop := by
  unfold group
  refine .behind (.phrase_andThen (Phrase.label_from _ _) fun name t hsize ht _ _ => ?_)
  obtain ⟨hle, hto⟩ := ht.ordered h.after
  refine (hbody t hsize hto).andThen_ok fun b u _ hb => ?_
  rw [Item.outline_group]
  exact (hb.mono (h.text.trans hle) (.refl _)).node_between

theorem bodyMember_between (b : Body) (h : (⟨p :: rest, stop⟩ : Cursor eof).Ordered)
    (met : List ParseError)
    (hbody : ∀ v : State eof, v.size ≤ rest.length → v.Ordered →
      (body .recovery v).From v fun b u => Filled v.stop u.stop b.parts) :
    (bodyMember .recovery b p.token ⟨.after p rest, met⟩ fun v _ => body .recovery v).From
      (⟨⟨p :: rest, stop⟩, met⟩ : State eof)
      fun m u => m.outline.Between p.token.start u.stop ∧ m.Fits b := by
  unfold bodyMember
  split_ifs with _ hs _ ht
  · trivial
  · refine (setup_between h met).andThen_ok fun s u _ hx => ⟨hx, ?_⟩
    show b.setup = none
    simpa using hs
  · trivial
  · refine .behind (.phrase_andThen (Phrase.teardownClause_from p.token _)
      fun t u _ hu _ hspan => .here ⟨?_, ?_⟩)
    · rw [BodyMember.outline, Teardown.outline, hspan.2]
      exact leaf_between (h.text.trans (hu.ordered h.after).1)
    · show b.teardown = none
      simpa using ht
  · refine (test_between h met).andThen_ok fun t u _ ht => ⟨?_, trivial⟩
    rw [BodyMember.outline, Item.outline]
    exact ht
  · exact (group_between h met hbody).andThen_ok fun i u _ hi => ⟨hi, trivial⟩
  · trivial

theorem body_fills_of_lt :
    ∀ (n : Nat) (s : State eof), s.size < n → s.Ordered →
      (body .recovery s).From s fun b u => Filled s.stop u.stop b.parts := by
  intro n
  induction n with
  | zero => intro s hn; omega
  | succ n ih =>
    intro s hn hs
    rw [body_eq]
    refine .phrase_andThen (Phrase.ofKind_from .lbrace _ _) fun _ t hsize ht _ _ => ?_
    obtain ⟨hle, hto⟩ := ht.ordered hs
    have kept : Kept .scopeBody placeBodyMember
        (fun b lead (u : State eof) => bodyMember .recovery b lead u fun v _ => body .recovery v)
        (fun b v => v.Ordered ∧ Filled s.stop v.stop b.parts) t.size := by
      refine kept_filled BodyMember.outline ?_ stands_skipInBody
      intro b q rest stop met hlt _ hord
      -- A group within the body is shorter than the body.
      have hinner (v : State eof) (hv : v.size ≤ rest.length) (hvo : v.Ordered) :
          (body .recovery v).From v fun b u => Filled v.stop u.stop b.parts :=
        ih v (by omega) hvo
      refine (bodyMember_between b hord met hinner).mono fun m v _ hm => ⟨hm.1, ?_⟩
      exact parts_placeBodyMember b m hm.2
    refine wholeBody_from placeBodyMember _ (fun b => b.recovery)
      (fun b recovery _ => { b with recovery }) kept ?_ ?_ ⟨hto, ?_⟩
    · intro b q rest stop met _ h
      have hle := ((State.Onward.after q rest stop met met).ordered h.1).1
      exact h.2.mono (.refl _) hle
    · intro b stop met h
      exact h.2
    · exact .empty hle (by simp [Body.parts, bodyParts])

/-- The parts of a body fill it. -/
theorem body_fills {s : State eof} (hs : s.Ordered) :
    (body .recovery s).From s fun b u => Filled s.stop u.stop b.parts :=
  body_fills_of_lt (s.size + 1) s (Nat.lt_succ_self _) hs

/-- A scope reaches from the name of its query to the last token that was used up for it. -/
theorem scope_between (h : (⟨p :: rest, stop⟩ : Cursor eof).Ordered) (met : List ParseError) :
    (scope .recovery p.token ⟨.after p rest, met⟩).From (⟨⟨p :: rest, stop⟩, met⟩ : State eof)
      fun x t => x.outline.Between p.token.start t.stop := by
  have hbody := body_fills (s := ⟨.after p rest, met⟩) h.after
  refine .behind (hbody.andThen_ok (f := fun b t =>
    ({ query := p.token.text, setup := b.setup, teardown := b.teardown, items := b.items,
       span := ⟨p.token.start, t.stop⟩, recovery := b.recovery } : Scope)) fun b t _ hb => ?_)
  exact (hb.mono h.text (.refl _)).node_between

end Clause

/-! ## Documents -/

/-- The outline of a member of a document. -/
def TopMember.outline : TopMember → Outline
  | importClause i => leaf i.span
  | query q => leaf q.span
  | setup s => s.outline
  | teardown t => t.outline
  | scope s => s.outline

/-- A suite takes a member behind the others. -/
theorem parts_placeTopMember (s : Suite) (m : TopMember) (h : m.Fits s) :
    Added m.outline s.parts (placeTopMember s (.parsed m)).parts := by
  cases m with
  | importClause i =>
    exact ⟨[], _, _, rfl, by simp [Suite.parts, placeTopMember, TopMember.outline]⟩
  | query q =>
    exact ⟨[_], _, _, rfl, by simp [Suite.parts, placeTopMember, TopMember.outline]⟩
  | setup c =>
    have hs : s.setup = none := h
    exact ⟨[_, _], [], _, by rw [Suite.parts, hs]; rfl, rfl⟩
  | teardown t =>
    have ht : s.teardown = none := h
    exact ⟨[_, _, _], [], _, by rw [Suite.parts, ht]; rfl, rfl⟩
  | scope c =>
    exact ⟨[_, _, _, _], _, _, rfl, by simp [Suite.parts, placeTopMember, TopMember.outline]⟩

/-- A member that was skipped in a document is a part of the suite, or is recorded by the suite
itself. -/
theorem stands_skipInSuite (s : Suite) (r : Region) : Stands r s.parts (skipInSuite s r).parts := by
  unfold skipInSuite
  split
  · exact .placed [] (by simp)
      (parts_placeTopMember s (.importClause { r.placeholder with }) trivial)
  · exact .placed [] (by simp) (parts_placeTopMember s (.query { r.placeholder with }) trivial)
  · split_ifs with h
    · exact .placed [[]] (by simp) (parts_placeTopMember s (.setup { r.placeholder with })
        (Option.isNone_iff_eq_none.1 h))
    · exact .inr rfl
  · split_ifs with h
    · exact .placed [] (by simp) (parts_placeTopMember s (.teardown { r.placeholder with })
        (Option.isNone_iff_eq_none.1 h))
    · exact .inr rfl
  · exact .inr rfl

theorem topMember_between {p : Piece} {rest : List Piece} {stop : Position} (suite : Suite)
    (h : (⟨p :: rest, stop⟩ : Cursor eof).Ordered) (met : List ParseError) :
    (topMember .recovery suite p.token ⟨.after p rest, met⟩).From
      (⟨⟨p :: rest, stop⟩, met⟩ : State eof)
      fun m t => m.outline.Between p.token.start t.stop ∧ m.Fits suite := by
  unfold topMember
  split_ifs with _ _ _ hs _ ht
  · refine .behind (.phrase_bind (Phrase.importClause_from p.token _)
      fun i u hu _ hi => .here ⟨?_, trivial⟩)
    rw [TopMember.outline, hi.2]
    exact leaf_between (h.text.trans (hu.ordered h.after).1)
  · refine .behind (.phrase_bind (Phrase.queryClause_from p.token _)
      fun q u hu _ hq => .here ⟨?_, trivial⟩)
    rw [TopMember.outline, hq.2]
    exact leaf_between (h.text.trans (hu.ordered h.after).1)
  · trivial
  · refine (Clause.setup_between h met).andThen_ok fun c u _ hc => ⟨hc, ?_⟩
    show suite.setup = none
    simpa using hs
  · trivial
  · refine .behind (.phrase_bind (Phrase.teardownClause_from p.token _)
      fun t u hu _ htd => .here ⟨?_, ?_⟩)
    · rw [TopMember.outline, Teardown.outline, htd.2]
      exact leaf_between (h.text.trans (hu.ordered h.after).1)
    · show suite.teardown = none
      simpa using ht
  · exact (Clause.scope_between h met).andThen_ok fun c u _ hc => ⟨hc, trivial⟩
  · trivial

/-- The parts of a suite fill what was read of the document. -/
theorem document_fills {s : State eof} (hs : s.Ordered) :
    (document .recovery s).Gives fun suite u => s.Onward u ∧ Filled s.stop u.stop suite.parts := by
  have kept : Kept .topLevel placeTopMember (@topMember eof .recovery)
      (fun suite u => u.Ordered ∧ Filled s.stop u.stop suite.parts) s.size := by
    refine kept_filled TopMember.outline ?_ stands_skipInSuite
    intro suite p rest stop met _ _ hord
    refine (topMember_between suite hord met).mono fun m t _ hm => ⟨hm.1, ?_⟩
    exact parts_placeTopMember suite m hm.2
  have hstart : Filled s.stop s.stop ({} : Suite).parts := .empty (.refl _) (by simp [Suite.parts])
  exact (members_from kept s.le_refl ⟨hs, hstart⟩).mono fun suite u h => ⟨h.1.1, h.1.2.2⟩

/-- No piece of a stretch reaches behind it. -/
theorem stopAfter_atOrBefore {pieces : List Piece} {p q stop : Position}
    (laid : Token.Laid p (pieces.flatMap Piece.tokens) q) (hp : stop.AtOrBefore p) :
    (stopAfter stop pieces).AtOrBefore q := by
  induction pieces generalizing p stop with
  | nil =>
    cases laid with
    | nil => exact hp
  | cons r pieces ih =>
    obtain ⟨m, hlead, hmore⟩ := laid.exists_of_append
    exact ih hmore (hlead.bounds (t := r.token) List.mem_cons_self).2.2

/-- The suite of a source that is read with recovery has a tidy outline. -/
theorem parse_recovery_tidy (source : String) :
    ∃ suite met, parse .recovery (Token.scan source) = .suite suite met ∧ suite.outline.Tidy := by
  obtain ⟨m, hlead, laid⟩ := (Stream.laid_ofSource source).exists_of_append
  have hordered : (initial (Token.scan source)).Ordered :=
    Ahead.of_laid (Stream.split_wellFormed none _) laid hlead.atOrBefore
  obtain ⟨suite, u, hrun, ⟨used, hreads⟩, hfill⟩ := parse_of_gives (document_fills hordered)
  refine ⟨complete (Token.scan source) suite, u.met, hrun, ?_⟩
  -- What was read ends before the end token.
  have hstop : u.stop.AtOrBefore (endToken (Token.scan source)).start := by
    have hpieces : (Stream.ofSource source).pieces = used ++ u.rest := hreads.rest_eq
    rw [hpieces, List.flatMap_append] at laid
    obtain ⟨n, hused, hrest⟩ := laid.exists_of_append
    rw [hreads.stop_eq]
    exact (stopAfter_atOrBefore hused hlead.atOrBefore).trans hrest.atOrBefore
  exact (hfill.mono (.refl .start) hstop).tidy

end Grammar

/-- In both ways to read a source, places nest. The outline of the suite leaves out no node, and it
is tidy: at every node of it, the parts are enclosed by the node, no two of them overlap, and each
list of parts is in the order of the document. No node, and no entry of a map, ends before it
starts. -/
theorem spans_nest (mode : Grammar.Mode) (source : String) {suite : Suite}
    (h : (parse mode source).suite = some suite) :
    suite.spans.Sublist suite.outline.spans ∧ suite.outline.Tidy ∧
      ∀ span ∈ suite.outline.spans, span.start.AtOrBefore span.stop := by
  obtain ⟨suite', met, hrun, htidy⟩ := Grammar.parse_recovery_tidy source
  suffices hsuite : suite = suite' by
    subst hsuite
    exact ⟨suite.spans_sublist_outline, htidy, htidy.forall_spans⟩
  obtain ⟨suite'', met', hrun', hstrict⟩ := Grammar.parse_agree (Token.scan source)
  rw [hrun] at hrun'
  cases hrun'
  unfold parse at h
  dsimp only at h
  cases mode with
  | recovery =>
    rw [hrun] at h
    exact (Option.some.inj h).symm
  | strict =>
    rcases hstrict with ⟨hs, -⟩ | ⟨e, hs, -⟩
    · rw [hs] at h
      exact (Option.some.inj h).symm
    · rw [hs] at h
      cases h

/-- A scope and a test that the end of the document cuts off, with a statement that was skipped. -/
theorem spans_nest_cut_off : ∃ suite, (parse .recovery "q\x7btest t\x7bb").suite = some suite ∧
    suite.outline.spans = [⟨⟨1, 1, 0⟩, ⟨1, 11, 10⟩⟩, ⟨⟨1, 1, 0⟩, ⟨1, 11, 10⟩⟩,
      ⟨⟨1, 3, 2⟩, ⟨1, 11, 10⟩⟩, ⟨⟨1, 10, 9⟩, ⟨1, 11, 10⟩⟩] ∧
    suite.spans.Sublist suite.outline.spans ∧ suite.outline.Tidy ∧
      ∀ span ∈ suite.outline.spans, span.start.AtOrBefore span.stop := by
  have hspans : (parse .recovery "q\x7btest t\x7bb").suite.map (·.outline.spans) =
      some [⟨⟨1, 1, 0⟩, ⟨1, 11, 10⟩⟩, ⟨⟨1, 1, 0⟩, ⟨1, 11, 10⟩⟩, ⟨⟨1, 3, 2⟩, ⟨1, 11, 10⟩⟩,
        ⟨⟨1, 10, 9⟩, ⟨1, 11, 10⟩⟩] := by cbv
  obtain ⟨suite, hsuite, hspans⟩ := Option.map_eq_some_iff.1 hspans
  exact ⟨suite, hsuite, hspans, spans_nest .recovery _ hsuite⟩

end QuerySuite
