import QuerySuite.Proofs.MemberLoop
import QuerySuite.Proofs.Yields

/-!
# Members that are read without a fault

The loop over the members of a body, as long as no member fails. A strict reading that yields a
value has read a series of members; and a series of members is read, in either mode, up to where it
ends, whatever follows it there.

A member is read by a rule that sees what was gathered before it. The rule refuses a member whose
place is taken: `Fitting` says that none is, which for a place that holds one member means that the
series has at most one of them.

Results:

* `members_sound`: what a strict reading of members has read.
* `members_complete`: reading goes on behind a series of members.
* `closedBody_sound`, `closedBody_complete`: the members of a body and the brace that closes it.
* `fitting_free_iff`, `placeAll_slot`: a place that one member at most can take.
-/

namespace QuerySuite.Grammar

variable {eof : Token} {α β σ : Type}

/-! ## Adding members -/

/-- Adds members that were read, one after another. -/
def placeAll (place : σ → Member α → σ) (g : σ) (as : List α) : σ :=
  as.foldl (fun g a => place g (.parsed a)) g

/-- Each of the members fits what was gathered before it. -/
def Fitting (place : σ → Member α → σ) (fits : σ → α → Prop) : σ → List α → Prop
  | _, [] => True
  | g, a :: as => fits g a ∧ Fitting place fits (place g (.parsed a)) as

/-- The place `slot` is free if the member needs it. -/
def Free (slot : σ → Option β) (which : α → Option β) (g : σ) (a : α) : Prop :=
  (which a).isSome = true → slot g = none

section Places

variable {place : σ → Member α → σ} {fits fits' : σ → α → Prop}

@[simp]
theorem placeAll_nil (g : σ) : placeAll place g ([] : List α) = g := rfl

@[simp]
theorem placeAll_cons (g : σ) (a : α) (as : List α) :
    placeAll place g (a :: as) = placeAll place (place g (.parsed a)) as := rfl

theorem fitting_true (g : σ) (as : List α) : Fitting place (fun _ _ => True) g as := by
  induction as generalizing g with
  | nil => trivial
  | cons a as ih => exact ⟨trivial, ih _⟩

theorem fitting_and_iff (g : σ) (as : List α) :
    Fitting place (fun g a => fits g a ∧ fits' g a) g as ↔
      Fitting place fits g as ∧ Fitting place fits' g as := by
  induction as generalizing g with
  | nil => simp [Fitting]
  | cons a as ih =>
    simp only [Fitting, ih]
    constructor
    · rintro ⟨⟨h, h'⟩, hs, hs'⟩
      exact ⟨⟨h, hs⟩, h', hs'⟩
    · rintro ⟨⟨h, hs⟩, h', hs'⟩
      exact ⟨⟨h, h'⟩, hs, hs'⟩

/-- What no member changes stays as it was. -/
theorem placeAll_keeps {f : σ → β} (hplace : ∀ g a, f (place g (.parsed a)) = f g) (g : σ)
    (as : List α) : f (placeAll place g as) = f g := by
  induction as generalizing g with
  | nil => rfl
  | cons a as ih => rw [placeAll_cons, ih, hplace]

/-- Members that go to a list stand there in order. -/
theorem placeAll_list {list : σ → List β} {which : α → Option β}
    (hplace : ∀ g a, list (place g (.parsed a)) = list g ++ (which a).toList) (g : σ)
    (as : List α) : list (placeAll place g as) = list g ++ as.filterMap which := by
  induction as generalizing g with
  | nil => simp
  | cons a as ih =>
    rw [placeAll_cons, ih, hplace, List.append_assoc, List.filterMap_cons]
    cases which a <;> rfl

section Slot

variable {slot : σ → Option β} {which : α → Option β}
  (hplace : ∀ g a, slot (place g (.parsed a)) = (which a).or (slot g))

include hplace

/-- A place is free for every member that needs it exactly if at most one member takes it. -/
theorem fitting_free_iff (g : σ) (as : List α) :
    Fitting place (Free slot which) g as ↔
      (slot g).toList.length + (as.filterMap which).length ≤ 1 := by
  induction as generalizing g with
  | nil => cases slot g <;> simp [Fitting]
  | cons a as ih =>
    rw [Fitting, ih, hplace, Free, List.filterMap_cons]
    cases which a with
    | none => simp
    | some b =>
      cases slot g with
      | none => simp [Nat.add_comm]
      | some b' => simp

/-- A place holds the member that took it. -/
theorem placeAll_slot {g : σ} (hg : slot g = none) {as : List α} (h : AtMostOne which as) :
    slot (placeAll place g as) = (as.filterMap which).head? := by
  have hlast (g : σ) (as : List α) :
      slot (placeAll place g as) = (as.filterMap which).getLast?.or (slot g) := by
    induction as generalizing g with
    | nil => simp
    | cons a as ih =>
      rw [placeAll_cons, ih, hplace, List.filterMap_cons]
      cases which a with
      | none => rfl
      | some b =>
        rw [List.getLast?_cons, Option.some_or]
        cases (as.filterMap which).getLast? <;> rfl
  rw [hlast, hg, Option.or_none]
  unfold AtMostOne at h
  match as.filterMap which, h with
  | [], _ => rfl
  | [b], _ => rfl

theorem fitting_free_iff_atMostOne {g : σ} (hg : slot g = none) (as : List α) :
    Fitting place (Free slot which) g as ↔ AtMostOne which as := by
  rw [fitting_free_iff hplace, hg, AtMostOne]
  simp

end Slot

end Places

/-! ## The loop -/

/-- The tokens of a body: which separate, what its members begin with, and what may stand behind a
member for it to be read, `follow`. -/
structure Layout (ctx : Context) (separates : Token → Prop) (apart : List Token → Token → Prop)
    (P : List Token → α → Prop) (follow : List Token → Token → Prop) : Prop where
  separates_iff : ∀ t, separates t ↔ ctx.separates t = true
  begins : ∀ ts a, P ts a →
    ∃ t us, ts = t :: us ∧ ctx.closes t = false ∧ ctx.separates t = false
  follow_separator : ∀ ts u, separates u → follow ts u
  follow_member : ∀ ts u us a, P (u :: us) a → apart ts u → follow ts u
  follow_close : ∀ ts u, u.kind = .rbrace → follow ts u

/-- A token that separates does not close. -/
theorem Context.closes_of_separates {ctx : Context} {t : Token} (h : ctx.separates t = true) :
    ctx.closes t = false := by
  simp only [Context.separates, Bool.and_eq_true, beq_iff_eq] at h
  simp [Context.closes, h.2]

section Loop

variable {ctx : Context} {separates : Token → Prop} {apart : List Token → Token → Prop}
  {P : List Token → α → Prop} {follow : List Token → Token → Prop} {fits : σ → α → Prop}
  {place : σ → Member α → σ} {mode : Mode} {n : Nat}
  {rule : σ → Token → (t : State eof) → t.size < n → Outcome eof α t.size}

/-- A rule that gives only members that are spelled as such and fit. -/
def RuleSound (P : List Token → α → Prop) (apart : List Token → Token → Prop) (fits : σ → α → Prop)
    (rule : σ → Token → (t : State eof) → t.size < n → Outcome eof α t.size) : Prop :=
  ∀ g t (x : State eof) hx a y, x.stop = t.stop → (rule g t x hx).Yields a y →
    ∃ ts, x.Takes ts y ∧ P (t :: ts) a ∧ fits g a ∧ y.Next (apart (t :: ts))

/-- A rule that gives every member that is spelled as such and fits. -/
def RuleComplete (P : List Token → α → Prop) (follow : List Token → Token → Prop)
    (fits : σ → α → Prop)
    (rule : σ → Token → (t : State eof) → t.size < n → Outcome eof α t.size) : Prop :=
  ∀ g t ts a (x : State eof) hx y, x.stop = t.stop → x.Takes ts y → P (t :: ts) a → fits g a →
    y.Next (follow (t :: ts)) → (rule g t x hx).Yields a y

/-- What a strict reading of members has read, where fewer than `m` pieces are left. -/
theorem members_sound_of_lt (layout : Layout ctx separates apart P follow)
    (sound : RuleSound P apart fits rule) :
    ∀ (m : Nat) (g : σ) (s : State eof) (hs : s.size ≤ n), s.size < m → ∀ g' u,
      (members .strict ctx place n rule g s hs).Yields g' u →
        ∃ ts as, s.Takes ts u ∧ IsSeries separates apart P ts as ∧ Fitting place fits g as ∧
          placeAll place g as = g' ∧ ctx.Ends u.toCursor := by
  intro m
  induction m with
  | zero => intro g s hs hm; omega
  | succ m ih =>
    rintro g ⟨⟨_ | ⟨p, rest⟩, stop⟩, met⟩ hs hm g' u h
    · rw [members_nil] at h
      obtain ⟨rfl, rfl⟩ := Outcome.ok_yields_iff.1 h
      exact ⟨[], [], State.takes_nil_iff.2 rfl, .nil, trivial, rfl, by simp [Context.Ends]⟩
    · have hlen : rest.length < m := by
        rw [State.size_mk, Cursor.size_mk, List.length_cons] at hm
        omega
      have htake : (⟨⟨p :: rest, stop⟩, met⟩ : State eof).Takes [p.token] ⟨.after p rest, met⟩ :=
        .after p rest stop met
      rw [members] at h
      dsimp only at h
      split at h
      · next closes =>
        obtain ⟨rfl, rfl⟩ := Outcome.ok_yields_iff.1 h
        exact ⟨[], [], State.takes_nil_iff.2 rfl, .nil, trivial, rfl,
          by simpa [Context.Ends] using closes⟩
      · split at h
        · next hsep =>
          obtain ⟨ts, as, hts, hseries, hfit, hplace, hends⟩ :=
            ih g ⟨.after p rest, met⟩ (Nat.le_of_lt hs) hlen g' u (Outcome.widen_yields_iff.1 h)
          exact ⟨p.token :: ts, as, htake.cons hts,
            .separator ((layout.separates_iff _).2 hsep) hseries, hfit, hplace, hends⟩
        · split at h
          · next a t ht hread =>
            obtain ⟨us, hus, hP, hfits, hnext⟩ :=
              sound g p.token ⟨.after p rest, met⟩ hs a t rfl ⟨ht, hread⟩
            have ht' : t.size ≤ rest.length := ht
            obtain ⟨ts, as, hts, hseries, hfit, hplace, hends⟩ :=
              ih (place g (.parsed a)) t _ (by omega) g' u (Outcome.widen_yields_iff.1 h)
            refine ⟨p.token :: us ++ ts, a :: as, (htake.cons hus).trans hts,
              .member hP ?_ hseries, ⟨hfits, hfit⟩, hplace, hends⟩
            -- The token behind the member is the first of the rest of the series.
            intro v hv
            obtain ⟨vs, rfl⟩ := List.head?_eq_some_iff.1 hv
            exact hts.1.next_iff.1 hnext
          · exact (Outcome.fail_yields_iff.1 h).elim

/-- What a strict reading of members has read: a series of members up to the end of the body. -/
theorem members_sound (layout : Layout ctx separates apart P follow)
    (sound : RuleSound P apart fits rule) {g g' : σ} {s u : State eof} {hs : s.size ≤ n}
    (h : (members .strict ctx place n rule g s hs).Yields g' u) :
    ∃ ts as, s.Takes ts u ∧ IsSeries separates apart P ts as ∧ Fitting place fits g as ∧
      placeAll place g as = g' ∧ ctx.Ends u.toCursor :=
  members_sound_of_lt layout sound (s.size + 1) g s hs (Nat.lt_succ_self _) g' u h

/-- At the end of the document reading ends with what was gathered. -/
theorem members_nil_yields {stop : Position} {met : List ParseError} {g : σ}
    {hs : (⟨⟨[], stop⟩, met⟩ : State eof).size ≤ n} :
    (members mode ctx place n rule g ⟨⟨[], stop⟩, met⟩ hs).Yields g ⟨⟨[], stop⟩, met⟩ := by
  rw [members_nil]
  exact Outcome.ok_yields_iff.2 ⟨rfl, rfl⟩

/-- Reading goes on behind a separator. -/
theorem members_separator_yields {p : Piece} {rest : List Piece} {stop : Position}
    {met : List ParseError} {g g' : σ} {v : State eof}
    {hs : (⟨⟨p :: rest, stop⟩, met⟩ : State eof).size ≤ n}
    {hs' : (⟨.after p rest, met⟩ : State eof).size ≤ n} (hsep : ctx.separates p.token = true)
    (h : (members mode ctx place n rule g ⟨.after p rest, met⟩ hs').Yields g' v) :
    (members mode ctx place n rule g ⟨⟨p :: rest, stop⟩, met⟩ hs).Yields g' v := by
  rw [members]
  dsimp only
  rw [if_neg (by simp [Context.closes_of_separates hsep]), if_pos hsep]
  exact Outcome.widen_yields_iff.2 h

/-- Reading goes on behind a member. -/
theorem members_parsed_yields {p : Piece} {rest : List Piece} {stop : Position}
    {met : List ParseError} {g g' : σ} {a : α} {t v : State eof}
    {hs : (⟨⟨p :: rest, stop⟩, met⟩ : State eof).size ≤ n} {ht : t.size ≤ n}
    (hcloses : ctx.closes p.token = false) (hsep : ctx.separates p.token = false)
    (hread : (rule g p.token ⟨.after p rest, met⟩ hs).Yields a t)
    (h : (members mode ctx place n rule (place g (.parsed a)) t ht).Yields g' v) :
    (members mode ctx place n rule g ⟨⟨p :: rest, stop⟩, met⟩ hs).Yields g' v := by
  obtain ⟨hle, hread⟩ := hread
  rw [members]
  dsimp only
  rw [if_neg (by simp [hcloses]), if_neg (by simp [hsep]), hread]
  exact Outcome.widen_yields_iff.2 h

/-- What may stand behind a member stands there: the next token of the series, or what stands behind
the series. -/
theorem IsSeries.next_follow (layout : Layout ctx separates apart P follow) {ts us : List Token}
    {as : List α} (h : IsSeries separates apart P us as) (hapart : ∀ u ∈ us.head?, apart ts u)
    {c d : Cursor eof} (hus : c.Takes us d) (hnext : d.Next (follow ts)) : c.Next (follow ts) := by
  cases h with
  | nil =>
    obtain rfl := Cursor.takes_nil_iff.1 hus
    exact hnext
  | separator ht => exact hus.next_iff.2 (layout.follow_separator _ _ ht)
  | member hP =>
    obtain ⟨u, vs, rfl, -⟩ := layout.begins _ _ hP
    exact hus.next_iff.2 (layout.follow_member _ _ _ _ hP (hapart u rfl))

/-- Reading goes on behind a series of members as if it had begun there with what was gathered. -/
theorem members_complete (layout : Layout ctx separates apart P follow)
    (complete : RuleComplete P follow fits rule) {ts : List Token} {as : List α}
    (h : IsSeries separates apart P ts as) {g g' : σ} {s u v : State eof} {hs : s.size ≤ n}
    {hu : u.size ≤ n} (hts : s.Takes ts u) (hfit : Fitting place fits g as)
    (hnext : ∀ ts, u.Next (follow ts))
    (honward : (members mode ctx place n rule (placeAll place g as) u hu).Yields g' v) :
    (members mode ctx place n rule g s hs).Yields g' v := by
  induction h generalizing g s with
  | nil =>
    obtain rfl := State.takes_nil_iff.1 hts
    exact honward
  | @separator t ts as ht _ ih =>
    obtain ⟨p, rest, stop, met, rfl, rfl, htail⟩ := hts.exists_after
    have hs' : (⟨.after p rest, met⟩ : State eof).size ≤ n := Nat.le_of_lt hs
    have hrest : (members mode ctx place n rule g ⟨.after p rest, met⟩ hs').Yields g' v :=
      ih htail hfit honward
    exact members_separator_yields ((layout.separates_iff _).1 ht) hrest
  | @member ts us a as hP hapart hseries ih =>
    obtain ⟨t, ts, rfl, hcloses, hsep⟩ := layout.begins _ _ hP
    obtain ⟨x, hx, hus⟩ := State.takes_append_iff.1 hts
    obtain ⟨p, rest, stop, met, rfl, rfl, htail⟩ := hx.exists_after
    have hx' : x.size ≤ n := by
      have hsize := hx.size_eq
      omega
    have hfollow := hseries.next_follow layout hapart hus.1 (hnext _)
    have hread := complete g p.token ts a ⟨.after p rest, met⟩ hs x rfl htail hP hfit.1 hfollow
    have hrest : (members mode ctx place n rule (place g (.parsed a)) x hx').Yields g' v :=
      ih hus hfit.2 honward
    exact members_parsed_yields hcloses hsep hread hrest

/-! ## Whole bodies -/

theorem closeBody_strict_yields {s t : State eof} {recovery recovery' : Recovery}
    (h : (closeBody .strict recovery s).Yields recovery' t) :
    ∃ c, s.Takes [c] t ∧ c.kind = .rbrace ∧ recovery' = recovery := by
  rcases s with ⟨⟨_ | ⟨p, rest⟩, stop⟩, met⟩
  · exact (Outcome.fail_yields_iff.1 h).elim
  · simp only [closeBody] at h
    split at h
    · next hk =>
      obtain ⟨rfl, rfl⟩ := Outcome.ok_yields_iff.1 h
      exact ⟨p.token, .after p rest stop met, beq_iff_eq.1 hk, rfl⟩
    · exact (Outcome.fail_yields_iff.1 h).elim

theorem closeBody_yields {s t : State eof} {c : Token} (recovery : Recovery) (h : s.Takes [c] t)
    (hc : c.kind = .rbrace) : (closeBody mode recovery s).Yields recovery t := by
  obtain ⟨p, rest, stop, met, rfl, rfl, ht⟩ := h.exists_after
  obtain rfl := State.takes_nil_iff.1 ht
  simp only [closeBody]
  rw [if_pos (beq_iff_eq.2 hc)]
  exact Outcome.ok_yields_iff.2 ⟨rfl, rfl⟩

/-- A strict reading of a body has read a series of members and the brace that closes it. -/
theorem closedBody_sound (layout : Layout ctx separates apart P follow)
    (sound : RuleSound P apart fits rule) {g g' : σ} {s u v : State eof} {hs : s.size ≤ n}
    {recovery recovery' : Recovery} (h : (members .strict ctx place n rule g s hs).Yields g' u)
    (hclose : (closeBody .strict recovery u).Yields recovery' v) :
    ∃ ts as c, s.Takes (ts ++ [c]) v ∧ IsSeries separates apart P ts as ∧
      Fitting place fits g as ∧ placeAll place g as = g' ∧ c.kind = .rbrace ∧
        recovery' = recovery := by
  obtain ⟨ts, as, hts, hseries, hfit, hplace, -⟩ := members_sound layout sound h
  obtain ⟨c, hc, hk, hrec⟩ := closeBody_strict_yields hclose
  exact ⟨ts, as, c, hts.trans hc, hseries, hfit, hplace, hk, hrec⟩

/-- A series of members is read up to the brace that closes the body. -/
theorem closedBody_complete (layout : Layout ctx separates apart P follow)
    (complete : RuleComplete P follow fits rule) (hctx : ctx ≠ .topLevel) {ts : List Token}
    {c : Token} {as : List α} (h : IsSeries separates apart P ts as) {g : σ} {s v : State eof}
    (hs : s.size ≤ n) (hts : s.Takes (ts ++ [c]) v) (hfit : Fitting place fits g as)
    (hc : c.kind = .rbrace) :
    ∃ u, (members mode ctx place n rule g s hs).Yields (placeAll place g as) u ∧
      ∀ recovery, (closeBody mode recovery u).Yields recovery v := by
  obtain ⟨u, hu, hbrace⟩ := State.takes_append_iff.1 hts
  refine ⟨u, ?_, fun recovery => closeBody_yields recovery hbrace hc⟩
  have hsize : u.size ≤ n := by
    have hsize := hu.size_eq
    omega
  have hnext (ts : List Token) : u.Next (follow ts) :=
    hbrace.1.next_iff.2 (layout.follow_close ts c hc)
  -- At the brace there is no further member.
  have hstop : (members mode ctx place n rule (placeAll place g as) u hsize).Yields
      (placeAll place g as) u := by
    obtain ⟨p, rest, stop, met, rfl, rfl, -⟩ := hbrace.exists_after
    have hcloses : ctx.closes p.token = true := by simp [Context.closes, hctx, hc]
    rw [members_closed hcloses]
    exact Outcome.ok_yields_iff.2 ⟨rfl, rfl⟩
  exact members_complete layout complete h hu hfit hnext hstop

end Loop

end QuerySuite.Grammar
