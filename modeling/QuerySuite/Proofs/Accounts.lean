import Mathlib.Data.List.Perm.Subperm
import Mathlib.Tactic.SplitIfs
import QuerySuite.Grammar.Clauses
import QuerySuite.Proofs.MemberLoop

/-!
# What a clause did with the pieces

With recovery, a clause that gives a value has read some of the pieces it used up and skipped the
others, in stretches. An `Account` says which: it ties the pieces, the skipped stretches, the errors
that were noted and the regions that were recorded to each other.

A clause that fails has noted nothing. So when a failed member is skipped, no error that was noted
before it is lost.

Results:

* `Account.trans`: accounts follow each other.
* `Account.met_eq_nil_iff`: errors are noted if and only if regions are recorded.
* `members_accounts`: the account of the members of a body, from that of one member.
* `wholeBody_accounts`: the account of a body that is closed or cut off by the end of the document.
-/

namespace QuerySuite.Grammar

variable {eof : Token} {α β σ : Type}

/-! ## Skipped members -/

/-- A member that was skipped: its first piece, the pieces skipped after it, what was left behind
them, and the error it failed with. -/
structure Skip where
  lead : Piece
  more : List Piece
  left : List Piece
  error : ParseError

namespace Skip

/-- The skipped pieces. -/
def pieces (k : Skip) : List Piece := k.lead :: k.more

/-- The region that records the skipped pieces. -/
def region (k : Skip) : Region := regionOf k.lead k.more k.left

end Skip

/-- The pieces `used`, behind which `rest` is left, were read one by one, apart from the stretches
`skips`, which were skipped, in this order. A skipped member failed at one of its own tokens or
behind it. -/
inductive Covers (eof : Token) (rest : List Piece) : List Piece → List Skip → Prop where
  | nil : Covers eof rest [] []
  | read (p : Piece) {used : List Piece} {skips : List Skip} (h : Covers eof rest used skips) :
      Covers eof rest (p :: used) skips
  | skip (k : Skip) {used : List Piece} {skips : List Skip} (left : k.left = used ++ rest)
      (raised : RaisedIn ((k.pieces ++ k.left).map (·.token) ++ [eof]) k.error)
      (h : Covers eof rest used skips) : Covers eof rest (k.pieces ++ used) (k :: skips)

namespace Covers

variable {rest used more : List Piece} {skips later : List Skip}

theorem of_read (rest used : List Piece) : Covers eof rest used [] := by
  induction used with
  | nil => exact .nil
  | cons p used ih => exact .read p ih

theorem append (h : Covers eof (more ++ rest) used skips) (h' : Covers eof rest more later) :
    Covers eof rest (used ++ more) (skips ++ later) := by
  induction h with
  | nil => exact h'
  | read p _ ih => exact .read p ih
  | skip k left raised _ ih =>
    rw [List.append_assoc, List.cons_append]
    exact .skip k (by rw [left, List.append_assoc]) raised ih

theorem skips_eq_nil (h : Covers eof rest [] skips) : skips = [] := by
  generalize hu : ([] : List Piece) = used at h
  cases h with
  | nil => rfl
  | read p _ => cases hu
  | skip k _ _ _ => cases hu

/-- A skipped member failed at a token that was left where it was begun. -/
theorem raised (h : Covers eof rest used skips) {k : Skip} (hk : k ∈ skips) :
    RaisedIn ((used ++ rest).map (·.token) ++ [eof]) k.error := by
  induction h with
  | nil => simp at hk
  | read p _ ih => exact (ih hk).mono (List.subset_cons_self _ _)
  | @skip k' used skips left raised _ ih =>
    rcases List.mem_cons.1 hk with rfl | hk
    · rw [List.append_assoc, ← left]
      exact raised
    · refine (ih hk).mono fun t ht => ?_
      simp only [List.map_append, List.append_assoc] at ht ⊢
      exact List.mem_append_right _ ht

end Covers

/-! ## Accounts -/

/-- The error for a body that the end of the document cuts off. -/
def unclosed (eof : Token) : ParseError := .unexpected "'\x7d'" eof

/-- The region that marks a body which the end of the document cuts off. -/
def endMark (eof : Token) : Region := ⟨eof.start, none, []⟩

theorem span_unclosed (eof : Token) : (unclosed eof).span = eof.span :=
  RaisedAt.span_eq (.inl ⟨_, rfl⟩)

/-- From `s` to `t` the pieces `used` were used up and of these the stretches `skips` skipped, and
`regions` were recorded. -/
structure Account (s : State eof) (used : List Piece) (skips : List Skip) (regions : List Region)
    (t : State eof) : Prop where
  reads : s.toCursor.Reads used t.toCursor
  covers : Covers eof t.rest used skips
  /-- The error of each skipped member is noted. One more error is noted if a body is cut off by the
  end of the document and no error is noted there yet. -/
  noted : ∃ extra, t.met = s.met ++ skips.map (·.error) ++ extra ∧
    (extra = [] ∨ extra = [unclosed eof] ∧ t.rest = [] ∧ regions ≠ [] ∧
      ∀ e ∈ s.met ++ skips.map (·.error), e.span ≠ eof.span)
  /-- The region of each skipped member is recorded. Bodies that are cut off are marked, which only
  happens when an error is noted at the end of the document. -/
  recorded : ∃ marks, regions.Perm (skips.map (·.region) ++ List.replicate marks (endMark eof)) ∧
    (marks ≠ 0 → t.rest = [] ∧ ∃ e ∈ t.met, e.span = eof.span)

namespace Account

variable {s t u : State eof} {used more : List Piece} {skips later : List Skip}
  {regions regions' : List Region}

/-- Pieces that are read leave no trace. -/
theorem of_reads (h : s.toCursor.Reads used t.toCursor) (hm : t.met = s.met) :
    Account s used [] [] t where
  reads := h
  covers := .of_read _ _
  noted := ⟨[], by simp [hm], .inl rfl⟩
  recorded := ⟨0, by simp, by simp⟩

theorem refl (s : State eof) : Account s [] [] [] s := of_reads (.refl _) rfl

theorem perm (h : Account s used skips regions t) (hp : regions.Perm regions') :
    Account s used skips regions' t where
  reads := h.reads
  covers := h.covers
  noted := by
    obtain ⟨extra, hm, hx⟩ := h.noted
    refine ⟨extra, hm, hx.imp id fun ⟨h1, h2, h3, h4⟩ => ⟨h1, h2, ?_, h4⟩⟩
    rintro rfl
    exact h3 hp.eq_nil
  recorded := by
    obtain ⟨marks, hr, hk⟩ := h.recorded
    exact ⟨marks, hp.symm.trans hr, hk⟩

/-- Nothing that was noted is forgotten. -/
theorem met_prefix (h : Account s used skips regions t) : s.met <+: t.met := by
  obtain ⟨extra, hm, -⟩ := h.noted
  exact ⟨skips.map (·.error) ++ extra, by rw [hm, List.append_assoc]⟩

/-- Every error that is noted on the way is raised at a token that was left. -/
theorem raised (h : Account s used skips regions t) {e : ParseError} (he : e ∈ t.met) :
    e ∈ s.met ∨ RaisedIn s.tokens e := by
  obtain ⟨extra, hm, hx⟩ := h.noted
  rw [hm, List.append_assoc, List.mem_append, List.mem_append] at he
  rcases he with he | he | he
  · exact .inl he
  · obtain ⟨k, hk, rfl⟩ := List.mem_map.1 he
    have hr := h.covers.raised hk
    rw [← h.reads.rest_eq] at hr
    exact .inr hr
  · rcases hx with rfl | ⟨rfl, -, -, -⟩
    · simp at he
    · obtain rfl := List.mem_singleton.1 he
      refine .inr (.unexpected ?_ _)
      rw [Cursor.tokens]
      exact List.mem_append_right _ (List.mem_singleton.2 rfl)

/-- Errors are noted if and only if regions are recorded. -/
theorem met_eq_nil_iff (h : Account s used skips regions t) (hs : s.met = []) :
    t.met = [] ↔ regions = [] := by
  obtain ⟨extra, hm, hx⟩ := h.noted
  obtain ⟨marks, hr, hk⟩ := h.recorded
  rw [hs, List.nil_append] at hm
  constructor
  · intro ht
    rw [ht] at hm
    obtain ⟨hskips, -⟩ := List.append_eq_nil_iff.1 hm.symm
    obtain rfl := List.map_eq_nil_iff.1 hskips
    have hmarks : marks = 0 := by
      by_contra hne
      obtain ⟨-, e, he, -⟩ := hk hne
      rw [ht] at he
      simp at he
    rw [hmarks] at hr
    simpa using hr
  · rintro rfl
    obtain ⟨hskips, -⟩ := List.append_eq_nil_iff.1 hr.symm.eq_nil
    obtain rfl := List.map_eq_nil_iff.1 hskips
    rcases hx with rfl | ⟨-, -, hne, -⟩
    · exact hm
    · exact absurd rfl hne

theorem trans (h : Account s used skips regions t) (h' : Account t more later regions' u) :
    Account s (used ++ more) (skips ++ later) (regions ++ regions') u where
  reads := h.reads.trans h'.reads
  covers := by
    refine .append ?_ h'.covers
    rw [← h'.reads.rest_eq]
    exact h.covers
  noted := by
    obtain ⟨x, hx, hx'⟩ := h.noted
    obtain ⟨y, hy, hy'⟩ := h'.noted
    rcases hx' with rfl | ⟨rfl, hrest, hreg, hspan⟩
    · refine ⟨y, by simp [hy, hx], hy'.imp id fun ⟨h1, h2, h3, h4⟩ => ⟨h1, h2, by simp [h3], ?_⟩⟩
      simpa [hx] using h4
    · -- The document has ended: nothing more is skipped or noted.
      have hr := h'.reads.rest_eq
      rw [hrest] at hr
      obtain ⟨rfl, hu⟩ := List.append_eq_nil_iff.1 hr.symm
      obtain rfl := h'.covers.skips_eq_nil
      rcases hy' with rfl | ⟨-, -, -, hspan'⟩
      · refine ⟨[unclosed eof], by simp [hy, hx], .inr ⟨rfl, hu, by simp [hreg], ?_⟩⟩
        simpa using hspan
      · exact absurd (span_unclosed eof) (hspan' (unclosed eof) (by simp [hx]))
  recorded := by
    obtain ⟨m, hm, hm'⟩ := h.recorded
    obtain ⟨k, hk, hk'⟩ := h'.recorded
    refine ⟨m + k, ?_, ?_⟩
    · rw [List.perm_iff_count] at hm hk ⊢
      intro r
      have h1 := hm r
      have h2 := hk r
      simp only [List.count_append, List.map_append, List.replicate_add] at h1 h2 ⊢
      omega
    · intro hne
      by_cases hk0 : k = 0
      · obtain ⟨hrest, e, he, hs⟩ := hm' (by omega)
        have hr := h'.reads.rest_eq
        rw [hrest] at hr
        exact ⟨(List.append_eq_nil_iff.1 hr.symm).2, e, h'.met_prefix.subset he, hs⟩
      · exact hk' hk0

end Account

/-- The pieces from `s` to `t` are accounted for, and `regions` are what was recorded. -/
def Accounted (s : State eof) (regions : List Region) (t : State eof) : Prop :=
  ∃ used skips, Account s used skips regions t

namespace Accounted

variable {s t u : State eof} {regions regions' : List Region}

theorem of_reads {used : List Piece} (h : s.toCursor.Reads used t.toCursor) (hm : t.met = s.met) :
    Accounted s [] t := ⟨used, [], .of_reads h hm⟩

theorem refl (s : State eof) : Accounted s [] s := ⟨[], [], .refl s⟩

theorem perm (h : Accounted s regions t) (hp : regions.Perm regions') : Accounted s regions' t := by
  obtain ⟨used, skips, h⟩ := h
  exact ⟨used, skips, h.perm hp⟩

theorem trans (h : Accounted s regions t) (h' : Accounted t regions' u) :
    Accounted s (regions ++ regions') u := by
  obtain ⟨used, skips, h⟩ := h
  obtain ⟨more, later, h'⟩ := h'
  exact ⟨used ++ more, skips ++ later, h.trans h'⟩

end Accounted

/-! ## The contract of an outcome -/

/-- What a phrase does as a clause: the errors noted stay as they are. -/
theorem Clause.ofPhrase_cases (p : Phrase eof α) (s : State eof) :
    (∃ a t hd ht, p s.toCursor = .ok a t.toCursor hd ∧ t.met = s.met ∧ ofPhrase p s = .ok a t ht) ∨
      ∃ e, p s.toCursor = .fail e ∧ ofPhrase p s = .fail e s.met := by
  unfold ofPhrase
  cases h : p s.toCursor with
  | ok a d hd => exact .inl ⟨a, ⟨d, s.met⟩, hd, hd, rfl, rfl, rfl⟩
  | fail e => exact .inr ⟨e, rfl, rfl⟩

/-- The outcome of a clause that was begun at `s`: on success the pieces are accounted for,
`regions` tells what was recorded, and `P` holds; a clause that fails has noted nothing. -/
def Outcome.Accounts (s : State eof) (regions : α → List Region) (P : α → State eof → Prop)
    {n : Nat} : Outcome eof α n → Prop
  | .ok a t _ => Accounted s (regions a) t ∧ P a t
  | .fail e met => met = s.met ∧ RaisedIn s.tokens e

namespace Outcome.Accounts

variable {s t : State eof} {n : Nat} {regions : α → List Region} {P : α → State eof → Prop}
  {regions' : β → List Region} {Q : β → State eof → Prop}

/-- A value that is given without reading. -/
theorem here {a : α} {h : s.size ≤ n} (hr : regions a = []) (hP : P a s) :
    Outcome.Accounts s regions P (.ok a s h : Outcome eof α n) :=
  ⟨hr ▸ .refl s, hP⟩

theorem of_gives {r : Outcome eof α n}
    (h : r.Gives fun a t => Accounted s (regions a) t ∧ P a t) : r.Accounts s regions P := by
  obtain ⟨a, t, ht, rfl, h⟩ := h.exists_eq
  exact h

theorem mono {P' : α → State eof → Prop} {r : Outcome eof α n} (h : r.Accounts s regions P)
    (hP : ∀ a t, P a t → P' a t) : r.Accounts s regions P' := by
  cases r with
  | ok a t ht => exact ⟨h.1, hP a t h.2⟩
  | fail e met => exact h

theorem widen {m : Nat} {r : Outcome eof α n} (h : r.Accounts s regions P) (hm : n ≤ m) :
    (r.widen hm).Accounts s regions P := by
  cases r with
  | ok a t ht => exact h
  | fail e met => exact h

/-- A clause that was begun behind some pieces that were read. -/
theorem before {used : List Piece} {r : Outcome eof α n} (h : r.Accounts t regions P)
    (hr : s.toCursor.Reads used t.toCursor) (hm : t.met = s.met) : r.Accounts s regions P := by
  cases r with
  | ok a u hu => exact ⟨(Accounted.of_reads hr hm).trans h.1, h.2⟩
  | fail e met => exact ⟨h.1.trans hm, h.2.mono hr.tokens_subset⟩

/-- A clause that was begun behind the piece `p`. -/
theorem behind {p : Piece} {rest : List Piece} {stop : Position} {met : List ParseError}
    {r : Outcome eof α n} (h : r.Accounts ⟨.after p rest, met⟩ regions P) :
    r.Accounts ⟨⟨p :: rest, stop⟩, met⟩ regions P :=
  h.before (.after p rest stop) rfl

/-- A phrase is a clause that notes and records nothing. It is read at `t`, behind `s`. -/
theorem of_phrase {p : Phrase eof α} {P : α → Cursor eof → Prop} (hm : t.met = s.met)
    (h : (p t.toCursor).From s.toCursor P) (hr : ∀ a d, P a d → regions a = []) :
    (Clause.ofPhrase p t).Accounts s regions fun a u => P a u.toCursor := by
  rcases Clause.ofPhrase_cases p t with ⟨a, u, hd, hu, hp, hm', hc⟩ | ⟨e, hp, hc⟩
  · rw [hp] at h
    obtain ⟨hP, used, hreads⟩ := h
    rw [hc]
    refine ⟨?_, hP⟩
    rw [hr a _ hP]
    exact .of_reads hreads (hm'.trans hm)
  · rw [hp] at h
    rw [hc]
    exact ⟨hm, h⟩

/-- A clause behind a phrase. -/
theorem phrase_andThen {p : Phrase eof α} {P : α → Cursor eof → Prop}
    {f : α → (t : State eof) → t.size ≤ s.size → Outcome eof β t.size}
    (h : (p s.toCursor).From s.toCursor P)
    (hf : ∀ a t ht, P a t.toCursor → (f a t ht).Accounts t regions' Q) :
    ((Clause.ofPhrase p s).andThen f).Accounts s regions' Q := by
  rcases Clause.ofPhrase_cases p s with ⟨a, t, hd, ht, hp, hm, hc⟩ | ⟨e, hp, hc⟩
  · rw [hp] at h
    obtain ⟨hP, used, hreads⟩ := h
    rw [hc, Outcome.andThen_ok]
    exact ((hf a t ht hP).before hreads hm).widen _
  · rw [hp] at h
    rw [hc]
    exact ⟨rfl, h⟩

/-- A clause whose value is changed at the end. -/
theorem andThen_ok {r : Outcome eof α n} {f : α → State eof → β} (h : r.Accounts s regions P)
    (hf : ∀ a t, P a t → (regions a).Perm (regions' (f a t)) ∧ Q (f a t) t) :
    (r.andThen fun a t _ => .ok (f a t) t t.le_refl).Accounts s regions' Q := by
  cases r with
  | fail e met => exact h
  | ok a t ht =>
    obtain ⟨hp, hq⟩ := hf a t h.2
    exact ⟨h.1.perm hp, hq⟩

/-- A clause behind a phrase, written as a sequence. -/
theorem phrase_bind {p : Phrase eof α} {P : α → Cursor eof → Prop} {f : α → Clause eof β}
    (h : (p s.toCursor).From s.toCursor P)
    (hf : ∀ a t, P a t.toCursor → (f a t).Accounts t regions' Q) :
    ((Clause.ofPhrase p >>= f) s).Accounts s regions' Q :=
  phrase_andThen (f := fun a t _ => f a t) h fun a t _ hP => hf a t hP

end Outcome.Accounts

/-! ## Bodies -/

section Body

variable {ctx : Context} {place : σ → Member α → σ} {rule : σ → Token → Clause eof α}
  {regions : α → List Region} {gathered : σ → List Region} {P : α → State eof → Prop}

/-- A member that is skipped where it failed without noting anything. -/
theorem Account.of_skip (ctx : Context) (p : Piece) (rest : List Piece) (stop : Position)
    (met : List ParseError) (e : ParseError)
    (h : RaisedIn (⟨p :: rest, stop⟩ : Cursor eof).tokens e) :
    Account (⟨⟨p :: rest, stop⟩, met⟩ : State eof) (p :: skippedAfter ctx p rest)
      [⟨p, skippedAfter ctx p rest, leftAfter ctx p rest, e⟩] [(resume eof ctx p rest).1]
      ⟨(resume eof ctx p rest).2, met ++ [e]⟩ where
  reads := resume_reads ctx p rest stop
  covers := by
    have hc : Covers eof (leftAfter ctx p rest) (p :: skippedAfter ctx p rest ++ [])
        [⟨p, skippedAfter ctx p rest, leftAfter ctx p rest, e⟩] := by
      refine .skip ⟨p, skippedAfter ctx p rest, leftAfter ctx p rest, e⟩ rfl ?_ .nil
      simpa [Skip.pieces, skippedAfter_append, Cursor.tokens] using h
    rwa [List.append_nil] at hc
  noted := ⟨[], by simp, .inl rfl⟩
  recorded := ⟨0, by simp [Skip.region, resume_fst], by simp⟩

/-- The contract of a member rule: begun behind its first piece, it accounts for that piece too, and
what it gives adds its regions to those that were gathered. -/
def RuleAccounts (ctx : Context) (place : σ → Member α → σ) (rule : σ → Token → Clause eof α)
    (regions : α → List Region) (gathered : σ → List Region) (n : Nat) : Prop :=
  ∀ g p rest stop met, rest.length < n → ctx.closes p.token = false →
    (rule g p.token ⟨.after p rest, met⟩).Accounts (⟨⟨p :: rest, stop⟩, met⟩ : State eof) regions
      fun a _ => (gathered (place g (.parsed a))).Perm (gathered g ++ regions a)

/-- What one turn records is added to what was gathered. -/
theorem turn_accounted {n : Nat} (hrule : RuleAccounts ctx place rule regions gathered n)
    (hskip : ∀ g r, (gathered (place g (.skipped r))).Perm (gathered g ++ [r]))
    {g g' : σ} {s t : State eof} (hs : s.size ≤ n) (turn : Turn ctx place rule (g, s) (g', t)) :
    ∃ added, Accounted s added t ∧ (gathered g').Perm (gathered g ++ added) := by
  cases turn with
  | @separator _ p rest stop met inside separates =>
    exact ⟨[], .of_reads (.after p rest stop) rfl, by simp⟩
  | @parsed _ p rest stop met a _ ht inside begins read =>
    have h := hrule g p rest stop met hs inside
    rw [read] at h
    exact ⟨regions a, h.1, h.2⟩
  | @skipped _ p rest stop met e inner inside begins failed =>
    have h := hrule g p rest stop met hs inside
    rw [failed] at h
    obtain ⟨rfl, raised⟩ := h
    rw [List.take_length]
    exact ⟨_, ⟨_, _, .of_skip ctx p rest stop inner e raised⟩, hskip g _⟩

/-- The account of the members of a body, from that of one member. -/
theorem members_accounts {n : Nat} (hrule : RuleAccounts ctx place rule regions gathered n)
    (hskip : ∀ g r, (gathered (place g (.skipped r))).Perm (gathered g ++ [r]))
    (g : σ) (s : State eof) (hs : s.size ≤ n) :
    (members .recovery ctx place n (fun g lead t _ => rule g lead t) g s hs).Gives fun g' u =>
      (∃ added, Accounted s added u ∧ (gathered g').Perm (gathered g ++ added)) ∧
        ctx.Ends u.toCursor := by
  refine members_invariant
    (fun g' u => ∃ added, Accounted s added u ∧ (gathered g').Perm (gathered g ++ added)) ?_ hs
    ⟨[], .refl s, by simp⟩
  rintro g₁ s₁ g₂ s₂ hs₁ turn ⟨added, h, hp⟩
  obtain ⟨more, h', hp'⟩ := turn_accounted hrule hskip hs₁ turn
  refine ⟨added ++ more, h.trans h', ?_⟩
  rw [← List.append_assoc]
  exact hp'.trans (hp.append_right more)

/-- The errors that are noted when the document ends in a body. -/
def noteUnclosed (eof : Token) (met : List ParseError) : List ParseError :=
  if met.any (·.span == (unclosed eof).span) then met else met ++ [unclosed eof]

theorem exists_mem_noteUnclosed (eof : Token) (met : List ParseError) :
    ∃ e ∈ noteUnclosed eof met, e.span = eof.span := by
  unfold noteUnclosed
  split_ifs with h
  · simpa [span_unclosed] using h
  · exact ⟨unclosed eof, by simp, span_unclosed eof⟩

/-- A body that the end of the document cuts off, and marks that are left there. -/
theorem Account.cut_off {s : State eof} {used : List Piece} {skips : List Skip}
    {recorded : List Region} {stop : Position} {met : List ParseError}
    (h : Account s used skips recorded ⟨⟨[], stop⟩, met⟩) (k : Nat)
    (hne : recorded ++ List.replicate k (endMark eof) ≠ []) :
    Account s used skips (recorded ++ List.replicate k (endMark eof))
      ⟨⟨[], stop⟩, noteUnclosed eof met⟩ where
  reads := h.reads
  covers := h.covers
  noted := by
    obtain ⟨extra, hmet, hextra⟩ := h.noted
    dsimp only at hmet hextra
    unfold noteUnclosed
    split_ifs with hany
    · exact ⟨extra, hmet, hextra.imp id fun ⟨h1, h2, _, h4⟩ => ⟨h1, h2, hne, h4⟩⟩
    · have hspan : ∀ e ∈ met, e.span ≠ eof.span := by simpa [span_unclosed] using hany
      rcases hextra with rfl | ⟨rfl, -, -, -⟩
      · rw [List.append_nil] at hmet
        exact ⟨[unclosed eof], by simp [hmet], .inr ⟨rfl, rfl, hne, by rwa [← hmet]⟩⟩
      · exact absurd (span_unclosed eof) (hspan _ (by simp [hmet]))
  recorded := by
    obtain ⟨m, hperm, -⟩ := h.recorded
    refine ⟨m + k, ?_, fun _ => ⟨rfl, exists_mem_noteUnclosed eof met⟩⟩
    rw [List.replicate_add, ← List.append_assoc]
    exact hperm.append_right _

theorem closeBody_nil (recovery : Recovery) (stop : Position) (met : List ParseError) :
    closeBody .recovery recovery (⟨⟨[], stop⟩, met⟩ : State eof) =
      .ok (if recovery.contains eof.start then recovery
          else recovery.absorb (.ofRegion (endMark eof)))
        ⟨⟨[], stop⟩, noteUnclosed eof met⟩ (Nat.le_refl _) := rfl

theorem closeBody_cons {p : Piece} (h : p.token.kind = .rbrace) (mode : Mode) (recovery : Recovery)
    (rest : List Piece) (stop : Position) (met : List ParseError) :
    closeBody mode recovery (⟨⟨p :: rest, stop⟩, met⟩ : State eof) =
      .ok recovery ⟨.after p rest, met⟩ (State.after_le p rest stop met) := by
  simp [closeBody, h]

/-- Closing a body, or cutting it off where the document ends, completes its account. -/
theorem closeBody_accounts {s u : State eof} {recorded : List Region} {recovery : Recovery}
    (h : Accounted s recorded u) (hsub : recovery.regions ⊆ recorded) (ends : ctx.Ends u.toCursor) :
    (closeBody .recovery recovery u).Gives fun recovery' v =>
      ∃ marks, Accounted s (recorded ++ marks) v ∧
        recovery'.regions = recovery.regions ++ marks := by
  obtain ⟨used, skips, h⟩ := h
  rcases u with ⟨⟨_ | ⟨p, rest⟩, stop⟩, met⟩
  · rw [closeBody_nil]
    by_cases hc : recovery.contains eof.start = true
    · -- The record reaches the end, so it holds a region already.
      obtain ⟨r, hr, -⟩ := (recovery.contains_iff _).1 hc
      refine ⟨[], ⟨used, skips, ?_⟩, by simp [hc]⟩
      exact h.cut_off 0 (by simpa using List.ne_nil_of_mem (hsub hr))
    · exact ⟨[endMark eof], ⟨used, skips, h.cut_off 1 (by simp)⟩, by simp [hc]⟩
  · rw [closeBody_cons (ends.kind_eq rfl)]
    refine ⟨[], ⟨used ++ [p], skips ++ [], ?_⟩, by simp⟩
    exact h.trans (.of_reads (.after p rest stop) rfl)

/-- The account of a whole body: its members up to the end, and the brace that closes it. -/
theorem wholeBody_accounts (place : σ → Member α → σ) (rule : σ → Token → Clause eof α)
    (regions : α → List Region) (gathered : σ → List Region) (record : σ → Recovery)
    (f : σ → Recovery → State eof → β) {regions' : β → List Region} {Q : β → State eof → Prop}
    {s : State eof}
    (hrule : RuleAccounts ctx place rule regions gathered s.size)
    (hskip : ∀ g r, (gathered (place g (.skipped r))).Perm (gathered g ++ [r]))
    (hrecord : ∀ g, (record g).regions ⊆ gathered g)
    (hf : ∀ g recovery v marks, recovery.regions = (record g).regions ++ marks →
      (gathered g ++ marks).Perm (regions' (f g recovery v)) ∧ Q (f g recovery v) v)
    {g : σ} (hg : gathered g = []) :
    ((members .recovery ctx place s.size (fun g lead t _ => rule g lead t) g s s.le_refl).andThen
      fun g' u _ => (closeBody .recovery (record g') u).andThen
        fun recovery v _ => .ok (f g' recovery v) v v.le_refl).Accounts s regions' Q := by
  apply Outcome.Accounts.of_gives
  refine (members_accounts hrule hskip g s s.le_refl).andThen fun g' u _ h => ?_
  obtain ⟨⟨added, hacc, hperm⟩, ends⟩ := h
  rw [hg, List.nil_append] at hperm
  have hclose := closeBody_accounts (hacc.perm hperm.symm) (hrecord g') ends
  refine hclose.andThen fun recovery v _ h => ?_
  obtain ⟨marks, hclosed, hmarks⟩ := h
  obtain ⟨hp, hq⟩ := hf g' recovery v marks hmarks
  exact ⟨hclosed.perm hp, hq⟩

end Body

end QuerySuite.Grammar
