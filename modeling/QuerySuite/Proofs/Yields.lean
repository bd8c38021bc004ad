import QuerySuite.Grammar.Member
import QuerySuite.Proofs.Productions
import QuerySuite.Proofs.Reading

/-!
# What a phrase yields

`(p c).Yields a d` says that the phrase `p`, begun at the cursor `c`, gives the value `a` and stops
at the cursor `d`; `c.Takes ts d` says that the tokens `ts` stand between the two cursors. The
meaning of a phrase is an equivalence between the two: it yields a value exactly where the tokens it
takes are spelled as a production says.

The lemmas below are those equivalences for the parts that phrases and clauses are put together
from.

Results:

* `Cursor.takes_append_iff`: tokens in a row are taken one after the other.
* `Phrase.bind_yields_iff`, `Clause.bind_yields_iff`: phrases and clauses in a row.
* `elements_yields_iff`: lists in brackets.
-/

namespace QuerySuite.Grammar

variable {eof : Token} {α β : Type}

/-! ## The tokens between two cursors -/

namespace Cursor

/-- Between the cursors `c` and `d` the tokens `ts` stand. -/
def Takes (c : Cursor eof) (ts : List Token) (d : Cursor eof) : Prop :=
  ∃ used, c.Reads used d ∧ used.map (·.token) = ts

/-- The next token, if one is left, satisfies `P`. -/
def Next (P : Token → Prop) (c : Cursor eof) : Prop := ∀ p ∈ c.rest.head?, P p.token

variable {c d e : Cursor eof} {t : Token} {ts us : List Token} {P Q : Token → Prop}

@[simp]
theorem takes_nil_iff : c.Takes [] d ↔ c = d := by
  constructor
  · rintro ⟨used, hr, hu⟩
    rw [List.map_eq_nil_iff] at hu
    subst hu
    have hrest : c.rest = d.rest := hr.rest_eq
    have hstop : d.stop = c.stop := hr.stop_eq
    cases c
    cases d
    simp_all
  · rintro rfl
    exact ⟨[], .refl c, rfl⟩

theorem takes_append_iff : c.Takes (ts ++ us) e ↔ ∃ d, c.Takes ts d ∧ d.Takes us e := by
  constructor
  · rintro ⟨used, hr, hu⟩
    obtain ⟨front, back, rfl, rfl, rfl⟩ := List.map_eq_append_iff.1 hu
    have hrest := hr.rest_eq
    have hstop := hr.stop_eq
    rw [List.append_assoc] at hrest
    rw [stopAfter_append] at hstop
    exact ⟨⟨back ++ e.rest, stopAfter c.stop front⟩, ⟨front, ⟨hrest, rfl⟩, rfl⟩,
      back, ⟨rfl, hstop⟩, rfl⟩
  · rintro ⟨d, ⟨front, hf, rfl⟩, back, hb, rfl⟩
    exact ⟨front ++ back, hf.trans hb, List.map_append⟩

theorem takes_cons_iff : c.Takes (t :: ts) e ↔ ∃ d, c.Takes [t] d ∧ d.Takes ts e := by
  rw [← List.singleton_append, takes_append_iff]

theorem Takes.trans (h : c.Takes ts d) (h' : d.Takes us e) : c.Takes (ts ++ us) e :=
  takes_append_iff.2 ⟨d, h, h'⟩

theorem Takes.cons (h : c.Takes [t] d) (h' : d.Takes ts e) : c.Takes (t :: ts) e := h.trans h'

theorem Takes.after (p : Piece) (rest : List Piece) (stop : Position) :
    (⟨p :: rest, stop⟩ : Cursor eof).Takes [p.token] (.after p rest) :=
  ⟨[p], .after p rest stop, rfl⟩

/-- The first token that is taken is that of the first piece. -/
theorem Takes.exists_after {p : Piece} {rest : List Piece} {stop : Position}
    (h : (⟨p :: rest, stop⟩ : Cursor eof).Takes (t :: ts) d) :
    p.token = t ∧ (Cursor.after p rest).Takes ts d := by
  obtain ⟨used, hr, hu⟩ := h
  obtain ⟨q, used, rfl, rfl, rfl⟩ := List.map_eq_cons_iff.1 hu
  obtain ⟨rfl, hrest⟩ := List.cons.inj hr.rest_eq
  exact ⟨rfl, used, ⟨hrest, hr.stop_eq⟩, rfl⟩

/-- Where tokens are taken there are pieces. -/
theorem Takes.exists_cons (h : c.Takes (t :: ts) d) : ∃ p rest, c.rest = p :: rest := by
  obtain ⟨used, hr, hu⟩ := h
  obtain ⟨q, used, rfl, -, -⟩ := List.map_eq_cons_iff.1 hu
  exact ⟨q, _, hr.rest_eq⟩

theorem Takes.size_eq (h : c.Takes ts d) : c.size = ts.length + d.size := by
  obtain ⟨used, hr, rfl⟩ := h
  rw [hr.size_eq, List.length_map]

theorem Takes.token_eq (h : c.Takes (t :: ts) d) : c.token = t := by
  obtain ⟨p, rest, hc⟩ := h.exists_cons
  rcases c with ⟨_, stop⟩
  obtain rfl : _ = p :: rest := hc
  exact h.exists_after.1

/-- Behind a token its end is the end of what was read. -/
theorem Takes.stop_eq (h : c.Takes [t] d) : d.stop = t.stop := by
  obtain ⟨used, hr, hu⟩ := h
  obtain ⟨q, used, rfl, rfl, hnil⟩ := List.map_eq_cons_iff.1 hu
  rw [List.map_eq_nil_iff] at hnil
  subst hnil
  exact hr.stop_eq

/-- Tokens that are taken behind `t` reach, with it, up to the end of what was read. -/
theorem Takes.extent_behind (h : c.Takes ts d) (hc : c.stop = t.stop) :
    extent (t :: ts) = ⟨t.start, d.stop⟩ := by
  obtain ⟨used, hr, rfl⟩ := h
  have hstop := stopAfter_eq_getLast ⟨t, [], true⟩ used
  rw [← hc, ← hr.stop_eq] at hstop
  rw [extent, hstop, List.getLast?_map]
  cases used.getLast? <;> rfl

theorem Takes.extent_eq (h : c.Takes (t :: ts) d) : extent (t :: ts) = ⟨t.start, d.stop⟩ := by
  obtain ⟨e, ht, hts⟩ := takes_cons_iff.1 h
  exact hts.extent_behind ht.stop_eq

theorem Takes.next_iff (h : c.Takes (t :: ts) d) : c.Next P ↔ P t := by
  obtain ⟨used, hr, hu⟩ := h
  obtain ⟨q, used, rfl, rfl, -⟩ := List.map_eq_cons_iff.1 hu
  simp [Next, hr.rest_eq]

theorem Next.mono (h : c.Next P) (hPQ : ∀ t, P t → Q t) : c.Next Q := fun p hp => hPQ _ (h p hp)

theorem read?_eq_some_iff {accepts : Token → Bool} :
    c.read? accepts = some (t, d) ↔ c.Takes [t] d ∧ accepts t = true := by
  constructor
  · intro h
    obtain ⟨p, rfl, hr⟩ := read?_reads h
    exact ⟨⟨[p], hr, rfl⟩, (read?_eq_some h).2.1⟩
  · rintro ⟨ht, ha⟩
    obtain ⟨p, rest, hc⟩ := ht.exists_cons
    rcases c with ⟨_, stop⟩
    obtain rfl : _ = p :: rest := hc
    obtain ⟨rfl, hd⟩ := ht.exists_after
    obtain rfl := takes_nil_iff.1 hd
    simp [read?, ha]

theorem read?_eq_none_iff {accepts : Token → Bool} :
    c.read? accepts = none ↔ c.Next (accepts · = false) := by
  rcases c with ⟨_ | ⟨p, rest⟩, stop⟩ <;> simp [read?, Next]

/-- There is one first token. -/
theorem Takes.unique {t' : Token} {d' : Cursor eof} (h : c.Takes [t] d) (h' : c.Takes [t'] d') :
    t = t' ∧ d = d' := by
  have hread : c.read? (fun _ => true) = some (t, d) := read?_eq_some_iff.2 ⟨h, rfl⟩
  rw [read?_eq_some_iff.2 ⟨h', rfl⟩] at hread
  cases hread
  exact ⟨rfl, rfl⟩

end Cursor

/-! ## Replies -/

/-- The reply is the value `a`, and reading stops at `d`. -/
def Reply.Yields {n : Nat} (r : Reply eof α n) (a : α) (d : Cursor eof) : Prop :=
  ∃ h, r = .ok a d h

namespace Reply

variable {n : Nat} {r : Reply eof α n} {a : α} {b : β} {d e : Cursor eof}

@[simp]
theorem ok_yields_iff {a' : α} {h : e.size ≤ n} :
    (.ok a' e h : Reply eof α n).Yields a d ↔ a' = a ∧ e = d := by
  constructor
  · rintro ⟨_, heq⟩
    cases heq
    exact ⟨rfl, rfl⟩
  · rintro ⟨rfl, rfl⟩
    exact ⟨h, rfl⟩

@[simp]
theorem fail_yields_iff {error : ParseError} :
    (.fail error : Reply eof α n).Yields a d ↔ False := by simp [Yields]

@[simp]
theorem widen_yields_iff {m : Nat} {h : n ≤ m} : (r.widen h).Yields a d ↔ r.Yields a d := by
  cases r <;> simp [widen]

@[simp]
theorem map_yields_iff {f : α → β} : (r.map f).Yields b d ↔ ∃ a, r.Yields a d ∧ f a = b := by
  cases r <;> simp [map, and_comm]

theorem andThen_yields_iff {f : α → (d : Cursor eof) → d.size ≤ n → Reply eof β d.size} :
    (r.andThen f).Yields b e ↔ ∃ a d hd, r.Yields a d ∧ (f a d hd).Yields b e := by
  cases r with
  | fail error => simp
  | ok a d hd =>
    rw [andThen_ok, widen_yields_iff]
    constructor
    · intro h
      exact ⟨a, d, hd, ok_yields_iff.2 ⟨rfl, rfl⟩, h⟩
    · rintro ⟨a', d', hd', hok, h⟩
      obtain ⟨rfl, rfl⟩ := ok_yields_iff.1 hok
      exact h

theorem Yields.size_le (h : r.Yields a d) : d.size ≤ n := by
  obtain ⟨hd, -⟩ := h
  exact hd

/-- A phrase whose value is changed at the end. -/
theorem andThen_ok_yields_iff {f : α → Cursor eof → β} :
    (r.andThen fun a d _ => .ok (f a d) d d.le_refl).Yields b e ↔
      ∃ a, r.Yields a e ∧ f a e = b := by
  rw [andThen_yields_iff]
  constructor
  · rintro ⟨a, d, hd, hr, hok⟩
    obtain ⟨rfl, rfl⟩ := ok_yields_iff.1 hok
    exact ⟨a, hr, rfl⟩
  · rintro ⟨a, hr, rfl⟩
    exact ⟨a, e, hr.size_le, hr, ok_yields_iff.2 ⟨rfl, rfl⟩⟩

end Reply

namespace Phrase

variable {c d e : Cursor eof} {accepts : Token → Bool} {expected : String}

theorem bind_yields_iff {p : Phrase eof α} {f : α → Phrase eof β} {b : β} :
    ((p >>= f) c).Yields b e ↔ ∃ a d, (p c).Yields a d ∧ (f a d).Yields b e := by
  rw [bind_apply, Reply.andThen_yields_iff]
  constructor
  · rintro ⟨a, d, _, hp, hf⟩
    exact ⟨a, d, hp, hf⟩
  · rintro ⟨a, d, hp, hf⟩
    exact ⟨a, d, hp.size_le, hp, hf⟩

@[simp]
theorem pure_yields_iff {a b : α} : ((pure a : Phrase eof α) c).Yields b d ↔ a = b ∧ c = d :=
  Reply.ok_yields_iff

@[simp]
theorem lastStop_yields_iff {stop : Position} :
    (lastStop c).Yields stop d ↔ c.stop = stop ∧ c = d := Reply.ok_yields_iff

/-- A phrase that ends with the node it makes. -/
theorem lastStop_bind_yields_iff {f : Position → α} {a : α} :
    ((lastStop >>= fun stop => pure (f stop) : Phrase eof α) c).Yields a d ↔
      f c.stop = a ∧ c = d := by
  simp only [bind_yields_iff, lastStop_yields_iff, pure_yields_iff]
  constructor
  · rintro ⟨stop, e, ⟨rfl, rfl⟩, h⟩
    exact h
  · intro h
    exact ⟨c.stop, c, ⟨rfl, rfl⟩, h⟩

@[simp]
theorem expect_yields_iff {t : Token} :
    (expect accepts expected c).Yields t d ↔ c.Takes [t] d ∧ accepts t = true := by
  rw [← Cursor.read?_eq_some_iff]
  unfold expect
  split
  · next h => simp [h]
  · next h => simp [h]

theorem next?_yields_iff {o : Option Token} :
    (next? accepts c).Yields o d ↔
      (o = none ∧ c = d ∧ c.Next (accepts · = false)) ∨
        ∃ t, o = some t ∧ c.Takes [t] d ∧ accepts t = true := by
  unfold next?
  split
  · next t e h =>
    have hnone : ¬ c.Next (accepts · = false) := by simp [← Cursor.read?_eq_none_iff, h]
    simp only [Reply.ok_yields_iff, hnone, and_false, false_or, ← Cursor.read?_eq_some_iff, h]
    constructor
    · rintro ⟨rfl, rfl⟩
      exact ⟨t, rfl, rfl⟩
    · rintro ⟨u, rfl, hu⟩
      cases hu
      exact ⟨rfl, rfl⟩
  · next h =>
    have hnext := Cursor.read?_eq_none_iff.1 h
    simp only [Reply.ok_yields_iff, hnext, and_true, ← Cursor.read?_eq_some_iff, h, reduceCtorEq,
      and_false, exists_false, or_false, @eq_comm _ none o]

@[simp]
theorem ofKind_yields_iff {k : Token.Kind} {t : Token} :
    (ofKind k expected c).Yields t d ↔ c.Takes [t] d ∧ t.kind = k := by
  simp [ofKind]

@[simp]
theorem name_yields_iff {text : String} :
    (name expected c).Yields text d ↔ ∃ t, c.Takes [t] d ∧ t.isName = true ∧ t.text = text := by
  rw [name, bind_yields_iff]
  constructor
  · rintro ⟨t, e, ht, hpure⟩
    obtain ⟨htake, hname⟩ := expect_yields_iff.1 ht
    obtain ⟨rfl, rfl⟩ := pure_yields_iff.1 hpure
    exact ⟨t, htake, hname, rfl⟩
  · rintro ⟨t, htake, hname, rfl⟩
    exact ⟨t, d, expect_yields_iff.2 ⟨htake, hname⟩, pure_yields_iff.2 ⟨rfl, rfl⟩⟩

end Phrase

/-! ## Lists in brackets -/

/-- The kinds of tokens that close a list. -/
def closers : List Token.Kind := [.rparen, .rbracket, .rbrace]

/-- What `P` describes begins with a token that closes no list. -/
def Opens (P : List Token → α → Prop) : Prop :=
  ∀ ts a, P ts a → ∃ t us, ts = t :: us ∧ t.kind ∉ closers

theorem ne_comma_of_mem_closers {close : Token.Kind} (h : close ∈ closers) : close ≠ .comma := by
  rintro rfl
  exact absurd h (by decide)

/-- Where nothing is left, nothing that `P` describes is left. -/
theorem Opens.not_takes_nil {P : List Token → α → Prop} (hP : Opens P) {ts : List Token} {a : α}
    (ha : P ts a) {stop : Position} {d : Cursor eof} : ¬ (⟨[], stop⟩ : Cursor eof).Takes ts d := by
  intro hts
  obtain ⟨t, us, rfl, -⟩ := hP ts a ha
  obtain ⟨p, rest, hp⟩ := hts.exists_cons
  cases hp

section Elements

variable {close : Token.Kind} {expected : String}

/-- A list in brackets: its end, or its first element and what follows that. -/
theorem elements_yields_cases {c d : Cursor eof} {as : List α} (hclose : close ≠ .comma)
    {element : (d : Cursor eof) → d.size ≤ c.size → Reply eof α d.size} :
    (elements close expected c element).Yields as d ↔
      (∃ t, c.Takes [t] d ∧ t.kind = close ∧ as = []) ∨
        c.Next (·.kind ≠ close) ∧ ∃ a x, (element c c.le_refl).Yields a x ∧
          ((∃ t, x.Takes [t] d ∧ t.kind = close ∧ as = [a]) ∨
            ∃ comma y bs, ∃ hy : y.size ≤ c.size, x.Takes [comma] y ∧ comma.kind = .comma ∧
              (elements close expected y fun z hz =>
                element z (Cursor.le_trans hz hy)).Yields bs d ∧ as = a :: bs) := by
  rw [elements]
  split
  · next t e h =>
    obtain ⟨ht, hk⟩ := Cursor.read?_eq_some_iff.1 h
    rw [beq_iff_eq] at hk
    have hnext : ¬ c.Next (·.kind ≠ close) := by rw [ht.next_iff]; exact not_not.2 hk
    simp only [Reply.ok_yields_iff, hnext, false_and, or_false]
    constructor
    · rintro ⟨rfl, rfl⟩
      exact ⟨t, ht, hk, rfl⟩
    · rintro ⟨u, hu, -, rfl⟩
      exact ⟨rfl, (ht.unique hu).2⟩
  · next h =>
    have hnext : c.Next (·.kind ≠ close) :=
      (Cursor.read?_eq_none_iff.1 h).mono fun t ht => by simpa using ht
    have hlast : ¬ ∃ t, c.Takes [t] d ∧ t.kind = close ∧ as = [] := by
      rintro ⟨t, ht, hk, -⟩
      exact ht.next_iff.1 hnext hk
    rw [Reply.andThen_yields_iff]
    simp only [hlast, hnext, true_and, false_or]
    constructor
    · rintro ⟨a, x, hx, ha, hrest⟩
      refine ⟨a, x, ha, ?_⟩
      split at hrest
      · next t y h₂ =>
        obtain ⟨ht, hk⟩ := Cursor.read?_eq_some_iff.1 h₂
        obtain ⟨rfl, rfl⟩ := Reply.ok_yields_iff.1 hrest
        exact .inl ⟨t, ht, beq_iff_eq.1 hk, rfl⟩
      · split at hrest
        · exact (Reply.fail_yields_iff.1 hrest).elim
        · next comma y h₃ =>
          obtain ⟨hcomma, hk⟩ := Cursor.read?_eq_some_iff.1 h₃
          obtain ⟨bs, hbs, rfl⟩ := Reply.map_yields_iff.1 (Reply.widen_yields_iff.1 hrest)
          have hy := Cursor.le_trans (Cursor.size_le_of_read? h₃) hx
          exact .inr ⟨comma, y, bs, hy, hcomma, beq_iff_eq.1 hk, hbs, rfl⟩
    · rintro ⟨a, x, ha, hrest⟩
      refine ⟨a, x, ha.size_le, ha, ?_⟩
      rcases hrest with ⟨t, ht, hk, rfl⟩ | ⟨comma, y, bs, hy, hcomma, hk, hbs, rfl⟩
      · have h₂ : x.read? (·.kind == close) = some (t, d) :=
          Cursor.read?_eq_some_iff.2 ⟨ht, beq_iff_eq.2 hk⟩
        split
        · next u e h =>
          rw [h₂] at h
          cases h
          exact Reply.ok_yields_iff.2 ⟨rfl, rfl⟩
        · next h => simp [h₂] at h
      · have h₂ : x.read? (·.kind == close) = none := by
          rw [Cursor.read?_eq_none_iff, hcomma.next_iff, hk]
          exact beq_eq_false_iff_ne.2 hclose.symm
        have h₃ : x.read? (·.kind == .comma) = some (comma, y) :=
          Cursor.read?_eq_some_iff.2 ⟨hcomma, beq_iff_eq.2 hk⟩
        split
        · next h => simp [h₂] at h
        · split
          · next h => simp [h₃] at h
          · next u e h =>
            rw [h₃] at h
            cases h
            exact Reply.widen_yields_iff.2 (Reply.map_yields_iff.2 ⟨bs, hbs, rfl⟩)

/-- A list that holds anything begins with a token that its elements can begin with. -/
theorem IsList.head_notMem {P : List Token → α → Prop} {ts : List Token} {a : α} {as : List α}
    (h : IsList P ts (a :: as)) (hP : Opens P) : ∃ t us, ts = t :: us ∧ t.kind ∉ closers := by
  cases h with
  | last ha => exact hP _ _ ha
  | cons ha =>
    obtain ⟨t, us, rfl, ht⟩ := hP _ _ ha
    exact ⟨t, _, rfl, ht⟩

section

variable {P : List Token → α → Prop} {c d : Cursor eof} {as : List α}
  {element : (d : Cursor eof) → d.size ≤ c.size → Reply eof α d.size} (hclose : close ∈ closers)
  (helement : ∀ x hx a y, (element x hx).Yields a y ↔ ∃ ts, x.Takes ts y ∧ P ts a)
  (inner : ∀ (y : Cursor eof) (hy : y.size ≤ c.size), y.size < c.size → ∀ bs,
    (elements close expected y fun z hz => element z (Cursor.le_trans hz hy)).Yields bs d ↔
      ∃ ts t, y.Takes (ts ++ [t]) d ∧ IsList P ts bs ∧ t.kind = close)

include hclose helement inner

/-- What is read as a list is spelled as one, if this holds behind each of its commas. -/
theorem isList_of_yields (h : (elements close expected c element).Yields as d) :
    ∃ ts t, c.Takes (ts ++ [t]) d ∧ IsList P ts as ∧ t.kind = close := by
  rcases (elements_yields_cases (ne_comma_of_mem_closers hclose)).1 h with
    ⟨t, ht, hk, rfl⟩ | ⟨-, a, x, ha, hrest⟩
  · exact ⟨[], t, ht, .nil, hk⟩
  · obtain ⟨ts, hts, hPa⟩ := (helement c _ a x).1 ha
    rcases hrest with ⟨t, ht, hk, rfl⟩ | ⟨comma, y, bs, hy, hcomma, hk, hbs, rfl⟩
    · exact ⟨ts, t, hts.trans ht, .last hPa, hk⟩
    · have hsize := hts.size_eq
      have hsize' := hcomma.size_eq
      rw [List.length_singleton] at hsize'
      obtain ⟨us, t, hus, hlist, hk'⟩ := (inner y hy (by omega) bs).1 hbs
      refine ⟨ts ++ comma :: us, t, ?_, .cons hPa hk hlist, hk'⟩
      rw [List.append_assoc]
      exact hts.trans (hcomma.cons hus)

/-- A list that is spelled as one is read, if this holds behind each of its commas. -/
theorem elements_yields (hP : Opens P) {ts : List Token} {t : Token}
    (hts : c.Takes (ts ++ [t]) d) (hlist : IsList P ts as) (hk : t.kind = close) :
    (elements close expected c element).Yields as d := by
  rw [elements_yields_cases (ne_comma_of_mem_closers hclose)]
  cases as with
  | nil =>
    cases hlist
    exact .inl ⟨t, hts, hk, rfl⟩
  | cons a as =>
    right
    obtain ⟨u, us, rfl, hu⟩ := hlist.head_notMem hP
    have hne : u.kind ≠ close := fun heq => hu (heq ▸ hclose)
    refine ⟨hts.next_iff.2 hne, ?_⟩
    generalize hus : u :: us = ts at hts hlist
    cases hlist with
    | last ha =>
      obtain ⟨x, hx, ht⟩ := Cursor.takes_append_iff.1 hts
      exact ⟨a, x, (helement c _ a x).2 ⟨_, hx, ha⟩, .inl ⟨t, ht, hk, rfl⟩⟩
    | @cons vs ws comma _ _ ha hcomma hrest =>
      rw [List.append_assoc, List.cons_append] at hts
      obtain ⟨x, hx, hts⟩ := Cursor.takes_append_iff.1 hts
      obtain ⟨y, hy, hts⟩ := Cursor.takes_cons_iff.1 hts
      have hsize := hx.size_eq
      have hsize' := hy.size_eq
      rw [List.length_singleton] at hsize'
      have hle : y.size ≤ c.size := by omega
      refine ⟨a, x, (helement c _ a x).2 ⟨_, hx, ha⟩, .inr ⟨comma, y, as, hle, hy, hcomma, ?_, rfl⟩⟩
      exact (inner y hle (by omega) as).2 ⟨ws, t, hts, hrest, hk⟩

end

/-- A list in brackets yields what its tokens spell, if an element does, where fewer than `n` pieces
are left. -/
theorem elements_yields_iff_of_lt {P : List Token → α → Prop} (hclose : close ∈ closers)
    (hP : Opens P) :
    ∀ (n : Nat) (c : Cursor eof), c.size < n →
      ∀ element : (d : Cursor eof) → d.size ≤ c.size → Reply eof α d.size,
        (∀ x hx a y, (element x hx).Yields a y ↔ ∃ ts, x.Takes ts y ∧ P ts a) →
        ∀ (as : List α) (d : Cursor eof), (elements close expected c element).Yields as d ↔
          ∃ ts t, c.Takes (ts ++ [t]) d ∧ IsList P ts as ∧ t.kind = close := by
  intro n
  induction n with
  | zero => intro c hn; omega
  | succ n ih =>
    intro c hn element helement as d
    have inner (y : Cursor eof) (hy : y.size ≤ c.size) (hlt : y.size < c.size) (bs : List α) :=
      ih y (by omega) (fun z hz => element z (Cursor.le_trans hz hy))
        (fun z hz => helement z (Cursor.le_trans hz hy)) bs d
    constructor
    · exact isList_of_yields hclose helement inner
    · rintro ⟨ts, t, hts, hlist, hk⟩
      exact elements_yields hclose helement inner hP hts hlist hk

/-- A list in brackets yields what its tokens spell, if an element does and cannot be taken for the
end of the list. -/
theorem elements_yields_iff {P : List Token → α → Prop} (hclose : close ∈ closers) (hP : Opens P)
    {c d : Cursor eof} {as : List α}
    {element : (d : Cursor eof) → d.size ≤ c.size → Reply eof α d.size}
    (helement : ∀ x hx a y, (element x hx).Yields a y ↔ ∃ ts, x.Takes ts y ∧ P ts a) :
    (elements close expected c element).Yields as d ↔
      ∃ ts t, c.Takes (ts ++ [t]) d ∧ IsList P ts as ∧ t.kind = close :=
  elements_yields_iff_of_lt hclose hP (c.size + 1) c (Nat.lt_succ_self _) element helement as d

end Elements

/-! ## Outcomes -/

/-- Between the states `s` and `t` the tokens `ts` stand, and no error is noted. -/
def State.Takes (s : State eof) (ts : List Token) (t : State eof) : Prop :=
  s.toCursor.Takes ts t.toCursor ∧ t.met = s.met

namespace State

variable {s t u : State eof} {x : Token} {ts us : List Token}

theorem takes_nil_iff : s.Takes [] t ↔ s = t := by
  rw [Takes, Cursor.takes_nil_iff]
  constructor
  · rintro ⟨hc, hm⟩
    cases s
    cases t
    simp_all
  · rintro rfl
    exact ⟨rfl, rfl⟩

theorem takes_append_iff : s.Takes (ts ++ us) u ↔ ∃ t, s.Takes ts t ∧ t.Takes us u := by
  constructor
  · rintro ⟨hc, hm⟩
    obtain ⟨d, hd, hd'⟩ := Cursor.takes_append_iff.1 hc
    exact ⟨⟨d, s.met⟩, ⟨hd, rfl⟩, hd', hm⟩
  · rintro ⟨t, ⟨hd, hm⟩, hd', hm'⟩
    exact ⟨hd.trans hd', hm'.trans hm⟩

theorem takes_cons_iff : s.Takes (x :: ts) u ↔ ∃ t, s.Takes [x] t ∧ t.Takes ts u := by
  rw [← List.singleton_append, takes_append_iff]

theorem Takes.trans (h : s.Takes ts t) (h' : t.Takes us u) : s.Takes (ts ++ us) u :=
  takes_append_iff.2 ⟨t, h, h'⟩

theorem Takes.cons (h : s.Takes [x] t) (h' : t.Takes ts u) : s.Takes (x :: ts) u := h.trans h'

theorem Takes.after (p : Piece) (rest : List Piece) (stop : Position) (met : List ParseError) :
    (⟨⟨p :: rest, stop⟩, met⟩ : State eof).Takes [p.token] ⟨.after p rest, met⟩ :=
  ⟨.after p rest stop, rfl⟩

/-- Where tokens are taken there are pieces, and the first token is that of the first piece. -/
theorem Takes.exists_after (h : s.Takes (x :: ts) t) :
    ∃ p rest stop met, s = ⟨⟨p :: rest, stop⟩, met⟩ ∧ p.token = x ∧
      (⟨.after p rest, met⟩ : State eof).Takes ts t := by
  obtain ⟨hc, hm⟩ := h
  obtain ⟨p, rest, hrest⟩ := hc.exists_cons
  rcases s with ⟨⟨_, stop⟩, met⟩
  obtain rfl : _ = p :: rest := hrest
  exact ⟨p, rest, stop, met, rfl, hc.exists_after.1, hc.exists_after.2, hm⟩

theorem Takes.size_eq (h : s.Takes ts t) : s.size = ts.length + t.size := h.1.size_eq

end State

/-- The outcome is the value `a`, and reading stops at `t`. -/
def Outcome.Yields {n : Nat} (r : Outcome eof α n) (a : α) (t : State eof) : Prop :=
  ∃ h, r = .ok a t h

namespace Outcome

variable {n : Nat} {r : Outcome eof α n} {a : α} {b : β} {t u : State eof}

@[simp]
theorem ok_yields_iff {a' : α} {h : u.size ≤ n} :
    (.ok a' u h : Outcome eof α n).Yields a t ↔ a' = a ∧ u = t := by
  constructor
  · rintro ⟨_, heq⟩
    cases heq
    exact ⟨rfl, rfl⟩
  · rintro ⟨rfl, rfl⟩
    exact ⟨h, rfl⟩

@[simp]
theorem fail_yields_iff {error : ParseError} {met : List ParseError} :
    (.fail error met : Outcome eof α n).Yields a t ↔ False := by simp [Yields]

@[simp]
theorem widen_yields_iff {m : Nat} {h : n ≤ m} : (r.widen h).Yields a t ↔ r.Yields a t := by
  cases r <;> simp [widen]

theorem Yields.size_le (h : r.Yields a t) : t.size ≤ n := by
  obtain ⟨ht, -⟩ := h
  exact ht

theorem andThen_yields_iff {f : α → (t : State eof) → t.size ≤ n → Outcome eof β t.size} :
    (r.andThen f).Yields b u ↔ ∃ a t ht, r.Yields a t ∧ (f a t ht).Yields b u := by
  cases r with
  | fail error met => simp
  | ok a t ht =>
    rw [andThen_ok, widen_yields_iff]
    constructor
    · intro h
      exact ⟨a, t, ht, ok_yields_iff.2 ⟨rfl, rfl⟩, h⟩
    · rintro ⟨a', t', ht', hok, h⟩
      obtain ⟨rfl, rfl⟩ := ok_yields_iff.1 hok
      exact h

/-- A clause whose value is changed at the end. -/
theorem andThen_ok_yields_iff {f : α → State eof → β} :
    (r.andThen fun a t _ => .ok (f a t) t t.le_refl).Yields b u ↔
      ∃ a, r.Yields a u ∧ f a u = b := by
  rw [andThen_yields_iff]
  constructor
  · rintro ⟨a, t, ht, hr, hok⟩
    obtain ⟨rfl, rfl⟩ := ok_yields_iff.1 hok
    exact ⟨a, hr, rfl⟩
  · rintro ⟨a, hr, rfl⟩
    exact ⟨a, u, hr.size_le, hr, ok_yields_iff.2 ⟨rfl, rfl⟩⟩

end Outcome

namespace Clause

variable {s t u : State eof}

theorem bind_yields_iff {p : Clause eof α} {f : α → Clause eof β} {b : β} :
    ((p >>= f) s).Yields b u ↔ ∃ a t, (p s).Yields a t ∧ (f a t).Yields b u := by
  show ((p s).andThen fun a t _ => f a t).Yields b u ↔ _
  rw [Outcome.andThen_yields_iff]
  constructor
  · rintro ⟨a, t, _, hp, hf⟩
    exact ⟨a, t, hp, hf⟩
  · rintro ⟨a, t, hp, hf⟩
    exact ⟨a, t, hp.size_le, hp, hf⟩

@[simp]
theorem pure_yields_iff {a b : α} : ((pure a : Clause eof α) s).Yields b t ↔ a = b ∧ s = t :=
  Outcome.ok_yields_iff

/-- A clause whose value is changed at the end, written as a sequence. -/
theorem bind_pure_yields_iff {p : Clause eof α} {f : α → β} {b : β} :
    ((p >>= fun a => pure (f a)) s).Yields b t ↔ ∃ a, (p s).Yields a t ∧ f a = b := by
  rw [bind_yields_iff]
  constructor
  · rintro ⟨a, u, hp, hpure⟩
    obtain ⟨rfl, rfl⟩ := pure_yields_iff.1 hpure
    exact ⟨a, hp, rfl⟩
  · rintro ⟨a, hp, rfl⟩
    exact ⟨a, t, hp, pure_yields_iff.2 ⟨rfl, rfl⟩⟩

theorem ofPhrase_yields_iff {p : Phrase eof α} {a : α} :
    (ofPhrase p s).Yields a t ↔ (p s.toCursor).Yields a t.toCursor ∧ t.met = s.met := by
  unfold ofPhrase
  cases p s.toCursor with
  | fail e => simp
  | ok b c h =>
    have hsize : (⟨c, s.met⟩ : State eof).size ≤ s.size := h
    show (Outcome.ok b ⟨c, s.met⟩ hsize).Yields a t ↔ _
    rw [Outcome.ok_yields_iff, Reply.ok_yields_iff]
    constructor
    · rintro ⟨rfl, rfl⟩
      exact ⟨⟨rfl, rfl⟩, rfl⟩
    · rintro ⟨⟨rfl, rfl⟩, hm⟩
      cases t
      simp_all

end Clause

end QuerySuite.Grammar
