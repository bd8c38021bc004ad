import Mathlib.Tactic.SplitIfs
import QuerySuite.Grammar.Clauses
import QuerySuite.Proofs.Yields

/-!
# The grammar of phrases

Each phrase yields exactly what its production says: a value and the tokens that spell it. Where a
phrase looks at the token behind it, the equivalence says what that token may be. Only calls, keys
and expressions do.

Phrases that are read behind their first token are stated with that token, `first`, in front of the
tokens they take.

Results:

* `Phrase.argument_yields_iff`, `Phrase.datum_yields_iff`: values, by induction on what is left.
* `Phrase.isCall_of_yields`, `Phrase.call_yields`: calls, and the token behind them.
* `Phrase.statement_yields_iff`, `Phrase.expr_yields_iff`: statements and expressions.
-/

namespace QuerySuite.Grammar

variable {eof : Token} {α : Type}

namespace Phrase

variable {c d : Cursor eof} {first : Token} {expected : String}

/-! ## Literals and keys -/

theorem literalOf_eq_ok_iff {t : Token} {l : Literal} : literalOf t = .ok l ↔ IsLiteral t l := by
  constructor
  · intro h
    unfold literalOf at h
    split at h
    · next hk =>
      cases h
      exact .string hk
    · next hk =>
      split at h
      · next n hn =>
        cases h
        exact .number hk hn
      · cases h
    · next hk =>
      split_ifs at h with htrue hfalse hnull <;> cases h
      · exact .yes (by simpa [Token.isKeyword, hk] using htrue)
      · exact .no (by simpa [Token.isKeyword, hk] using hfalse)
      · exact .null (by simpa [Token.isKeyword, hk] using hnull)
    · cases h
  · intro h
    cases h with
    | string hk => simp [literalOf, hk]
    | number hk hn => simp [literalOf, hk, hn]
    | yes hw | no hw | null hw =>
      simp only [Token.isKeyword, Bool.and_eq_true, beq_iff_eq] at hw
      simp [literalOf, hw.1, hw.2]

theorem literal_yields_iff {l : Literal} :
    (literal c).Yields l d ↔ ∃ t, c.Takes [t] d ∧ IsLiteral t l := by
  rcases c with ⟨_ | ⟨p, rest⟩, stop⟩
  · simp only [literal, Reply.fail_yields_iff, false_iff]
    rintro ⟨t, ht, -⟩
    obtain ⟨p, rest, hp⟩ := ht.exists_cons
    cases hp
  · have htake : (⟨p :: rest, stop⟩ : Cursor eof).Takes [p.token] (.after p rest) :=
      .after p rest stop
    simp only [literal]
    constructor
    · intro h
      split at h
      · next l' hl =>
        obtain ⟨rfl, rfl⟩ := Reply.ok_yields_iff.1 h
        exact ⟨p.token, htake, literalOf_eq_ok_iff.1 hl⟩
      · exact (Reply.fail_yields_iff.1 h).elim
    · rintro ⟨t, ht, hl⟩
      obtain ⟨rfl, rfl⟩ := htake.unique ht
      rw [literalOf_eq_ok_iff.2 hl]
      exact Reply.ok_yields_iff.2 ⟨rfl, rfl⟩

theorem labelOf?_eq_some_iff {t : Token} {text : String} :
    labelOf? t = some text ↔ IsLabel t text := by
  constructor
  · intro h
    unfold labelOf? at h
    split_ifs at h with hs hn <;> cases h
    · exact .string (beq_iff_eq.1 hs)
    · exact .name hn
  · intro h
    cases h with
    | string hk => simp [labelOf?, hk]
    | name hn =>
      have hk : t.kind = .ident := by simp_all [Token.isName]
      simp [labelOf?, hk, hn]

theorem label_yields_iff {text : String} :
    (label expected c).Yields text d ↔ ∃ t, c.Takes [t] d ∧ IsLabel t text := by
  rw [label, bind_yields_iff]
  constructor
  · rintro ⟨t, e, ht, hpure⟩
    obtain ⟨htake, hsome⟩ := expect_yields_iff.1 ht
    obtain ⟨rfl, rfl⟩ := pure_yields_iff.1 hpure
    obtain ⟨text, htext⟩ := Option.isSome_iff_exists.1 hsome
    refine ⟨t, htake, labelOf?_eq_some_iff.1 ?_⟩
    rw [htext, Option.getD_some]
  · rintro ⟨t, htake, hlabel⟩
    have htext := labelOf?_eq_some_iff.2 hlabel
    refine ⟨t, d, expect_yields_iff.2 ⟨htake, by rw [htext]; rfl⟩, pure_yields_iff.2 ⟨?_, rfl⟩⟩
    rw [htext, Option.getD_some]

theorem entry_yields_iff {P : List Token → α → Prop} {e : Entry α}
    {element : (d : Cursor eof) → d.size ≤ c.size → Reply eof α d.size}
    (helement : ∀ x hx a y, (element x hx).Yields a y ↔ ∃ ts, x.Takes ts y ∧ P ts a) :
    (entry c element).Yields e d ↔ ∃ ts, c.Takes ts d ∧ IsEntry P ts e := by
  simp only [entry, Reply.andThen_yields_iff, label_yields_iff, ofKind_yields_iff, helement,
    Reply.ok_yields_iff]
  constructor
  · rintro ⟨key, x, hx, ⟨k, hk, hlabel⟩, colon, y, hy, ⟨hcolon, hkind⟩, v, z, -, ⟨ts, hts, hv⟩,
      rfl, rfl⟩
    have htake := hk.cons (hcolon.cons hts)
    refine ⟨k :: colon :: ts, htake, ?_⟩
    rw [htake.token_eq, ← htake.extent_eq]
    exact .entry hlabel hkind hv
  · rintro ⟨ts, htake, hentry⟩
    cases hentry with
    | @entry k colon ts key a hlabel hkind hv =>
      obtain ⟨x, hk, hts⟩ := Cursor.takes_cons_iff.1 htake
      obtain ⟨y, hcolon, hts⟩ := Cursor.takes_cons_iff.1 hts
      have hx := hk.size_eq
      have hy := hcolon.size_eq
      have hz := hts.size_eq
      refine ⟨key, x, by omega, ⟨k, hk, hlabel⟩, colon, y, by omega, ⟨hcolon, hkind⟩, a, d,
        by omega, ⟨ts, hts, hv⟩, ?_, rfl⟩
      rw [htake.token_eq, htake.extent_eq]

end Phrase

/-! ## What phrases begin with -/

theorem kind_eq_of_isName {t : Token} (h : t.isName = true) : t.kind = .ident := by
  simp_all [Token.isName]

theorem IsLiteral.kind_mem {t : Token} {l : Literal} (h : IsLiteral t l) :
    t.kind ∈ [Token.Kind.string, .number, .keyword] := by
  cases h with
  | string hk | number hk => simp [hk]
  | yes hw | no hw | null hw => simp_all [Token.isKeyword]

theorem IsLabel.kind_mem {t : Token} {text : String} (h : IsLabel t text) :
    t.kind ∈ [Token.Kind.string, .ident] := by
  cases h with
  | string hk => simp [hk]
  | name hn => simp [kind_eq_of_isName hn]

theorem isArgument_opens : Opens IsArgument := by
  intro ts a h
  cases h with
  | literal hl =>
    have hk := hl.kind_mem
    exact ⟨_, _, rfl, by grind [closers]⟩
  | parameter hk | list hk | map hk => exact ⟨_, _, rfl, by simp [hk, closers]⟩

theorem isDatum_opens : Opens IsDatum := by
  intro ts v h
  cases h with
  | literal hl =>
    have hk := hl.kind_mem
    exact ⟨_, _, rfl, by grind [closers]⟩
  | list hk | map hk => exact ⟨_, _, rfl, by simp [hk, closers]⟩

theorem isEntry_opens (P : List Token → α → Prop) : Opens (IsEntry P) := by
  intro ts e h
  cases h with
  | entry hlabel =>
    have hk := hlabel.kind_mem
    exact ⟨_, _, rfl, by grind [closers]⟩

theorem isParam_opens : Opens IsParam := by
  intro ts a h
  cases h with
  | param hn => exact ⟨_, _, rfl, by simp [kind_eq_of_isName hn, closers]⟩

namespace Phrase

variable {c d : Cursor eof} {first : Token} {expected : String}

/-! ## Lists and maps of values -/

section Collections

variable {P : List Token → α → Prop} {value : (c : Cursor eof) → Reply eof α c.size}

theorem list_yields_iff (hP : Opens P)
    (hvalue : ∀ x : Cursor eof, x.size ≤ c.size →
      ∀ a y, (value x).Yields a y ↔ ∃ ts, x.Takes ts y ∧ P ts a) {as : List α} :
    (elements .rbracket expected c fun x _ => value x).Yields as d ↔
      ∃ ts t, c.Takes (ts ++ [t]) d ∧ IsList P ts as ∧ t.kind = .rbracket :=
  elements_yields_iff (by decide) hP hvalue

theorem map_yields_iff
    (hvalue : ∀ x : Cursor eof, x.size ≤ c.size →
      ∀ a y, (value x).Yields a y ↔ ∃ ts, x.Takes ts y ∧ P ts a) {es : List (Entry α)} :
    (elements .rbrace expected c fun x _ => entry x fun y _ => value y).Yields es d ↔
      ∃ ts t, c.Takes (ts ++ [t]) d ∧ IsList (IsEntry P) ts es ∧ t.kind = .rbrace :=
  elements_yields_iff (by decide) (isEntry_opens P) fun x hx _ _ =>
    entry_yields_iff fun y hy => hvalue y (Nat.le_trans hy hx)

end Collections

/-! ## Arguments -/

theorem parameterOf?_eq_some_iff {t : Token} {name : String} :
    parameterOf? t = some name ↔ t.text = "$" ++ name ∧ name ≠ "" := by
  rw [← String.toList_inj, String.toList_append, Ne, ← String.toList_eq_nil_iff]
  unfold parameterOf?
  constructor
  · intro h
    split at h
    · next x rest htext =>
      cases h
      simp [htext]
    · cases h
  · rintro ⟨htext, hname⟩
    obtain ⟨x, rest, hx⟩ := List.exists_cons_of_ne_nil hname
    rw [htext, hx]
    show some (String.ofList (x :: rest)) = some name
    rw [← hx, String.ofList_toList]

theorem isParameter_of_text_eq {t : Token} {name : String} (h : t.text = "$" ++ name) :
    t.isParameter = true := by simp [Token.isParameter, h]

section

variable {p : Piece} {rest : List Piece} {stop : Position} {a : Argument}
  (inner : ∀ x : Cursor eof, x.size ≤ rest.length →
    ∀ a y, (argument x).Yields a y ↔ ∃ ts, x.Takes ts y ∧ IsArgument ts a)

include inner

/-- What is read as an argument is spelled as one, if this holds of the arguments within it. -/
theorem isArgument_of_yields (h : (argument ⟨p :: rest, stop⟩).Yields a d) :
    ∃ ts, (⟨p :: rest, stop⟩ : Cursor eof).Takes ts d ∧ IsArgument ts a := by
  have htake : (⟨p :: rest, stop⟩ : Cursor eof).Takes [p.token] (.after p rest) :=
    .after p rest stop
  rw [argument] at h
  split_ifs at h with hp hl hb
  · simp only [Bool.and_eq_true, beq_iff_eq] at hp
    split at h
    · next name hname =>
      obtain ⟨rfl, rfl⟩ := Reply.ok_yields_iff.1 h
      obtain ⟨htext, hne⟩ := parameterOf?_eq_some_iff.1 hname
      exact ⟨[p.token], htake, .parameter hp.1 htext hne⟩
    · exact (Reply.fail_yields_iff.1 h).elim
  · obtain ⟨as, has, rfl⟩ := Reply.map_yields_iff.1 (Reply.widen_yields_iff.1 h)
    obtain ⟨ts, t, hts, hlist, hk⟩ := (list_yields_iff isArgument_opens inner).1 has
    exact ⟨p.token :: (ts ++ [t]), htake.cons hts, .list (beq_iff_eq.1 hl) hlist hk⟩
  · obtain ⟨es, hes, rfl⟩ := Reply.map_yields_iff.1 (Reply.widen_yields_iff.1 h)
    obtain ⟨ts, t, hts, hlist, hk⟩ := (map_yields_iff inner).1 hes
    exact ⟨p.token :: (ts ++ [t]), htake.cons hts, .map (beq_iff_eq.1 hb) hlist hk⟩
  · obtain ⟨l, hl, rfl⟩ := Reply.map_yields_iff.1 h
    obtain ⟨t, ht, hl⟩ := literal_yields_iff.1 hl
    exact ⟨[t], ht, .literal hl⟩

/-- An argument that is spelled as one is read, if this holds of the arguments within it. -/
theorem argument_yields {ts : List Token} (hts : (⟨p :: rest, stop⟩ : Cursor eof).Takes ts d)
    (h : IsArgument ts a) : (argument ⟨p :: rest, stop⟩).Yields a d := by
  rw [argument]
  cases h with
  | literal hl =>
    have hk := hl.kind_mem
    obtain ⟨rfl, -⟩ := hts.exists_after
    rw [if_neg (by grind), if_neg (by grind), if_neg (by grind)]
    exact Reply.map_yields_iff.2 ⟨_, literal_yields_iff.2 ⟨_, hts, hl⟩, rfl⟩
  | parameter hk htext hne =>
    obtain ⟨rfl, hd⟩ := hts.exists_after
    rw [if_pos (by simp [hk, isParameter_of_text_eq htext]),
      parameterOf?_eq_some_iff.2 ⟨htext, hne⟩]
    exact Reply.ok_yields_iff.2 ⟨rfl, Cursor.takes_nil_iff.1 hd⟩
  | list ho hlist hc =>
    obtain ⟨rfl, hd⟩ := hts.exists_after
    rw [if_neg (by simp [ho]), if_pos (by simp [ho])]
    exact Reply.widen_yields_iff.2 (Reply.map_yields_iff.2
      ⟨_, (list_yields_iff isArgument_opens inner).2 ⟨_, _, hd, hlist, hc⟩, rfl⟩)
  | map ho hlist hc =>
    obtain ⟨rfl, hd⟩ := hts.exists_after
    rw [if_neg (by simp [ho]), if_neg (by simp [ho]), if_pos (by simp [ho])]
    exact Reply.widen_yields_iff.2 (Reply.map_yields_iff.2
      ⟨_, (map_yields_iff inner).2 ⟨_, _, hd, hlist, hc⟩, rfl⟩)

end

/-- An argument yields what its tokens spell, where fewer than `n` pieces are left. -/
theorem argument_yields_iff_of_lt :
    ∀ (n : Nat) (c : Cursor eof), c.size < n → ∀ (a : Argument) (d : Cursor eof),
      (argument c).Yields a d ↔ ∃ ts, c.Takes ts d ∧ IsArgument ts a := by
  intro n
  induction n with
  | zero => intro c hn; omega
  | succ n ih =>
    rintro ⟨_ | ⟨p, rest⟩, stop⟩ hn a d
    · rw [argument_nil]
      simp only [Reply.fail_yields_iff, false_iff]
      rintro ⟨ts, hts, ha⟩
      exact isArgument_opens.not_takes_nil ha hts
    · rw [Cursor.size_mk, List.length_cons] at hn
      have inner (x : Cursor eof) (hx : x.size ≤ rest.length) := ih x (by omega)
      constructor
      · exact isArgument_of_yields inner
      · rintro ⟨ts, hts, ha⟩
        exact argument_yields inner hts ha

theorem argument_yields_iff {a : Argument} :
    (argument c).Yields a d ↔ ∃ ts, c.Takes ts d ∧ IsArgument ts a :=
  argument_yields_iff_of_lt (c.size + 1) c (Nat.lt_succ_self _) a d

/-! ## Calls -/

theorem param_yields_iff {a : Param} :
    (param c).Yields a d ↔ ∃ ts, c.Takes ts d ∧ IsParam ts a := by
  simp only [param, bind_yields_iff, name_yields_iff, ofKind_yields_iff]
  constructor
  · rintro ⟨_, x, ⟨n, hn, hname, rfl⟩, colon, y, ⟨hcolon, hk⟩, hrest⟩
    obtain ⟨v, z, hv, hpure⟩ := bind_yields_iff.1 hrest
    obtain ⟨rfl, rfl⟩ := pure_yields_iff.1 hpure
    obtain ⟨ts, hts, ha⟩ := argument_yields_iff.1 hv
    exact ⟨n :: colon :: ts, hn.cons (hcolon.cons hts), .param hname hk ha⟩
  · rintro ⟨ts, hts, ha⟩
    cases ha with
    | @param n colon ts a hname hk ha =>
      obtain ⟨x, hn, hts⟩ := Cursor.takes_cons_iff.1 hts
      obtain ⟨y, hcolon, hts⟩ := Cursor.takes_cons_iff.1 hts
      exact ⟨_, x, ⟨n, hn, hname, rfl⟩, colon, y, ⟨hcolon, hk⟩, bind_yields_iff.2
        ⟨a, d, argument_yields_iff.2 ⟨ts, hts, ha⟩, pure_yields_iff.2 ⟨rfl, rfl⟩⟩⟩

theorem paramList_yields_iff {params : List Param} :
    (paramList c).Yields params d ↔
      ∃ ts t, c.Takes (ts ++ [t]) d ∧ IsList IsParam ts params ∧ t.kind = .rparen :=
  elements_yields_iff (by decide) isParam_opens fun _ _ _ _ => param_yields_iff

/-- The parameters of a call end behind their bracket, or where there is no bracket. -/
theorem callParams_yields_iff {params : List Param} :
    (callParams c).Yields params d ↔
      ∃ ts, c.Takes ts d ∧ IsParams ts params ∧ (ts = [] → d.Next (·.kind ≠ .lparen)) := by
  simp only [callParams, bind_yields_iff, next?_yields_iff]
  constructor
  · rintro ⟨o, x, (⟨rfl, rfl, hnext⟩ | ⟨t, rfl, ht, hk⟩), h⟩
    · obtain ⟨rfl, rfl⟩ := pure_yields_iff.1 h
      refine ⟨[], Cursor.takes_nil_iff.2 rfl, .absent, fun _ => hnext.mono fun t ht => ?_⟩
      exact beq_eq_false_iff_ne.1 ht
    · obtain ⟨ts, u, hts, hlist, hu⟩ := paramList_yields_iff.1 h
      exact ⟨t :: (ts ++ [u]), ht.cons hts, .list (beq_iff_eq.1 hk) hlist hu, by simp⟩
  · rintro ⟨ts, hts, hparams, hnext⟩
    cases hparams with
    | absent =>
      obtain rfl := Cursor.takes_nil_iff.1 hts
      refine ⟨none, c, .inl ⟨rfl, rfl, (hnext rfl).mono fun t ht => ?_⟩,
        pure_yields_iff.2 ⟨rfl, rfl⟩⟩
      exact beq_eq_false_iff_ne.2 ht
    | @list o t ts params ho hlist ht =>
      obtain ⟨x, hx, hts⟩ := Cursor.takes_cons_iff.1 hts
      exact ⟨some o, x, .inr ⟨o, rfl, hx, beq_iff_eq.2 ho⟩,
        paramList_yields_iff.2 ⟨ts, t, hts, hlist, ht⟩⟩

/-- The token behind a call that does not go on with it. -/
def EndsCall (t : Token) : Prop := t.kind ≠ .dot ∧ t.kind ≠ .lparen

/-- What is read as a call is spelled as one. A name on its own is a call only where nothing goes on
with it. -/
theorem isCall_of_yields {call : Call} (hfirst : first.isName = true) (hc : c.stop = first.stop)
    (h : (Phrase.call first c).Yields call d) :
    ∃ ts, c.Takes ts d ∧ IsCall (first :: ts) call ∧ (ts = [] → d.Next EndsCall) := by
  obtain ⟨target, x, htarget, h⟩ := bind_yields_iff.1 h
  obtain ⟨params, y, hread, h⟩ := bind_yields_iff.1 h
  obtain ⟨rfl, rfl⟩ := lastStop_bind_yields_iff.1 h
  obtain ⟨ts, hts, hparams, hnext⟩ := callParams_yields_iff.1 hread
  obtain ⟨o, z, ho, htarget⟩ := bind_yields_iff.1 htarget
  rcases next?_yields_iff.1 ho with ⟨rfl, rfl, hdot⟩ | ⟨dot, rfl, hdot, hk⟩
  · obtain ⟨rfl, rfl⟩ := pure_yields_iff.1 htarget
    refine ⟨ts, hts, ?_, ?_⟩
    · rw [← hts.extent_behind hc]
      exact .plain hfirst hparams
    · rintro rfl
      obtain rfl := Cursor.takes_nil_iff.1 hts
      intro p hp
      exact ⟨beq_eq_false_iff_ne.1 (hdot p hp), hnext rfl p hp⟩
  · obtain ⟨_, x, hread, hpure⟩ := bind_yields_iff.1 htarget
    obtain ⟨n, hn, hname, rfl⟩ := name_yields_iff.1 hread
    obtain ⟨rfl, rfl⟩ := pure_yields_iff.1 hpure
    have htake := hdot.cons (hn.cons hts)
    refine ⟨dot :: n :: ts, htake, ?_, by simp⟩
    rw [← htake.extent_behind hc]
    exact .qualified hfirst (beq_iff_eq.1 hk) hname hparams

/-- A call that is spelled as one is read, where nothing goes on with it. -/
theorem call_yields {call : Call} {ts : List Token} (hc : c.stop = first.stop)
    (hts : c.Takes ts d) (h : IsCall (first :: ts) call) (hnext : d.Next EndsCall) :
    (Phrase.call first c).Yields call d := by
  have hparen : d.Next (·.kind ≠ .lparen) := hnext.mono fun _ ht => ht.2
  rw [Phrase.call, bind_yields_iff]
  cases h with
  | @plain _ _ params hn hparams =>
    refine ⟨(none, first.text), c, ?_, bind_yields_iff.2 ⟨params, d,
      callParams_yields_iff.2 ⟨ts, hts, hparams, fun _ => hparen⟩,
      lastStop_bind_yields_iff.2 ⟨?_, rfl⟩⟩⟩
    · -- A bracket or the end of the call follows, so no dot does.
      refine bind_yields_iff.2 ⟨none, c, next?_yields_iff.2 (.inl ⟨rfl, rfl, ?_⟩),
        pure_yields_iff.2 ⟨rfl, rfl⟩⟩
      cases hparams with
      | absent =>
        obtain rfl := Cursor.takes_nil_iff.1 hts
        exact hnext.mono fun _ ht => beq_eq_false_iff_ne.2 ht.1
      | list ho => rw [hts.next_iff, ho]; rfl
    · rw [hts.extent_behind hc]
  | @qualified _ dot n ts params hm hdot hn hparams =>
    obtain ⟨x, hx, hrest⟩ := Cursor.takes_cons_iff.1 hts
    obtain ⟨y, hy, hrest⟩ := Cursor.takes_cons_iff.1 hrest
    refine ⟨(some first.text, n.text), y, ?_, bind_yields_iff.2 ⟨params, d,
      callParams_yields_iff.2 ⟨ts, hrest, hparams, fun _ => hparen⟩,
      lastStop_bind_yields_iff.2 ⟨?_, rfl⟩⟩⟩
    · refine bind_yields_iff.2 ⟨some dot, x, next?_yields_iff.2
        (.inr ⟨dot, rfl, hx, beq_iff_eq.2 hdot⟩), bind_yields_iff.2 ⟨n.text, y,
        name_yields_iff.2 ⟨n, hy, hn, rfl⟩, pure_yields_iff.2 ⟨rfl, rfl⟩⟩⟩
    · rw [hts.extent_behind hc]

/-! ## Statements -/

section

variable {p : Piece} {rest : List Piece} {stop : Position} {v : Value}
  (inner : ∀ x : Cursor eof, x.size ≤ rest.length →
    ∀ v y, (datum x).Yields v y ↔ ∃ ts, x.Takes ts y ∧ IsDatum ts v)

include inner

/-- What is read as a value is spelled as one, if this holds of the values within it. -/
theorem isDatum_of_yields (h : (datum ⟨p :: rest, stop⟩).Yields v d) :
    ∃ ts, (⟨p :: rest, stop⟩ : Cursor eof).Takes ts d ∧ IsDatum ts v := by
  have htake : (⟨p :: rest, stop⟩ : Cursor eof).Takes [p.token] (.after p rest) :=
    .after p rest stop
  rw [datum] at h
  split_ifs at h with hl hb
  · obtain ⟨vs, hvs, rfl⟩ := Reply.andThen_ok_yields_iff.1 (Reply.widen_yields_iff.1 h)
    obtain ⟨ts, t, hts, hlist, hk⟩ := (list_yields_iff isDatum_opens inner).1 hvs
    refine ⟨p.token :: (ts ++ [t]), htake.cons hts, ?_⟩
    rw [← (htake.cons hts).extent_eq]
    exact .list (beq_iff_eq.1 hl) hlist hk
  · obtain ⟨es, hes, rfl⟩ := Reply.andThen_ok_yields_iff.1 (Reply.widen_yields_iff.1 h)
    obtain ⟨ts, t, hts, hlist, hk⟩ := (map_yields_iff inner).1 hes
    refine ⟨p.token :: (ts ++ [t]), htake.cons hts, ?_⟩
    rw [← (htake.cons hts).extent_eq]
    exact .map (beq_iff_eq.1 hb) hlist hk
  · obtain ⟨l, hl, rfl⟩ := Reply.andThen_ok_yields_iff.1 h
    obtain ⟨t, ht, hl⟩ := literal_yields_iff.1 hl
    obtain ⟨rfl, -⟩ := ht.exists_after
    refine ⟨[p.token], ht, ?_⟩
    rw [← ht.extent_eq]
    exact .literal hl

/-- A value that is spelled as one is read, if this holds of the values within it. -/
theorem datum_yields {ts : List Token} (hts : (⟨p :: rest, stop⟩ : Cursor eof).Takes ts d)
    (h : IsDatum ts v) : (datum ⟨p :: rest, stop⟩).Yields v d := by
  rw [datum]
  cases h with
  | literal hl =>
    have hk := hl.kind_mem
    obtain ⟨rfl, -⟩ := hts.exists_after
    rw [if_neg (by grind), if_neg (by grind)]
    refine Reply.andThen_ok_yields_iff.2 ⟨_, literal_yields_iff.2 ⟨_, hts, hl⟩, ?_⟩
    rw [hts.extent_eq]
  | list ho hlist hc =>
    obtain ⟨rfl, hd⟩ := hts.exists_after
    rw [if_pos (by simp [ho])]
    refine Reply.widen_yields_iff.2 (Reply.andThen_ok_yields_iff.2
      ⟨_, (list_yields_iff isDatum_opens inner).2 ⟨_, _, hd, hlist, hc⟩, ?_⟩)
    rw [hts.extent_eq]
  | map ho hlist hc =>
    obtain ⟨rfl, hd⟩ := hts.exists_after
    rw [if_neg (by simp [ho]), if_pos (by simp [ho])]
    refine Reply.widen_yields_iff.2 (Reply.andThen_ok_yields_iff.2
      ⟨_, (map_yields_iff inner).2 ⟨_, _, hd, hlist, hc⟩, ?_⟩)
    rw [hts.extent_eq]

end

/-- A value yields what its tokens spell, where fewer than `n` pieces are left. -/
theorem datum_yields_iff_of_lt :
    ∀ (n : Nat) (c : Cursor eof), c.size < n → ∀ (v : Value) (d : Cursor eof),
      (datum c).Yields v d ↔ ∃ ts, c.Takes ts d ∧ IsDatum ts v := by
  intro n
  induction n with
  | zero => intro c hn; omega
  | succ n ih =>
    rintro ⟨_ | ⟨p, rest⟩, stop⟩ hn v d
    · rw [datum_nil]
      simp only [Reply.fail_yields_iff, false_iff]
      rintro ⟨ts, hts, hv⟩
      exact isDatum_opens.not_takes_nil hv hts
    · rw [Cursor.size_mk, List.length_cons] at hn
      have inner (x : Cursor eof) (hx : x.size ≤ rest.length) := ih x (by omega)
      constructor
      · exact isDatum_of_yields inner
      · rintro ⟨ts, hts, hv⟩
        exact datum_yields inner hts hv

theorem datum_yields_iff {v : Value} :
    (datum c).Yields v d ↔ ∃ ts, c.Takes ts d ∧ IsDatum ts v :=
  datum_yields_iff_of_lt (c.size + 1) c (Nat.lt_succ_self _) v d

theorem segmentOf?_eq_some_iff {t : Token} {texts : List String} :
    segmentOf? t = some texts ↔ IsSegment t texts := by
  constructor
  · intro h
    unfold segmentOf? at h
    split_ifs at h with hn hk <;> cases h
    · exact .name hn
    · simp only [Bool.and_eq_true, beq_iff_eq, bne_iff_ne] at hk
      exact .number hk.1 hk.2
  · intro h
    cases h with
    | name hn => simp [segmentOf?, hn]
    | number hk hsign =>
      have hn : t.isName = false := by simp [Token.isName, hk]
      simp [segmentOf?, hn, hk, hsign]

/-- Where no dot follows, a key has no further parts. -/
theorem isSegments_here {texts : List String} (h : c.Next (·.kind ≠ .dot)) :
    (∃ ts, c.Takes ts d ∧ IsSegments ts texts ∧ d.Next (·.kind ≠ .dot)) ↔ [] = texts ∧ c = d := by
  constructor
  · rintro ⟨ts, hts, hsegments, -⟩
    cases hsegments with
    | nil => exact ⟨rfl, Cursor.takes_nil_iff.1 hts⟩
    | cons hdot => exact absurd hdot (hts.next_iff.1 h)
  · rintro ⟨rfl, rfl⟩
    exact ⟨[], Cursor.takes_nil_iff.2 rfl, .nil, h⟩

/-- Where a dot follows, a key has a further part. -/
theorem isSegments_dot {texts : List String} {dot : Token} {x : Cursor eof} (hx : c.Takes [dot] x)
    (hdot : dot.kind = .dot) :
    (∃ ts, c.Takes ts d ∧ IsSegments ts texts ∧ d.Next (·.kind ≠ .dot)) ↔
      ∃ t y part more, x.Takes [t] y ∧ IsSegment t part ∧
        (∃ ts, y.Takes ts d ∧ IsSegments ts more ∧ d.Next (·.kind ≠ .dot)) ∧
          part ++ more = texts := by
  constructor
  · rintro ⟨ts, hts, hsegments, hnext⟩
    cases hsegments with
    | nil =>
      obtain rfl := Cursor.takes_nil_iff.1 hts
      exact absurd hdot (hx.next_iff.1 hnext)
    | @cons _ t ts part more _ ht hmore =>
      obtain ⟨x', hx', hts⟩ := Cursor.takes_cons_iff.1 hts
      obtain ⟨rfl, rfl⟩ := hx.unique hx'
      obtain ⟨y, hy, hts⟩ := Cursor.takes_cons_iff.1 hts
      exact ⟨t, y, part, more, hy, ht, ⟨ts, hts, hmore, hnext⟩, rfl⟩
  · rintro ⟨t, y, part, more, hy, ht, ⟨ts, hts, hmore, hnext⟩, rfl⟩
    exact ⟨dot :: t :: ts, hx.cons (hy.cons hts), .cons hdot ht hmore, hnext⟩

/-- The parts of a key end where no dot follows. -/
theorem segments_yields_iff (stop : Position) (rest : List Piece) (texts : List String) :
    (segments stop rest).Yields texts d ↔
      ∃ ts, (⟨rest, stop⟩ : Cursor eof).Takes ts d ∧ IsSegments ts texts ∧
        d.Next (·.kind ≠ .dot) := by
  fun_induction segments stop rest generalizing texts with
  | case1 stop => exact Reply.ok_yields_iff.trans (isSegments_here (by simp [Cursor.Next])).symm
  | case2 stop p hdot =>
    rw [isSegments_dot (.after p [] stop) (beq_iff_eq.1 hdot)]
    simp only [Reply.fail_yields_iff, false_iff]
    rintro ⟨t, y, part, more, hy, -⟩
    have hsize := hy.size_eq
    rw [Cursor.size_after, List.length_nil, List.length_singleton] at hsize
    omega
  | case3 stop p hdot =>
    exact Reply.ok_yields_iff.trans (isSegments_here (by simpa [Cursor.Next] using hdot)).symm
  | case4 stop p q rest hdot hq =>
    rw [isSegments_dot (.after p (q :: rest) stop) (beq_iff_eq.1 hdot)]
    simp only [Reply.fail_yields_iff, false_iff]
    rintro ⟨t, y, part, more, hy, ht, -⟩
    obtain ⟨rfl, -⟩ := hy.exists_after
    rw [segmentOf?_eq_some_iff.2 ht] at hq
    cases hq
  | case5 stop p q rest hdot part hq ih =>
    rw [Reply.widen_yields_iff, Reply.map_yields_iff,
      isSegments_dot (.after p (q :: rest) stop) (beq_iff_eq.1 hdot)]
    have htake : (Cursor.after p (q :: rest) : Cursor eof).Takes [q.token] (.after q rest) :=
      .after q rest p.token.stop
    constructor
    · rintro ⟨more, hmore, rfl⟩
      exact ⟨q.token, _, part, more, htake, segmentOf?_eq_some_iff.1 hq, (ih more).1 hmore, rfl⟩
    · rintro ⟨t, y, part', more, hy, ht, hmore, rfl⟩
      obtain ⟨rfl, rfl⟩ := htake.unique hy
      rw [segmentOf?_eq_some_iff.2 ht] at hq
      cases hq
      exact ⟨more, (ih more).2 hmore, rfl⟩
  | case6 stop p q rest hdot =>
    exact Reply.ok_yields_iff.trans (isSegments_here (by simpa [Cursor.Next] using hdot)).symm

theorem statement_yields_iff {s : Statement} (hfirst : first.kind = .ident)
    (hc : c.stop = first.stop) :
    (statement first c).Yields s d ↔ ∃ ts, c.Takes ts d ∧ IsStatement (first :: ts) s := by
  constructor
  · intro h
    obtain ⟨more, x, hmore, h⟩ := bind_yields_iff.1 h
    obtain ⟨colon, y, hcolon, h⟩ := bind_yields_iff.1 h
    obtain ⟨v, z, hv, h⟩ := bind_yields_iff.1 h
    obtain ⟨rfl, rfl⟩ := lastStop_bind_yields_iff.1 h
    obtain ⟨ts, hts, hsegments, -⟩ := (segments_yields_iff _ _ _).1 hmore
    obtain ⟨hcolon, hk⟩ := ofKind_yields_iff.1 hcolon
    obtain ⟨us, hus, hdatum⟩ := datum_yields_iff.1 hv
    have htake := hts.trans (hcolon.cons hus)
    refine ⟨ts ++ colon :: us, htake, ?_⟩
    rw [← htake.extent_behind hc]
    exact .statement hfirst hsegments hk hdatum
  · rintro ⟨ts, htake, h⟩
    cases h with
    | @statement _ colon ts us more v _ hsegments hk hdatum =>
      obtain ⟨x, hts, hrest⟩ := Cursor.takes_append_iff.1 htake
      obtain ⟨y, hcolon, hus⟩ := Cursor.takes_cons_iff.1 hrest
      have hnext : x.Next (·.kind ≠ .dot) := by rw [hcolon.next_iff, hk]; decide
      refine bind_yields_iff.2 ⟨more, x, (segments_yields_iff _ _ _).2
        ⟨ts, hts, hsegments, hnext⟩, ?_⟩
      refine bind_yields_iff.2 ⟨colon, y, ofKind_yields_iff.2 ⟨hcolon, hk⟩, ?_⟩
      refine bind_yields_iff.2 ⟨v, d, datum_yields_iff.2 ⟨us, hus, hdatum⟩, ?_⟩
      refine lastStop_bind_yields_iff.2 ⟨?_, rfl⟩
      rw [htake.extent_behind hc]

/-! ## Expressions -/

/-- A token of an expression does not end one on its own line. -/
theorem endsExpr_of_exprToken? {line : Nat} {t : Token} {x : ExprToken}
    (h : t.exprToken? = some x) (hline : t.start.line = line) : endsExpr line t = false := by
  have hk : t.kind ≠ .rbrace ∧ t.kind ≠ .semicolon := by
    constructor <;> intro hk <;> simp [Token.exprToken?, hk] at h
  simp [endsExpr, hline, hk]

/-- The tokens that go on with an expression on its line, up to one that ends it. -/
def GoesOn (line : Nat) (c : Cursor eof) (ts : List Token) (xs : List ExprToken)
    (d : Cursor eof) : Prop :=
  c.Takes ts d ∧ List.Forall₂ (fun u y => u.exprToken? = some y) ts xs ∧
    (∀ u ∈ ts, u.start.line = line) ∧ d.Next (endsExpr line · = true)

/-- Where a token ends the expression, nothing goes on with it. -/
theorem goesOn_here {line : Nat} {xs : List ExprToken} (h : c.Next (endsExpr line · = true)) :
    (∃ ts, GoesOn line c ts xs d) ↔ [] = xs ∧ c = d := by
  constructor
  · rintro ⟨ts, hts, hall, hline, -⟩
    cases hall with
    | nil => exact ⟨rfl, Cursor.takes_nil_iff.1 hts⟩
    | cons hu =>
      have hends := endsExpr_of_exprToken? hu (hline _ List.mem_cons_self)
      rw [hts.next_iff.1 h] at hends
      cases hends
  · rintro ⟨rfl, rfl⟩
    exact ⟨[], Cursor.takes_nil_iff.2 rfl, .nil, by simp, h⟩

/-- An expression goes on up to the token that ends it. -/
theorem exprRest_yields_iff {line : Nat} (stop : Position) (rest : List Piece)
    (xs : List ExprToken) :
    (exprRest line stop rest).Yields xs d ↔
      ∃ ts, GoesOn line (⟨rest, stop⟩ : Cursor eof) ts xs d := by
  fun_induction exprRest line stop rest generalizing xs with
  | case1 stop => exact Reply.ok_yields_iff.trans (goesOn_here (by simp [Cursor.Next])).symm
  | case2 stop p rest hends =>
    exact Reply.ok_yields_iff.trans (goesOn_here (by simpa [Cursor.Next] using hends)).symm
  | case3 stop p rest hends hp =>
    simp only [Reply.fail_yields_iff, false_iff]
    rintro ⟨ts, hts, hall, -, hnext⟩
    cases hall with
    | nil =>
      obtain rfl := Cursor.takes_nil_iff.1 hts
      exact hends (hnext p rfl)
    | cons hu =>
      obtain ⟨rfl, -⟩ := hts.exists_after
      rw [hp] at hu
      cases hu
  | case4 stop p rest hends x hx ih =>
    have htake : (⟨p :: rest, stop⟩ : Cursor eof).Takes [p.token] (.after p rest) :=
      .after p rest stop
    have hline : p.token.start.line = line := by
      by_contra hne
      exact hends (by simp [endsExpr, hne])
    refine (Reply.widen_yields_iff.trans Reply.map_yields_iff).trans ?_
    constructor
    · rintro ⟨ys, hys, rfl⟩
      obtain ⟨ts, hts, hall, hlines, hnext⟩ := (ih ys).1 hys
      exact ⟨p.token :: ts, htake.cons hts, .cons hx hall, by simpa [hline] using hlines, hnext⟩
    · rintro ⟨ts, hts, hall, hlines, hnext⟩
      cases hall with
      | nil =>
        obtain rfl := Cursor.takes_nil_iff.1 hts
        exact absurd (hnext p rfl) hends
      | @cons u y ts ys hu hall =>
        obtain ⟨rfl, htail⟩ := hts.exists_after
        rw [hx] at hu
        cases hu
        exact ⟨ys, (ih ys).2 ⟨ts, htail, hall, fun u hu => hlines u (List.mem_cons_of_mem _ hu),
          hnext⟩, rfl⟩

theorem expr_yields_iff {e : Expr} (hc : c.stop = first.stop) :
    (expr first c).Yields e d ↔
      ∃ ts, c.Takes ts d ∧ IsExpr (first :: ts) e ∧
        d.Next (endsExpr first.start.line · = true) := by
  constructor
  · intro h
    unfold expr at h
    cases hx : first.exprToken? with
    | none =>
      rw [hx] at h
      exact (Reply.fail_yields_iff.1 h).elim
    | some x =>
      rw [hx] at h
      obtain ⟨xs, y, hxs, h⟩ := bind_yields_iff.1 h
      obtain ⟨rfl, rfl⟩ := lastStop_bind_yields_iff.1 h
      obtain ⟨ts, hts, hall, hline, hnext⟩ := (exprRest_yields_iff _ _ _).1 hxs
      refine ⟨ts, hts, ?_, hnext⟩
      rw [← hts.extent_behind hc]
      exact .expr hx hall hline
  · rintro ⟨ts, hts, he, hnext⟩
    cases he with
    | @expr _ _ x xs hx hall hline =>
      unfold expr
      rw [hx]
      refine bind_yields_iff.2 ⟨xs, d, (exprRest_yields_iff _ _ _).2 ⟨ts, hts, hall, hline, hnext⟩,
        lastStop_bind_yields_iff.2 ⟨?_, rfl⟩⟩
      rw [hts.extent_behind hc]

/-! ## Declarations -/

theorem importClause_yields_iff {i : Import} (hfirst : first.isKeyword "import" = true)
    (hc : c.stop = first.stop) :
    (importClause first c).Yields i d ↔ ∃ ts, c.Takes ts d ∧ IsImport (first :: ts) i := by
  constructor
  · intro h
    obtain ⟨o, x, ho, h⟩ := bind_yields_iff.1 h
    obtain ⟨path, y, hpath, h⟩ := bind_yields_iff.1 h
    obtain ⟨rfl, rfl⟩ := lastStop_bind_yields_iff.1 h
    obtain ⟨hpath, hk⟩ := ofKind_yields_iff.1 hpath
    rcases next?_yields_iff.1 ho with ⟨rfl, rfl, -⟩ | ⟨n, rfl, hn, hname⟩
    · refine ⟨[path], hpath, ?_⟩
      rw [← hpath.extent_behind hc]
      exact .plain hfirst hk
    · refine ⟨[n, path], hn.cons hpath, ?_⟩
      rw [← (hn.cons hpath).extent_behind hc]
      exact .named hfirst hname hk
  · rintro ⟨ts, hts, h⟩
    cases h with
    | @plain _ path _ hk =>
      have hnext : c.Next (Token.isName · = false) := by
        rw [hts.next_iff]
        simp [Token.isName, hk]
      refine bind_yields_iff.2 ⟨none, c, next?_yields_iff.2 (.inl ⟨rfl, rfl, hnext⟩), ?_⟩
      refine bind_yields_iff.2 ⟨path, d, ofKind_yields_iff.2 ⟨hts, hk⟩, ?_⟩
      refine lastStop_bind_yields_iff.2 ⟨?_, rfl⟩
      rw [hts.extent_behind hc]
      rfl
    | @named _ n path _ hname hk =>
      obtain ⟨x, hn, hpath⟩ := Cursor.takes_cons_iff.1 hts
      refine bind_yields_iff.2 ⟨some n, x, next?_yields_iff.2 (.inr ⟨n, rfl, hn, hname⟩), ?_⟩
      refine bind_yields_iff.2 ⟨path, d, ofKind_yields_iff.2 ⟨hpath, hk⟩, ?_⟩
      refine lastStop_bind_yields_iff.2 ⟨?_, rfl⟩
      rw [hts.extent_behind hc]
      rfl

theorem queryClause_yields_iff {q : Query} (hfirst : first.isKeyword "query" = true)
    (hc : c.stop = first.stop) :
    (queryClause first c).Yields q d ↔ ∃ ts, c.Takes ts d ∧ IsQuery (first :: ts) q := by
  constructor
  · intro h
    obtain ⟨_, x, hread, h⟩ := bind_yields_iff.1 h
    obtain ⟨body, y, hbody, h⟩ := bind_yields_iff.1 h
    obtain ⟨rfl, rfl⟩ := lastStop_bind_yields_iff.1 h
    obtain ⟨n, hn, hname, rfl⟩ := name_yields_iff.1 hread
    obtain ⟨hbody, hk⟩ := ofKind_yields_iff.1 hbody
    refine ⟨[n, body], hn.cons hbody, ?_⟩
    rw [← (hn.cons hbody).extent_behind hc]
    exact .query hfirst hname hk
  · rintro ⟨ts, hts, h⟩
    cases h with
    | @query _ n body _ hname hk =>
      obtain ⟨x, hn, hbody⟩ := Cursor.takes_cons_iff.1 hts
      refine bind_yields_iff.2 ⟨n.text, x, name_yields_iff.2 ⟨n, hn, hname, rfl⟩, ?_⟩
      refine bind_yields_iff.2 ⟨body, d, ofKind_yields_iff.2 ⟨hbody, hk⟩, ?_⟩
      refine lastStop_bind_yields_iff.2 ⟨?_, rfl⟩
      rw [hts.extent_behind hc]

theorem teardownClause_yields_iff {t : Teardown} (hfirst : first.isKeyword "teardown" = true)
    (hc : c.stop = first.stop) :
    (teardownClause first c).Yields t d ↔ ∃ ts, c.Takes ts d ∧ IsTeardown (first :: ts) t := by
  constructor
  · intro h
    obtain ⟨body, x, hbody, h⟩ := bind_yields_iff.1 h
    obtain ⟨rfl, rfl⟩ := lastStop_bind_yields_iff.1 h
    obtain ⟨hbody, hk⟩ := ofKind_yields_iff.1 hbody
    refine ⟨[body], hbody, ?_⟩
    rw [← hbody.extent_behind hc]
    exact .teardown hfirst hk
  · rintro ⟨ts, hts, h⟩
    cases h with
    | @teardown _ body _ hk =>
      refine bind_yields_iff.2 ⟨body, d, ofKind_yields_iff.2 ⟨hts, hk⟩, ?_⟩
      refine lastStop_bind_yields_iff.2 ⟨?_, rfl⟩
      rw [hts.extent_behind hc]

end Phrase

/-! ## The query of an assertion -/

theorem IsCall.head_isName {ts : List Token} {call : Call} (h : IsCall ts call) :
    ∃ t us, ts = t :: us ∧ t.isName = true := by
  cases h with
  | plain hn => exact ⟨_, _, rfl, hn⟩
  | qualified hm => exact ⟨_, _, rfl, hm⟩

namespace Clause

variable {c d : Cursor eof}

/-- What is read as the query of an assertion is spelled as one. -/
theorem isAssertionQuery_of_yields {q : Option AssertionQuery}
    (h : (assertionQuery c).Yields q d) : ∃ ts, c.Takes ts d ∧ IsAssertionQuery ts q := by
  obtain ⟨o, x, ho, h⟩ := Phrase.bind_yields_iff.1 h
  rcases Phrase.next?_yields_iff.1 ho with ⟨rfl, rfl, -⟩ | ⟨t, rfl, ht, hk⟩
  · obtain ⟨rfl, rfl⟩ := Phrase.pure_yields_iff.1 h
    exact ⟨[], Cursor.takes_nil_iff.2 rfl, .absent⟩
  · dsimp only at h
    split_ifs at h with hraw
    · obtain ⟨rfl, rfl⟩ := Phrase.pure_yields_iff.1 h
      exact ⟨[t], ht, .inline (beq_iff_eq.1 hraw)⟩
    · have hname : t.isName = true := by simpa [hraw] using hk
      obtain ⟨call, y, hcall, hpure⟩ := Phrase.bind_yields_iff.1 h
      obtain ⟨rfl, rfl⟩ := Phrase.pure_yields_iff.1 hpure
      obtain ⟨ts, hts, hcall, -⟩ := Phrase.isCall_of_yields hname ht.stop_eq hcall
      exact ⟨t :: ts, ht.cons hts, .call hcall⟩

/-- The query of an assertion is read where the brace of the assertion follows. -/
theorem assertionQuery_yields {q : Option AssertionQuery} {ts : List Token} (hts : c.Takes ts d)
    (h : IsAssertionQuery ts q) (hnext : d.Next (·.kind = .lbrace)) :
    (assertionQuery c).Yields q d := by
  rw [assertionQuery, Phrase.bind_yields_iff]
  cases h with
  | absent =>
    obtain rfl := Cursor.takes_nil_iff.1 hts
    have hnone : c.Next (fun t => (t.kind == .rawString || t.isName) = false) :=
      hnext.mono fun t ht => by simp [ht, Token.isName]
    exact ⟨none, c, Phrase.next?_yields_iff.2 (.inl ⟨rfl, rfl, hnone⟩),
      Phrase.pure_yields_iff.2 ⟨rfl, rfl⟩⟩
  | @inline t hk =>
    refine ⟨some t, d, Phrase.next?_yields_iff.2 (.inr ⟨t, rfl, hts, by simp [hk]⟩), ?_⟩
    dsimp only
    rw [if_pos (beq_iff_eq.2 hk)]
    exact Phrase.pure_yields_iff.2 ⟨rfl, rfl⟩
  | @call _ call hcall =>
    obtain ⟨t, us, rfl, hname⟩ := hcall.head_isName
    obtain ⟨x, ht, hus⟩ := Cursor.takes_cons_iff.1 hts
    refine ⟨some t, x, Phrase.next?_yields_iff.2 (.inr ⟨t, rfl, ht, by simp [hname]⟩), ?_⟩
    dsimp only
    rw [if_neg (by simp [kind_eq_of_isName hname])]
    have hends : d.Next Phrase.EndsCall :=
      hnext.mono fun u hu => ⟨by simp [hu], by simp [hu]⟩
    exact Phrase.bind_yields_iff.2 ⟨call, d, Phrase.call_yields ht.stop_eq hus hcall hends,
      Phrase.pure_yields_iff.2 ⟨rfl, rfl⟩⟩

end Clause

end QuerySuite.Grammar
