import QuerySuite.Proofs.Forward
import QuerySuite.Proofs.Phrases
import QuerySuite.Proofs.Streams

/-!
# Braces

How many more braces a list of tokens opens than it closes. A phrase closes every brace that it
opens: the only braces in a phrase are those around maps.

Results:

* `balance_eq_countP`: the balance as a difference of two counts.
* `Phrase.call_balance`, `Phrase.statement_balance`, `Phrase.expr_balance`,
  `Phrase.importClause_balance`, `Phrase.queryClause_balance`, `Phrase.teardownClause_balance`,
  `Clause.assertionQuery_balance`: the phrases that clauses are made of.
-/

namespace QuerySuite

/-- What a token of this kind adds to the depth of braces. -/
def Token.Kind.brace : Kind → Int
  | lbrace => 1
  | rbrace => -1
  | _ => 0

/-- How many more braces the tokens open than they close. -/
def balance : List Token → Int
  | [] => 0
  | t :: ts => t.kind.brace + balance ts

@[simp]
theorem balance_nil : balance [] = 0 := rfl

@[simp]
theorem balance_cons (t : Token) (ts : List Token) :
    balance (t :: ts) = t.kind.brace + balance ts := rfl

@[simp]
theorem balance_append (ts us : List Token) : balance (ts ++ us) = balance ts + balance us := by
  induction ts with
  | nil => rw [List.nil_append, balance_nil, Int.zero_add]
  | cons t ts ih => rw [List.cons_append, balance_cons, balance_cons, ih, Int.add_assoc]

theorem balance_eq_countP (ts : List Token) :
    balance ts = ts.countP (·.kind == .lbrace) - ts.countP (·.kind == .rbrace) := by
  induction ts with
  | nil => rfl
  | cons t ts ih =>
    rw [balance_cons, ih, List.countP_cons, List.countP_cons]
    cases ht : t.kind <;> simp [Token.Kind.brace] <;> omega

theorem balance_perm {ts us : List Token} (h : ts.Perm us) : balance ts = balance us := by
  rw [balance_eq_countP, balance_eq_countP, h.countP_eq, h.countP_eq]

/-- Trivia are no braces. -/
theorem balance_significant (ts : List Token) : balance (Token.significant ts) = balance ts := by
  induction ts with
  | nil => rfl
  | cons t ts ih =>
    by_cases ht : t.isTrivia = true
    · have hbrace : t.kind.brace = 0 := by
        rcases (Token.Kind.isTrivia_iff t.kind).1 ht with h | h <;> rw [h] <;> rfl
      rw [balance_cons, hbrace, Int.zero_add, ← ih]
      simp [Token.significant, ht]
    · rw [Token.significant_cons_of_not_isTrivia (by simpa using ht), balance_cons, balance_cons,
        ih]

namespace Grammar

variable {eof : Token} {α β : Type}

/-- The balance of the tokens that are left. -/
def Cursor.balance (c : Cursor eof) : Int := QuerySuite.balance (c.rest.map (·.token))

@[simp]
theorem Cursor.balance_nil (stop : Position) : (⟨[], stop⟩ : Cursor eof).balance = 0 := rfl

@[simp]
theorem Cursor.balance_cons (p : Piece) (rest : List Piece) (stop : Position) :
    (⟨p :: rest, stop⟩ : Cursor eof).balance =
      p.token.kind.brace + (.after p rest : Cursor eof).balance :=
  QuerySuite.balance_cons p.token _

/-- A pair of brackets changes nothing. -/
theorem Cursor.balance_around {p : Piece} {rest : List Piece} {stop : Position} {d : Cursor eof}
    {opening close : Token.Kind} (hp : (p.token.kind == opening) = true)
    (hpair : opening.brace + close.brace = 0)
    (h : (.after p rest : Cursor eof).balance = close.brace + d.balance) :
    (⟨p :: rest, stop⟩ : Cursor eof).balance = d.balance := by
  rw [balance_cons, h, beq_iff_eq.1 hp]
  omega

theorem Cursor.balance_of_read? {c d : Cursor eof} {accepts : Token → Bool} {t : Token}
    (h : c.read? accepts = some (t, d)) : c.balance = t.kind.brace + d.balance := by
  rcases c with ⟨_ | ⟨p, rest⟩, stop⟩
  · simp [read?] at h
  · simp only [read?] at h
    split at h
    · cases h
      exact balance_cons p rest stop
    · cases h

/-- Two facts about one reply. -/
theorem Reply.From.and {c : Cursor eof} {n : Nat} {P Q : α → Cursor eof → Prop}
    {r : Reply eof α n} (h : r.From c P) (h' : r.From c Q) : r.From c fun a d => P a d ∧ Q a d := by
  cases r with
  | ok a d hd => exact ⟨⟨h.1, h'.1⟩, h.2⟩
  | fail e => exact h

/-! ## Tokens -/

theorem brace_of_isName {t : Token} (h : t.isName = true) : t.kind.brace = 0 := by
  simp only [Token.isName, Bool.and_eq_true, beq_iff_eq] at h
  rw [h.1]
  rfl

theorem brace_of_isKeyword {t : Token} {word : String} (h : t.isKeyword word = true) :
    t.kind.brace = 0 := by
  simp only [Token.isKeyword, Bool.and_eq_true, beq_iff_eq] at h
  rw [h.1]
  rfl

theorem brace_of_kind {t : Token} {k : Token.Kind} (h : (t.kind == k) = true) :
    t.kind.brace = k.brace := by
  rw [beq_iff_eq.1 h]

theorem brace_of_exprToken? {t : Token} {x : ExprToken} (h : t.exprToken? = some x) :
    t.kind.brace = 0 := by
  unfold Token.exprToken? at h
  cases ht : t.kind <;> rw [ht] at h <;> first | rfl | cases h

namespace Phrase

theorem brace_of_literalOf {t : Token} {l : Literal} (h : literalOf t = .ok l) :
    t.kind.brace = 0 := by
  unfold literalOf at h
  cases ht : t.kind <;> rw [ht] at h <;> first | rfl | cases h

theorem brace_of_labelOf? {t : Token} (h : (labelOf? t).isSome = true) : t.kind.brace = 0 := by
  unfold labelOf? at h
  split_ifs at h with hstring hname
  · exact brace_of_kind hstring
  · exact brace_of_isName hname
  · cases h

theorem brace_of_segmentOf? {t : Token} {texts : List String} (h : segmentOf? t = some texts) :
    t.kind.brace = 0 := by
  unfold segmentOf? at h
  split_ifs at h with hname hnumber
  · exact brace_of_isName hname
  · rw [Bool.and_eq_true] at hnumber
    exact brace_of_kind hnumber.1

/-! ## Literals, keys and arguments -/

theorem expect_balance {accepts : Token → Bool} {b : Int}
    (h : ∀ t, accepts t = true → t.kind.brace = b) (expected : String) (c : Cursor eof) :
    (expect accepts expected c).From c fun _ d => c.balance = b + d.balance := by
  unfold expect
  split
  · next t d hread =>
    obtain ⟨p, -, hr⟩ := Cursor.read?_reads hread
    refine .ok ?_ ⟨[p], hr⟩
    rw [← h t (Cursor.read?_eq_some hread).2.1]
    exact Cursor.balance_of_read? hread
  · exact .unexpected expected

theorem next?_balance {accepts : Token → Bool} (h : ∀ t, accepts t = true → t.kind.brace = 0)
    (c : Cursor eof) : (next? accepts c).From c fun _ d => c.balance = d.balance := by
  unfold next?
  split
  · next t d hread =>
    obtain ⟨p, -, hr⟩ := Cursor.read?_reads hread
    refine .ok ?_ ⟨[p], hr⟩
    rw [Cursor.balance_of_read? hread, h t (Cursor.read?_eq_some hread).2.1, Int.zero_add]
  · exact .here rfl

theorem ofKind_balance (k : Token.Kind) (expected : String) (c : Cursor eof) :
    (ofKind k expected c).From c fun _ d => c.balance = k.brace + d.balance :=
  expect_balance (fun _ => brace_of_kind) expected c

theorem name_balance (expected : String) (c : Cursor eof) :
    (name expected c).From c fun _ d => c.balance = d.balance :=
  (expect_balance (fun _ => brace_of_isName) expected c).bind
    fun _ d h => .here (by rw [h, Int.zero_add])

theorem label_balance (expected : String) (c : Cursor eof) :
    (label expected c).From c fun _ d => c.balance = d.balance :=
  (expect_balance (fun _ => brace_of_labelOf?) expected c).bind
    fun _ d h => .here (by rw [h, Int.zero_add])

theorem literal_balance (c : Cursor eof) :
    (literal c).From c fun _ d => c.balance = d.balance := by
  rcases c with ⟨_ | ⟨p, rest⟩, stop⟩
  · exact .unexpected "value"
  · simp only [literal]
    split
    · next l h =>
      refine .ok ?_ ⟨[p], .after p rest stop⟩
      rw [Cursor.balance_cons, brace_of_literalOf h, Int.zero_add]
    · next e h => exact ⟨p.token, List.mem_cons_self, raisedIn_of_literalOf h⟩

end Phrase

/-- Elements in brackets close what was opened before them. -/
theorem elements_balance_of_lt {close : Token.Kind} {expected : String} :
    ∀ (n : Nat) (c : Cursor eof), c.size < n →
      ∀ element : (d : Cursor eof) → d.size ≤ c.size → Reply eof α d.size,
        (∀ d hd, (element d hd).From d fun _ e => d.balance = e.balance) →
        (elements close expected c element).From c fun _ d =>
          c.balance = close.brace + d.balance := by
  intro n
  induction n with
  | zero => intro c hn; omega
  | succ n ih =>
    intro c hn element h
    -- The closing bracket ends the list wherever it stands.
    have closed {d e : Cursor eof} {t : Token} (hread : d.read? (·.kind == close) = some (t, e)) :
        d.balance = close.brace + e.balance := by
      rw [← brace_of_kind (Cursor.read?_eq_some hread).2.1]
      exact Cursor.balance_of_read? hread
    rw [elements]
    split
    · next t d h₁ =>
      obtain ⟨p, -, hr⟩ := Cursor.read?_reads h₁
      exact .ok (closed h₁) ⟨[p], hr⟩
    · refine (h c c.le_refl).andThen fun a d hd ha => ?_
      split
      · next t e h₂ =>
        obtain ⟨p, -, hr⟩ := Cursor.read?_reads h₂
        exact .ok (ha.trans (closed h₂)) ⟨[p], hr⟩
      · split
        · exact .unexpected expected
        · next t e h₃ =>
          obtain ⟨p, -, hr⟩ := Cursor.read?_reads h₃
          have hlt := Cursor.size_lt_of_read? h₃
          have hcomma : t.kind.brace = 0 := brace_of_kind (Cursor.read?_eq_some h₃).2.1
          have hde : d.balance = e.balance := by
            rw [Cursor.balance_of_read? h₃, hcomma, Int.zero_add]
          have rest := ih e (by omega) _ fun x hx => h x (by omega)
          refine ((rest.map fun as f has => ?_).before hr).widen _
          rw [ha, hde, has]

theorem elements_balance {close : Token.Kind} {expected : String} (c : Cursor eof)
    (element : (d : Cursor eof) → d.size ≤ c.size → Reply eof α d.size)
    (h : ∀ d hd, (element d hd).From d fun _ e => d.balance = e.balance) :
    (elements close expected c element).From c fun _ d => c.balance = close.brace + d.balance :=
  elements_balance_of_lt (c.size + 1) c (Nat.lt_succ_self _) element h

namespace Phrase

theorem entry_balance (c : Cursor eof)
    (element : (d : Cursor eof) → d.size ≤ c.size → Reply eof α d.size)
    (h : ∀ d hd, (element d hd).From d fun _ e => d.balance = e.balance) :
    (entry c element).From c fun _ d => c.balance = d.balance := by
  refine (label_balance "map key" c).andThen fun key d hd hkey => ?_
  refine (ofKind_balance .colon "':'" d).andThen fun _ e he hcolon => ?_
  refine (h e _).andThen fun v f _ hv => .here ?_
  rw [hkey, hcolon, hv]
  exact Int.zero_add _

theorem argument_balance_of_lt :
    ∀ (n : Nat) (c : Cursor eof), c.size < n →
      (argument c).From c fun _ d => c.balance = d.balance := by
  intro n
  induction n with
  | zero => intro c hn; omega
  | succ n ih =>
    rintro ⟨_ | ⟨p, rest⟩, stop⟩ hn
    · rw [argument]
      exact .unexpected "value"
    · have hr : Cursor.Reads (⟨p :: rest, stop⟩ : Cursor eof) [p] (.after p rest) :=
        .after p rest stop
      have inner (d : Cursor eof) (hd : d.size ≤ rest.length) :
          (argument d).From d fun _ e => d.balance = e.balance := ih d (by simp at hn; omega)
      rw [argument]
      split_ifs with hparameter hlist hmap
      · rw [Bool.and_eq_true] at hparameter
        split
        · refine .ok ?_ ⟨[p], hr⟩
          rw [Cursor.balance_cons, brace_of_kind hparameter.1]
          exact Int.zero_add _
        · exact .unexpected "parameter value"
      · refine (((elements_balance _ _ inner).map fun as d has => ?_).before hr).widen _
        exact Cursor.balance_around hlist rfl has
      · refine (((elements_balance _ _ ?_).map fun as d has => ?_).before hr).widen _
        · intro d hd
          exact entry_balance d _ fun e he => inner e (Nat.le_trans he hd)
        · exact Cursor.balance_around hmap rfl has
      · exact (literal_balance _).map fun _ _ h => h

theorem argument_balance (c : Cursor eof) :
    (argument c).From c fun _ d => c.balance = d.balance :=
  argument_balance_of_lt (c.size + 1) c (Nat.lt_succ_self _)

/-! ## Calls -/

theorem param_balance (c : Cursor eof) : (param c).From c fun _ d => c.balance = d.balance := by
  refine (name_balance "parameter name" c).bind fun name d hname => ?_
  refine (ofKind_balance .colon "':'" d).bind fun _ e hcolon => ?_
  refine Reply.From.bind (argument_balance e) fun value f hvalue => .here ?_
  rw [hname, hcolon, hvalue]
  exact Int.zero_add _

theorem callTarget_balance (first : Token) (c : Cursor eof) :
    (callTarget first c).From c fun _ d => c.balance = d.balance := by
  refine (next?_balance (fun _ => brace_of_kind) c).bind fun dot d hdot => ?_
  cases dot with
  | none => exact .here hdot
  | some dot => exact (name_balance "query name" d).bind fun query e h => .here (hdot.trans h)

theorem callParams_balance (c : Cursor eof) :
    (callParams c).From c fun _ d => c.balance = d.balance := by
  refine (next?_balance (fun _ => brace_of_kind) c).bind fun bracket d hbracket => ?_
  cases bracket with
  | none => exact .here hbracket
  | some bracket =>
    refine (elements_balance d _ fun e _ => param_balance e).mono fun _ e h => ?_
    rw [hbracket, h]
    exact Int.zero_add _

theorem call_balance (first : Token) (c : Cursor eof) :
    (call first c).From c fun _ d => c.balance = d.balance := by
  refine (callTarget_balance first c).bind fun target d htarget => ?_
  refine (callParams_balance d).bind fun params e hparams => ?_
  exact .here (c := e) (htarget.trans hparams)

/-! ## Statements and expressions -/

theorem datum_balance_of_lt :
    ∀ (n : Nat) (c : Cursor eof), c.size < n →
      (datum c).From c fun _ d => c.balance = d.balance := by
  intro n
  induction n with
  | zero => intro c hn; omega
  | succ n ih =>
    rintro ⟨_ | ⟨p, rest⟩, stop⟩ hn
    · rw [datum]
      exact .unexpected "value"
    · have hr : Cursor.Reads (⟨p :: rest, stop⟩ : Cursor eof) [p] (.after p rest) :=
        .after p rest stop
      have inner (d : Cursor eof) (hd : d.size ≤ rest.length) :
          (datum d).From d fun _ e => d.balance = e.balance := ih d (by simp at hn; omega)
      rw [datum]
      split_ifs with hlist hmap
      · refine (((elements_balance _ _ inner).andThen fun vs d _ hvs => .here ?_).before hr).widen _
        exact Cursor.balance_around hlist rfl hvs
      · refine (((elements_balance _ _ ?_).andThen fun es d _ hes => .here ?_).before hr).widen _
        · intro d hd
          exact entry_balance d _ fun e he => inner e (Nat.le_trans he hd)
        · exact Cursor.balance_around hmap rfl hes
      · exact (literal_balance _).andThen fun l d _ h => .here h

theorem datum_balance (c : Cursor eof) : (datum c).From c fun _ d => c.balance = d.balance :=
  datum_balance_of_lt (c.size + 1) c (Nat.lt_succ_self _)

theorem segments_balance :
    ∀ (stop : Position) (rest : List Piece),
      (segments stop rest).From (⟨rest, stop⟩ : Cursor eof) fun _ d =>
        (⟨rest, stop⟩ : Cursor eof).balance = d.balance := by
  intro stop rest
  fun_induction segments stop rest with
  | case1 stop => exact .here rfl
  | case2 stop p h => exact ⟨eof, by simp [Cursor.tokens], .inl ⟨_, rfl⟩⟩
  | case3 stop p h => exact .here rfl
  | case4 stop p q rest h hq => exact ⟨q.token, by simp [Cursor.tokens], .inl ⟨_, rfl⟩⟩
  | case5 stop p q rest h texts hq ih =>
    have hr : (⟨p :: q :: rest, stop⟩ : Cursor eof).Reads [p, q] ⟨rest, q.token.stop⟩ := ⟨rfl, rfl⟩
    refine ((ih.map fun _ d hd => ?_).before hr).widen _
    rw [← hd, Cursor.balance_cons, Cursor.after, Cursor.balance_cons, brace_of_kind h,
      brace_of_segmentOf? hq, Int.zero_add]
    exact Int.zero_add _
  | case6 stop p q rest h => exact .here rfl

theorem statement_balance (first : Token) (c : Cursor eof) :
    (statement first c).From c fun _ d => c.balance = d.balance := by
  refine Reply.From.bind (segments_balance c.stop c.rest) fun more d hmore => ?_
  refine (ofKind_balance .colon "':'" d).bind fun _ e hcolon => ?_
  refine Reply.From.bind (datum_balance e) fun value f hvalue => ?_
  refine .here (c := f) ?_
  rw [hmore.trans hcolon, hvalue]
  exact Int.zero_add _

theorem exprRest_balance (line : Nat) :
    ∀ (stop : Position) (rest : List Piece),
      (exprRest line stop rest).From (⟨rest, stop⟩ : Cursor eof) fun _ d =>
        (⟨rest, stop⟩ : Cursor eof).balance = d.balance := by
  intro stop rest
  fun_induction exprRest line stop rest with
  | case1 stop => exact .here rfl
  | case2 stop p rest h => exact .here rfl
  | case3 stop p rest h hp => exact .unexpected "expression"
  | case4 stop p rest h t hp ih =>
    refine ((ih.map fun _ d hd => ?_).before (.after p rest stop)).widen _
    rw [Cursor.balance_cons, brace_of_exprToken? hp, Int.zero_add]
    exact hd

/-- An expression, its first token included. -/
theorem expr_balance (p : Piece) (rest : List Piece) (stop : Position) :
    (expr p.token (.after p rest)).From (⟨p :: rest, stop⟩ : Cursor eof) fun _ d =>
      (⟨p :: rest, stop⟩ : Cursor eof).balance = d.balance := by
  unfold expr
  cases ht : p.token.exprToken? with
  | none => exact .unexpected "expression"
  | some t =>
    refine Reply.From.before ?_ (.after p rest stop)
    refine Reply.From.bind (exprRest_balance _ _ rest) fun more d hmore => ?_
    refine .here (c := d) ?_
    rw [Cursor.balance_cons, brace_of_exprToken? ht, Int.zero_add]
    exact hmore

/-! ## Declarations -/

theorem importClause_balance (lead : Token) (c : Cursor eof) :
    (importClause lead c).From c fun _ d => c.balance = d.balance := by
  refine (next?_balance (fun _ => brace_of_isName) c).bind fun aliasName d halias => ?_
  refine (ofKind_balance .string "import path" d).bind fun path e hpath => ?_
  refine .here (c := e) ?_
  rw [halias, hpath]
  exact Int.zero_add _

theorem queryClause_balance (lead : Token) (c : Cursor eof) :
    (queryClause lead c).From c fun _ d => c.balance = d.balance := by
  refine (name_balance "query name" c).bind fun name d hname => ?_
  refine (ofKind_balance .rawString "query body" d).bind fun body e hbody => ?_
  refine .here (c := e) ?_
  rw [hname, hbody]
  exact Int.zero_add _

theorem teardownClause_balance (lead : Token) (c : Cursor eof) :
    (teardownClause lead c).From c fun _ d => c.balance = d.balance := by
  refine (ofKind_balance .rawString "teardown body" c).bind fun body d hbody => ?_
  refine .here (c := d) ?_
  rw [hbody]
  exact Int.zero_add _

end Phrase

theorem Clause.assertionQuery_balance (c : Cursor eof) :
    (assertionQuery c).From c fun _ d => c.balance = d.balance := by
  have hbrace (t : Token) (h : (t.kind == .rawString || t.isName) = true) : t.kind.brace = 0 := by
    rw [Bool.or_eq_true] at h
    exact h.elim brace_of_kind brace_of_isName
  refine (Phrase.next?_balance hbrace c).bind fun t d ht => ?_
  cases t with
  | none => exact .here ht
  | some t =>
    dsimp only
    split_ifs
    · exact .here ht
    · exact (Phrase.call_balance t d).bind fun call e h => .here (ht.trans h)

end Grammar

end QuerySuite
