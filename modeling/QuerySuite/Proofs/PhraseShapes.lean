import QuerySuite.Grammar.Clauses
import QuerySuite.Proofs.Shapes

/-!
# Phrases in documents of the same shape

A phrase that is begun where two documents look the same gives the same in both, apart from the
places, and reads equally far. Only an expression looks at a place: it ends with its line. In both
documents that is where the next line is opened, since no token of an expression reaches over a line
break.

Results:

* `Phrase.datum_alike`, `Phrase.statement_alike`, `Phrase.call_alike`: values, statements and calls.
* `Phrase.expr_alike`: expressions.
-/

namespace QuerySuite.Grammar.Phrase

variable {eof eof' : Token} {α β : Type} {c : Cursor eof} {c' : Cursor eof'}

/-! ## Literals and keys -/

/-- Two tokens stand for the same literal, or none of them for one. -/
theorem literalOf_cases {t t' : Token} (h : TokenAlike eof eof' t t') :
    (∃ l, literalOf t = .ok l ∧ literalOf t' = .ok l) ∨
      ∃ expected, literalOf t = .error (.unexpected expected t) ∧
        literalOf t' = .error (.unexpected expected t') := by
  unfold literalOf
  rw [← h.kind_eq, ← h.text_eq]
  split
  · exact .inl ⟨_, rfl, rfl⟩
  · split
    · exact .inl ⟨_, rfl, rfl⟩
    · exact .inr ⟨_, rfl, rfl⟩
  · split_ifs
    · exact .inl ⟨_, rfl, rfl⟩
    · exact .inl ⟨_, rfl, rfl⟩
    · exact .inl ⟨_, rfl, rfl⟩
    · exact .inr ⟨_, rfl, rfl⟩
  · exact .inr ⟨_, rfl, rfl⟩

theorem literal_alike (h : c.Alike c') : (literal c).Alike (· = ·) (literal c') := by
  rcases c with ⟨_ | ⟨p, rest⟩, stop⟩ <;> rcases c' with ⟨_ | ⟨p', rest'⟩, stop'⟩
  · exact .unexpected h "value"
  · cases h
  · cases h
  · simp only [literal]
    have htoken := Grammar.Alike.token h
    rcases literalOf_cases htoken with ⟨l, hl, hl'⟩ | ⟨expected, hl, hl'⟩
    · rw [hl, hl']
      exact .here rfl (Grammar.Alike.tail h)
    · rw [hl, hl']
      exact htoken.unexpected expected

theorem label_alike (h : c.Alike c') (expected : String) :
    (label expected c).Alike (· = ·) (label expected c') := by
  refine (expect_alike h (fun _ => rfl) expected).bind fun t t' _ _ ht hd => .here ?_ hd
  rw [ht.congr (f := labelOf?) fun _ => rfl]

/-- The entries have the same key, and `R` relates their values. -/
def EntryAlike (R : α → β → Prop) (e : Entry α) (e' : Entry β) : Prop :=
  e.key = e'.key ∧ R e.value e'.value

theorem entry_alike {R : α → β → Prop} (hc : c.Alike c')
    {element : (d : Cursor eof) → d.size ≤ c.size → Reply eof α d.size}
    {element' : (d : Cursor eof') → d.size ≤ c'.size → Reply eof' β d.size}
    (h : ∀ d d' hd hd', d.Alike d' → (element d hd).Alike R (element' d' hd')) :
    (entry c element).Alike (EntryAlike R) (entry c' element') := by
  refine (label_alike hc "map key").andThen fun key key' d d' _ _ hkey hd => ?_
  refine (ofKind_alike hd .colon "':'").andThen fun _ _ e e' _ _ _ he => ?_
  exact (h e e' _ _ he).andThen fun v v' f f' _ _ hv hf => .here ⟨hkey, hv⟩ hf

/-! ## Arguments and calls -/

theorem argument_alike_of_lt :
    ∀ (n : Nat) (c : Cursor eof) (c' : Cursor eof'), c.size < n → c.Alike c' →
      (argument c).Alike (· = ·) (argument c') := by
  intro n
  induction n with
  | zero => intro c c' hn; omega
  | succ n ih =>
    rintro ⟨_ | ⟨p, rest⟩, stop⟩ ⟨_ | ⟨p', rest'⟩, stop'⟩ hn h
    · rw [argument_nil, argument_nil]
      exact .unexpected h "value"
    · cases h
    · cases h
    · have htoken := Grammar.Alike.token h
      have hrest : (.after p rest : Cursor eof).Alike (.after p' rest' : Cursor eof') :=
        Grammar.Alike.tail h
      have inner (d : Cursor eof) (d' : Cursor eof') (hd : d.size ≤ rest.length)
          (hdd : d.Alike d') : (argument d).Alike (· = ·) (argument d') :=
        ih d d' (by simp at hn; omega) hdd
      rw [argument, argument]
      rw [htoken.congr (f := fun t => t.kind == .ident && t.isParameter) fun _ => rfl,
        htoken.kind_eq, htoken.congr (f := parameterOf?) fun _ => rfl]
      split_ifs
      · split
        · exact .here rfl hrest
        · exact htoken.unexpected "parameter value"
      · refine ((elements_alike hrest _ _ fun d d' hd _ hdd => inner d d' hd hdd).map
          fun as as' has => ?_).widen _ _
        rw [List.forall₂_eq_eq_eq] at has
        rw [has]
      · refine ((elements_alike (R := EntryAlike (· = ·)) hrest _ _ ?_).map
          fun es es' hes => ?_).widen _ _
        · intro d d' hd _ hdd
          exact entry_alike hdd fun e e' he _ hee => inner e e' (Nat.le_trans he hd) hee
        · refine congrArg Argument.map (map_eq_of_forall₂ (hes.imp fun e e' he => ?_))
          rw [he.1, he.2]
      · exact (literal_alike h).map fun _ _ hl => by rw [hl]

theorem argument_alike (h : c.Alike c') : (argument c).Alike (· = ·) (argument c') :=
  argument_alike_of_lt (c.size + 1) c c' (Nat.lt_succ_self _) h

theorem param_alike (h : c.Alike c') : (param c).Alike (· = ·) (param c') := by
  refine (name_alike h "parameter name").bind fun name name' d d' hname hd => ?_
  refine (ofKind_alike hd .colon "':'").bind fun _ _ e e' _ he => ?_
  refine Reply.Alike.bind (argument_alike he) fun value value' f f' hvalue hf => .here ?_ hf
  rw [hname, hvalue]

theorem callTarget_alike {first first' : Token} (hfirst : TokenAlike eof eof' first first')
    (h : c.Alike c') : (callTarget first c).Alike (· = ·) (callTarget first' c') := by
  refine (next?_alike h fun _ => rfl).bind fun dot dot' d d' hdot hd => ?_
  cases hdot with
  | none => exact .here (by rw [hfirst.text_eq]) hd
  | some _ =>
    refine (name_alike hd "query name").bind fun query query' e e' hquery he => .here ?_ he
    rw [hfirst.text_eq, hquery]

theorem callParams_alike (h : c.Alike c') : (callParams c).Alike (· = ·) (callParams c') := by
  refine (next?_alike h fun _ => rfl).bind fun open' open'' d d' hopen hd => ?_
  cases hopen with
  | none => exact .here rfl hd
  | some _ =>
    refine (elements_alike hd _ _ fun e e' _ _ he => param_alike he).mono fun ps ps' hps => ?_
    rwa [List.forall₂_eq_eq_eq] at hps

theorem call_alike {first first' : Token} (hfirst : TokenAlike eof eof' first first')
    (h : c.Alike c') : (call first c).Alike (Says Call.relabel) (call first' c') := by
  refine (callTarget_alike hfirst h).bind fun target target' d d' htarget hd => ?_
  subst htarget
  refine (callParams_alike hd).bind fun params params' e e' hparams he => ?_
  subst hparams
  exact (lastStop_alike he).bind fun _ _ f f' _ hf => .here rfl hf

/-! ## Statements -/

theorem datum_alike_of_lt :
    ∀ (n : Nat) (c : Cursor eof) (c' : Cursor eof'), c.size < n → c.Alike c' →
      (datum c).Alike (Says Value.relabel) (datum c') := by
  intro n
  induction n with
  | zero => intro c c' hn; omega
  | succ n ih =>
    rintro ⟨_ | ⟨p, rest⟩, stop⟩ ⟨_ | ⟨p', rest'⟩, stop'⟩ hn h
    · rw [datum_nil, datum_nil]
      exact .unexpected h "value"
    · cases h
    · cases h
    · have htoken := Grammar.Alike.token h
      have hrest : (.after p rest : Cursor eof).Alike (.after p' rest' : Cursor eof') :=
        Grammar.Alike.tail h
      have inner (d : Cursor eof) (d' : Cursor eof') (hd : d.size ≤ rest.length)
          (hdd : d.Alike d') : (datum d).Alike (Says Value.relabel) (datum d') :=
        ih d d' (by simp at hn; omega) hdd
      rw [datum, datum, htoken.kind_eq]
      split_ifs
      · refine ((elements_alike hrest _ _ fun d d' hd _ hdd => inner d d' hd hdd).andThen
          fun vs vs' d d' _ _ hvs hd => .here ?_ hd).widen _ _
        rw [Says, Value.relabel, Value.relabel, Value.relabelList_eq, Value.relabelList_eq,
          map_eq_of_forall₂ hvs]
        rfl
      · refine ((elements_alike (R := EntryAlike (Says Value.relabel)) hrest _ _ ?_).andThen
          fun es es' d d' _ _ hes hd => .here ?_ hd).widen _ _
        · intro d d' hd _ hdd
          exact entry_alike hdd fun e e' he _ hee => inner e e' (Nat.le_trans he hd) hee
        · rw [Says, Value.relabel, Value.relabel, Value.relabelEntries_eq,
            Value.relabelEntries_eq, map_eq_of_forall₂ (hes.imp fun e e' he => ?_)]
          · rfl
          · rw [he.1, he.2]
            rfl
      · refine (literal_alike h).andThen fun l l' d d' _ _ hl hd => .here ?_ hd
        rw [hl]
        rfl

theorem datum_alike (h : c.Alike c') : (datum c).Alike (Says Value.relabel) (datum c') :=
  datum_alike_of_lt (c.size + 1) c c' (Nat.lt_succ_self _) h

theorem segments_alike_of_lt :
    ∀ (n : Nat) (rest rest' : List Piece) (stop stop' : Position), rest.length < n →
      Alike eof eof' rest rest' →
      (segments stop rest : Reply eof (List String) rest.length).Alike (· = ·)
        (segments stop' rest' : Reply eof' (List String) rest'.length) := by
  intro n
  induction n with
  | zero => intro rest rest' stop stop' hn; omega
  | succ n ih =>
    intro rest rest' stop stop' hn h
    rcases rest with _ | ⟨p, _ | ⟨q, rest⟩⟩
    · obtain rfl := h.eq_nil
      exact .here rfl h
    · obtain ⟨p', rest', rfl⟩ := h.exists_cons
      obtain rfl := h.tail.eq_nil
      rw [segments, segments, h.token.kind_eq]
      split_ifs
      · exact TokenAlike.unexpected ⟨h.ends, iff_of_true rfl rfl⟩ "key segment"
      · exact .here rfl h
    · obtain ⟨p', rest', rfl⟩ := h.exists_cons
      obtain ⟨q', rest', rfl⟩ := h.tail.exists_cons
      rw [segments, segments, h.token.kind_eq, h.tail.token.congr (f := segmentOf?) fun _ => rfl]
      split_ifs
      · split
        · exact h.tail.token.unexpected "key segment"
        · refine ((ih rest rest' _ _ ?_ h.tail.tail).map fun _ _ hmore => ?_).widen _ _
          · simp at hn
            omega
          · rw [hmore]
      · exact .here rfl h

theorem statement_alike {first first' : Token} (hfirst : TokenAlike eof eof' first first')
    (h : c.Alike c') :
    (statement first c).Alike (Says Statement.relabel) (statement first' c') := by
  refine Reply.Alike.bind (segments_alike_of_lt (c.rest.length + 1) c.rest c'.rest c.stop c'.stop
    (Nat.lt_succ_self _) h) fun more more' d d' hmore hd => ?_
  refine (ofKind_alike hd .colon "':'").bind fun _ _ e e' _ he => ?_
  refine Reply.Alike.bind (datum_alike he) fun value value' f f' hvalue hf => ?_
  refine (lastStop_alike hf).bind fun _ _ g g' _ hg => .here ?_ hg
  rw [Says, Statement.relabel, Statement.relabel, hfirst.text_eq, hmore]
  dsimp only
  rw [Option.map_some, Option.map_some, hvalue]
  rfl

/-! ## Expressions -/

/-- What an expression takes behind a piece on its line. -/
theorem exprRest_alike {rest rest' : List Piece} (h : Alike eof eof' rest rest') :
    ∀ (p p' : Piece) (stop stop' : Position), (∀ q ∈ rest.head?, p.Follows q) →
      (∀ q ∈ rest'.head?, p'.Follows q) →
      (exprRest p.token.stop.line stop rest : Reply eof (List ExprToken) rest.length).Alike (· = ·)
        (exprRest p'.token.stop.line stop' rest' :
          Reply eof' (List ExprToken) rest'.length) := by
  induction h with
  | nil ends =>
    intro p p' stop stop' _ _
    exact .here rfl (.nil ends)
  | @cons q q' rest rest' same placed placed' hfollows hfollows' h ih =>
    intro p p' stop stop' hq hq'
    have hall : Alike eof eof' (q :: rest) (q' :: rest') :=
      .cons same placed placed' hfollows hfollows' h
    have hexpr : q.token.exprToken? = q'.token.exprToken? := hall.token.congr fun _ => rfl
    have hp := hq q rfl
    have hp' := hq' q' rfl
    -- The next token stands on another line exactly if it opens one.
    have hline : (q.token.start.line != p.token.stop.line) =
        (q'.token.start.line != p'.token.stop.line) := by
      have hopens := hall.opensLine_eq
      rw [hp.opensLine_eq, hp'.opensLine_eq, decide_eq_decide] at hopens
      have hle := hp.line_le
      have hle' := hp'.line_le
      rw [Bool.eq_iff_iff, bne_iff_ne, bne_iff_ne]
      omega
    have hends : endsExpr p.token.stop.line q.token = endsExpr p'.token.stop.line q'.token := by
      rw [endsExpr, endsExpr, hline, hall.token.kind_eq]
    rw [exprRest, exprRest, hends, hexpr]
    split_ifs with hend
    · exact .here rfl hall
    · split
      · exact hall.token.unexpected "expression"
      · next t ht =>
        simp only [endsExpr, Bool.or_eq_true, not_or, ← hline] at hend
        have hstart : q.token.start.line = p.token.stop.line := by simpa using hend.1.1
        have hstart' : q'.token.start.line = p'.token.stop.line := by
          simpa [hline] using hend.1.1
        rw [← hstart, ← hstart', ← placed.oneLine (by rw [hexpr, ht]; rfl),
          ← placed'.oneLine (by rw [ht]; rfl)]
        exact ((ih q q' _ _ hfollows hfollows').map fun _ _ hmore => by rw [hmore]).widen _ _

/-- An expression from its first token on. -/
theorem expr_alike {p p' : Piece} {rest rest' : List Piece}
    (h : Grammar.Alike eof eof' (p :: rest) (p' :: rest')) :
    (expr p.token (.after p rest : Cursor eof)).Alike (Says Expr.relabel)
      (expr p'.token (.after p' rest' : Cursor eof')) := by
  have htoken := h.token
  have hexpr : p.token.exprToken? = p'.token.exprToken? := htoken.congr fun _ => rfl
  unfold expr
  rw [hexpr]
  cases h with
  | cons _ placed placed' follows follows' hrest =>
    cases ht : p'.token.exprToken? with
    | none => exact htoken.unexpected "expression"
    | some t =>
      rw [← placed.oneLine (by rw [hexpr, ht]; rfl), ← placed'.oneLine (by rw [ht]; rfl)]
      refine Reply.Alike.bind (exprRest_alike hrest p p' _ _ follows follows')
        fun more more' d d' hmore hd => ?_
      subst hmore
      exact (lastStop_alike hd).bind fun _ _ e e' _ he => .here rfl he

/-! ## Declarations -/

section Declarations

variable {lead lead' : Token}

theorem importClause_alike (h : c.Alike c') :
    (importClause lead c).Alike (Says Import.relabel) (importClause lead' c') := by
  refine (next?_alike h fun _ => rfl).bind fun name name' d d' hname hd => ?_
  refine (ofKind_alike hd .string "import path").bind fun path path' e e' hpath he => ?_
  refine (lastStop_alike he).bind fun _ _ f f' _ hf => .here ?_ hf
  have halias : name.map (·.text) = name'.map (·.text) := by
    cases hname with
    | none => rfl
    | some ht => exact congrArg some ht.text_eq
  rw [Says, Import.relabel, Import.relabel, halias, hpath.text_eq]
  rfl

theorem queryClause_alike (h : c.Alike c') :
    (queryClause lead c).Alike (Says Query.relabel) (queryClause lead' c') := by
  refine (name_alike h "query name").bind fun name name' d d' hname hd => ?_
  refine (ofKind_alike hd .rawString "query body").bind fun body body' e e' hbody he => ?_
  refine (lastStop_alike he).bind fun _ _ f f' _ hf => .here ?_ hf
  rw [Says, Query.relabel, Query.relabel, hname, hbody.text_eq]
  rfl

theorem teardownClause_alike (h : c.Alike c') :
    (teardownClause lead c).Alike (Says Teardown.relabel) (teardownClause lead' c') := by
  refine (ofKind_alike h .rawString "teardown body").bind fun body body' d d' hbody hd => ?_
  refine (lastStop_alike hd).bind fun _ _ e e' _ he => .here ?_ he
  rw [Says, Teardown.relabel, Teardown.relabel, hbody.text_eq]
  rfl

end Declarations

end QuerySuite.Grammar.Phrase
