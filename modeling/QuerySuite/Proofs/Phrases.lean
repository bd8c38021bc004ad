import Mathlib.Tactic.SplitIfs
import QuerySuite.Proofs.Reading
import QuerySuite.Grammar.Clauses
import QuerySuite.Suite.Node

/-!
# The contract of each phrase

Every phrase reads forward, and what it gives is clean: no node of it records a skipped region. The
node of a phrase ends where the last token that was read ends.

Results:

* `Phrase.call_from`, `Phrase.statement_from`, `Phrase.expr_from`, `Phrase.importClause_from`,
  `Phrase.queryClause_from`, `Phrase.teardownClause_from`, `Clause.assertionQuery_from`: the phrases
  that clauses are made of.
-/

namespace QuerySuite

/-- The regions that the nodes record, node by node. -/
def regionsOf (nodes : List Node) : List Region := nodes.flatMap (·.info.recovery.regions)

@[simp]
theorem regionsOf_nil : regionsOf [] = [] := rfl

@[simp]
theorem regionsOf_cons (n : Node) (nodes : List Node) :
    regionsOf (n :: nodes) = n.info.recovery.regions ++ regionsOf nodes := rfl

@[simp]
theorem regionsOf_append (m n : List Node) : regionsOf (m ++ n) = regionsOf m ++ regionsOf n := by
  simp [regionsOf]

theorem regionsOf_eq_nil_iff (nodes : List Node) :
    regionsOf nodes = [] ↔ ∀ n ∈ nodes, n.info.recovery.wasRecovered = false := by
  simp [regionsOf, ← Bool.not_eq_true, Recovery.wasRecovered_iff]

theorem Value.regionsOf_nodesOfList {values : List Value}
    (h : ∀ v ∈ values, regionsOf v.nodes = []) : regionsOf (nodesOfList values) = [] := by
  induction values with
  | nil => rfl
  | cons v values ih =>
    rw [nodesOfList, regionsOf_append, h v List.mem_cons_self, List.nil_append]
    exact ih fun w hw => h w (List.mem_cons_of_mem v hw)

theorem Value.regionsOf_nodesOfEntries {entries : List (Entry Value)}
    (h : ∀ e ∈ entries, regionsOf e.value.nodes = []) :
    regionsOf (nodesOfEntries entries) = [] := by
  induction entries with
  | nil => rfl
  | cons e entries ih =>
    rw [nodesOfEntries, regionsOf_append, h e List.mem_cons_self, List.nil_append]
    exact ih fun w hw => h w (List.mem_cons_of_mem e hw)

namespace Grammar

variable {eof : Token} {α : Type}

namespace Phrase

/-! ## Literals, keys and arguments -/

theorem raisedIn_of_literalOf {t : Token} {e : ParseError} (h : literalOf t = .error e) :
    RaisedAt t e := by
  unfold literalOf at h
  split at h
  · cases h
  · split at h <;> cases h
    exact .inl ⟨"number", rfl⟩
  · split_ifs at h
    cases h
    exact .inl ⟨"value", rfl⟩
  · cases h
    exact .inl ⟨"value", rfl⟩

theorem literal_from (c : Cursor eof) : (literal c).From c fun _ _ => True := by
  rcases c with ⟨_ | ⟨p, rest⟩, stop⟩
  · exact .unexpected "value"
  · simp only [literal]
    split
    · exact .ok trivial ⟨[p], .after p rest stop⟩
    · next e h => exact ⟨p.token, List.mem_cons_self, raisedIn_of_literalOf h⟩

theorem label_from (expected : String) (c : Cursor eof) :
    (label expected c).From c fun _ _ => True :=
  (expect_from _ expected c).bind fun _ _ _ => .here trivial

theorem entry_from {P : α → Prop} (c : Cursor eof)
    (element : (d : Cursor eof) → d.size ≤ c.size → Reply eof α d.size)
    (h : ∀ d hd, (element d hd).From d fun a _ => P a) :
    (entry c element).From c fun e _ => P e.value := by
  refine (label_from "map key" c).andThen fun key d hd _ => ?_
  refine (ofKind_from .colon "':'" d).andThen fun _ e he _ => ?_
  exact (h e _).andThen fun v f _ hv => .here hv

theorem argument_from_of_lt :
    ∀ (n : Nat) (c : Cursor eof), c.size < n → (argument c).From c fun _ _ => True := by
  intro n
  induction n with
  | zero => intro c hn; omega
  | succ n ih =>
    rintro ⟨_ | ⟨p, rest⟩, stop⟩ hn
    · rw [argument]
      exact .unexpected "value"
    · have hr : Cursor.Reads (⟨p :: rest, stop⟩ : Cursor eof) [p] (.after p rest) :=
        .after p rest stop
      have inner (d : Cursor eof) (hd : d.size ≤ rest.length) :
          (argument d).From d fun _ _ => True := ih d (by simp at hn; omega)
      rw [argument]
      split_ifs
      · split
        · exact .ok trivial ⟨[p], hr⟩
        · exact .unexpected "parameter value"
      · exact (((elements_from (.after p rest) _ inner).map fun _ _ _ => trivial).before hr).widen _
      · refine (((elements_from (P := fun _ => True) (.after p rest) _ ?_).map
          fun _ _ _ => trivial).before hr).widen _
        intro d hd
        exact (entry_from d _ fun e he => inner e (Nat.le_trans he hd)).mono fun _ _ _ => trivial
      · exact (literal_from _).map fun _ _ _ => trivial

theorem argument_from (c : Cursor eof) : (argument c).From c fun _ _ => True :=
  argument_from_of_lt (c.size + 1) c (Nat.lt_succ_self _)

/-! ## Calls -/

theorem param_from (c : Cursor eof) : (param c).From c fun _ _ => True := by
  refine (name_from "parameter name" c).bind fun name d _ => ?_
  refine (ofKind_from .colon "':'" d).bind fun _ e _ => ?_
  exact Reply.From.bind (argument_from e) fun value f _ => .here trivial

theorem callTarget_from (first : Token) (c : Cursor eof) :
    (callTarget first c).From c fun _ _ => True := by
  refine (next?_from _ c).bind fun dot d _ => ?_
  cases dot with
  | none => exact .here trivial
  | some dot => exact (name_from "query name" d).bind fun query e _ => .here trivial

theorem callParams_from (c : Cursor eof) : (callParams c).From c fun _ _ => True := by
  refine (next?_from _ c).bind fun bracket d _ => ?_
  cases bracket with
  | none => exact .here trivial
  | some bracket =>
    exact (elements_from (P := fun _ => True) d _ fun e _ => param_from e).mono
      fun _ _ _ => trivial

theorem call_from (first : Token) (c : Cursor eof) :
    (call first c).From c fun call _ => call.recovery = .clean := by
  refine (callTarget_from first c).bind fun target d _ => ?_
  refine (callParams_from d).bind fun params e _ => ?_
  exact (lastStop_from e).bind fun stop f _ => .here rfl

/-! ## Statements -/

theorem datum_from_of_lt :
    ∀ (n : Nat) (c : Cursor eof), c.size < n →
      (datum c).From c fun v _ => regionsOf v.nodes = [] := by
  intro n
  induction n with
  | zero => intro c hn; omega
  | succ n ih =>
    rintro ⟨_ | ⟨p, rest⟩, stop⟩ hn
    · rw [datum]
      exact .unexpected "value"
    · have hr : Cursor.Reads (⟨p :: rest, stop⟩ : Cursor eof) [p] (.after p rest) :=
        .after p rest stop
      have inner (d : Cursor eof) (hd : d.size ≤ rest.length) :
          (datum d).From d fun v _ => regionsOf v.nodes = [] := ih d (by simp at hn; omega)
      rw [datum]
      split_ifs
      · refine (((elements_from (.after p rest) _ inner).andThen
          fun vs d _ hvs => .here ?_).before hr).widen _
        rw [Value.nodes, regionsOf_cons, Value.regionsOf_nodesOfList hvs]
        rfl
      · refine (((elements_from (P := fun e => regionsOf e.value.nodes = []) (.after p rest) _
          ?_).andThen fun es d _ hes => .here ?_).before hr).widen _
        · intro d hd
          exact entry_from d _ fun e he => inner e (Nat.le_trans he hd)
        · rw [Value.nodes, regionsOf_cons, Value.regionsOf_nodesOfEntries hes]
          rfl
      · refine (literal_from _).andThen fun l d _ _ => .here ?_
        rw [Value.nodes]
        rfl

theorem datum_from (c : Cursor eof) : (datum c).From c fun v _ => regionsOf v.nodes = [] :=
  datum_from_of_lt (c.size + 1) c (Nat.lt_succ_self _)

theorem segments_from :
    ∀ (stop : Position) (rest : List Piece),
      (segments stop rest).From (⟨rest, stop⟩ : Cursor eof) fun _ _ => True := by
  intro stop rest
  fun_induction segments stop rest with
  | case1 stop => exact .here trivial
  | case2 stop p h => exact ⟨eof, by simp [Cursor.tokens], .inl ⟨_, rfl⟩⟩
  | case3 stop p h => exact .here trivial
  | case4 stop p q rest h hq =>
    exact ⟨q.token, by simp [Cursor.tokens], .inl ⟨_, rfl⟩⟩
  | case5 stop p q rest h texts hq ih =>
    have hr : (⟨p :: q :: rest, stop⟩ : Cursor eof).Reads [p, q] ⟨rest, q.token.stop⟩ := ⟨rfl, rfl⟩
    exact ((ih.map fun _ _ _ => trivial).before hr).widen _
  | case6 stop p q rest h => exact .here trivial

theorem statement_from (first : Token) (c : Cursor eof) :
    (statement first c).From c fun s _ => regionsOf s.nodes = [] := by
  refine Reply.From.bind (segments_from c.stop c.rest) fun more d _ => ?_
  refine (ofKind_from .colon "':'" d).bind fun _ e _ => ?_
  refine Reply.From.bind (datum_from e) fun value f hv => ?_
  exact (lastStop_from f).bind fun stop g _ => .here hv

/-! ## Expressions -/

theorem exprRest_from (line : Nat) :
    ∀ (stop : Position) (rest : List Piece),
      (exprRest line stop rest).From (⟨rest, stop⟩ : Cursor eof) fun ts _ =>
        ∀ t ∈ ts, ∃ p ∈ rest, p.token.exprToken? = some t := by
  intro stop rest
  fun_induction exprRest line stop rest with
  | case1 stop => exact .here nofun
  | case2 stop p rest h => exact .here nofun
  | case3 stop p rest h hp => exact .unexpected "expression"
  | case4 stop p rest h t hp ih =>
    refine ((ih.map fun ts _ hts => ?_).before (.after p rest stop)).widen _
    refine List.forall_mem_cons.2 ⟨⟨p, List.mem_cons_self, hp⟩, fun u hu => ?_⟩
    obtain ⟨q, hq, htoken⟩ := hts u hu
    exact ⟨q, List.mem_cons_of_mem p hq, htoken⟩

/-- An expression, its first token included. Its tokens are among the pieces. -/
theorem expr_from (p : Piece) (rest : List Piece) (stop : Position) :
    (expr p.token (.after p rest)).From (⟨p :: rest, stop⟩ : Cursor eof) fun e _ =>
      e.recovery = .clean ∧ ∀ t ∈ e.tokens, ∃ q ∈ p :: rest, q.token.exprToken? = some t := by
  unfold expr
  cases htoken : p.token.exprToken? with
  | none => exact .unexpected "expression"
  | some t =>
    refine Reply.From.before ?_ (.after p rest stop)
    refine Reply.From.bind (exprRest_from _ _ rest) fun more d hmore => ?_
    refine (lastStop_from d).bind fun stop e _ => .here ⟨rfl, ?_⟩
    refine List.forall_mem_cons.2 ⟨⟨p, List.mem_cons_self, htoken⟩, fun u hu => ?_⟩
    obtain ⟨q, hq, hu⟩ := hmore u hu
    exact ⟨q, List.mem_cons_of_mem p hq, hu⟩

/-! ## Declarations -/

theorem importClause_from (lead : Token) (c : Cursor eof) :
    (importClause lead c).From c fun i d =>
      i.recovery = .clean ∧ i.span = ⟨lead.start, d.stop⟩ := by
  refine (next?_from _ c).bind fun aliasName d _ => ?_
  refine (ofKind_from .string "import path" d).bind fun path e _ => ?_
  exact (lastStop_from e).bind fun stop f hs => .here ⟨rfl, by rw [hs]⟩

theorem queryClause_from (lead : Token) (c : Cursor eof) :
    (queryClause lead c).From c fun q d => q.recovery = .clean ∧ q.span = ⟨lead.start, d.stop⟩ := by
  refine (name_from "query name" c).bind fun name d _ => ?_
  refine (ofKind_from .rawString "query body" d).bind fun body e _ => ?_
  exact (lastStop_from e).bind fun stop f hs => .here ⟨rfl, by rw [hs]⟩

theorem teardownClause_from (lead : Token) (c : Cursor eof) :
    (teardownClause lead c).From c fun t d =>
      t.recovery = .clean ∧ t.span = ⟨lead.start, d.stop⟩ := by
  refine (ofKind_from .rawString "teardown body" c).bind fun body d _ => ?_
  exact (lastStop_from d).bind fun stop e hs => .here ⟨rfl, by rw [hs]⟩

end Phrase

theorem Clause.assertionQuery_from (c : Cursor eof) :
    (assertionQuery c).From c fun q _ => regionsOf ((q.map AssertionQuery.nodes).getD []) = [] := by
  refine (Phrase.next?_from _ c).bind fun t d _ => ?_
  cases t with
  | none => exact .here rfl
  | some t =>
    dsimp only
    split_ifs
    · exact .here rfl
    · refine (Phrase.call_from t d).bind fun call e hc => .here ?_
      simp [AssertionQuery.nodes, hc]

end Grammar

end QuerySuite
