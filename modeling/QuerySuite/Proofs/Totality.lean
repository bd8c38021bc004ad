import QuerySuite.Proofs.Clauses
import QuerySuite.Proofs.Streams

/-!
# Reading with recovery always ends in a suite

The members of a document and of each kind of body are read by a loop. Begun anywhere in the stream
of a document, each loop is a run of turns that ends and never fails, whatever its member rule does;
each turn uses up at least the first piece that was left, and ends in the stream again. Skipping a
failed member is a run of steps of the same sort.

A place in the stream is an index into the significant tokens, so whatever is looked at there is a
token of the document.

Results:

* `Loop.readByLoops`: all members are read by the loops of the grammar.
* `Loop.turn_reads`: a turn of a loop of the grammar uses up at least one piece.
* `Loop.run_gives`: a loop of the grammar never fails and stays in the stream.
* `skip_run`: skipping is a run of steps, each over one piece.
* `exists_index`: every index that is looked up is in range.
* `recovery_reading_total`: all of it, for every list of tokens.
-/

namespace QuerySuite.Grammar

variable {eof : Token} {β : Type}

/-! ## Skipping, step by step -/

/-- One step of skipping: a piece is stepped over if reading cannot go on there. The depth of braces
and the pieces left, before and after it. -/
inductive SkipStep (ctx : Context) : Nat × List Piece → Nat × List Piece → Prop where
  | pass {depth : Nat} {p : Piece} {rest : List Piece} (h : ¬(depth = 0 ∧ ctx.resumesAt p)) :
      SkipStep ctx (depth, p :: rest) (depthAfter depth p.token, rest)

/-- A step uses up one piece. -/
theorem SkipStep.exists_cons {ctx : Context} {x y : Nat × List Piece} (h : SkipStep ctx x y) :
    ∃ p, x.2 = p :: y.2 := by
  cases h with
  | @pass depth p rest _ => exact ⟨p, rfl⟩

/-- Skipping is a run of steps, up to the end of the document or a piece where reading can go on. -/
theorem skip_run (ctx : Context) :
    ∀ (pieces : List Piece) (depth : Nat),
      ∃ d, Relation.ReflTransGen (SkipStep ctx) (depth, pieces) (d, (skip ctx depth pieces).2) ∧
        ∀ p ∈ (skip ctx depth pieces).2.head?, d = 0 ∧ ctx.resumesAt p = true := by
  intro pieces
  induction pieces with
  | nil => intro depth; exact ⟨depth, .refl, by simp [skip]⟩
  | cons p rest ih =>
    intro depth
    rw [skip]
    split_ifs with h
    · exact ⟨depth, .refl, by simpa using h⟩
    · obtain ⟨d, hrun, hend⟩ := ih (depthAfter depth p.token)
      exact ⟨d, .head (.pass h) hrun, hend⟩

/-! ## The loops of the grammar -/

/-- A loop over members that is read with recovery: the body, what is gathered, and the rule. -/
structure Loop (eof : Token) where
  Gathered : Type
  Value : Type
  context : Context
  place : Gathered → Member Value → Gathered
  rule : Gathered → Token → Clause eof Value

namespace Loop

/-- Runs the loop. -/
def run (l : Loop eof) (g : l.Gathered) (s : State eof) : Outcome eof l.Gathered s.size :=
  members .recovery l.context l.place s.size (fun g lead t _ => l.rule g lead t) g s s.le_refl

/-- One turn of the loop. -/
def turn (l : Loop eof) : l.Gathered × State eof → l.Gathered × State eof → Prop :=
  Turn l.context l.place l.rule

/-- The members of a document. -/
def document : Loop eof := ⟨Suite, TopMember, .topLevel, placeTopMember, topMember .recovery⟩

/-- The members of a scope or a group. -/
def scopeBody : Loop eof :=
  ⟨Clause.Body, Clause.BodyMember, .scopeBody, Clause.placeBodyMember,
    fun b lead u => Clause.bodyMember .recovery b lead u fun v _ => Clause.body .recovery v⟩

/-- The members of a test. -/
def testBody : Loop eof :=
  ⟨Test, Clause.TestMember, .testBody, Clause.placeTestMember, Clause.testMember .recovery⟩

/-- The items of a setup block. -/
def setupBlock : Loop eof :=
  ⟨List SetupItem, SetupItem, .setupBlock, Clause.placeSetupItem,
    fun _ lead => Clause.setupItem lead⟩

/-- The expressions of an assertion. -/
def assertBody : Loop eof :=
  ⟨Assertion, Expr, .assertBody, Clause.placeExpr, fun _ lead => Clause.ofPhrase (.expr lead)⟩

/-- The loops of the grammar. -/
def all (eof : Token) : List (Loop eof) := [document, scopeBody, testBody, setupBlock, assertBody]

/-- Runs the loop and closes the body behind it. -/
def closed (l : Loop eof) (record : l.Gathered → Recovery)
    (finish : l.Gathered → Recovery → State eof → β) (g : l.Gathered) (s : State eof) :
    Outcome eof β s.size :=
  (l.run g s).andThen fun g' u _ => (closeBody .recovery (record g') u).andThen
    fun recovery v _ => .ok (finish g' recovery v) v v.le_refl

/-- The clauses that have members read them by these loops. -/
structure ReadByLoops (eof : Token) : Prop where
  document : ∀ s : State eof, Grammar.document .recovery s = Loop.document.run {} s
  scopeBody : ∀ s : State eof, Clause.body .recovery s =
    (Clause.openBody s).andThen fun _ t _ =>
      Loop.scopeBody.closed (·.recovery) (fun b recovery _ => { b with recovery }) {} t
  testBody : ∀ (lead : Token) (s : State eof), Clause.test .recovery lead s =
    (do let name ← Clause.ofPhrase (.label "test name")
        let _ ← Clause.openBody
        Loop.testBody.closed (·.recovery)
          (fun t recovery v => { t with recovery, span := ⟨lead.start, v.stop⟩ }) { name }) s
  assertBody : ∀ (lead : Token) (s : State eof), Clause.assertion .recovery lead s =
    (do let query ← Clause.ofPhrase Clause.assertionQuery
        let _ ← Clause.openBody
        Loop.assertBody.closed (·.recovery)
          (fun a recovery v => { a with recovery, span := ⟨lead.start, v.stop⟩ }) { query }) s
  setupBlock : ∀ s : State eof, Clause.setupBlock .recovery s =
    Loop.setupBlock.closed (fun _ => .clean) (fun items recovery _ => (.block items, recovery))
      [] s

theorem readByLoops (eof : Token) : ReadByLoops eof where
  document _ := rfl
  scopeBody s := Clause.body_eq .recovery s
  testBody _ _ := rfl
  assertBody _ _ := rfl
  setupBlock _ := rfl

/-- Begun behind the first piece of a member, the rule of the loop reads forward. -/
def ReadsForward (l : Loop eof) : Prop :=
  ∀ g p rest stop met a t ht, l.rule g p.token ⟨.after p rest, met⟩ = .ok a t ht →
    ∃ used, (⟨p :: rest, stop⟩ : Cursor eof).Reads used t.toCursor

/-- The rule of a loop of the grammar accounts for the pieces of a member. -/
theorem accounts_of_mem {l : Loop eof} (h : l ∈ all eof) :
    ∃ (regions : l.Value → List Region) (P : l.Gathered → Piece → l.Value → State eof → Prop),
      ∀ g p rest stop met, (l.rule g p.token ⟨.after p rest, met⟩).Accounts
        (⟨⟨p :: rest, stop⟩, met⟩ : State eof) regions (P g p) := by
  simp only [all, List.mem_cons, List.not_mem_nil, or_false] at h
  rcases h with rfl | rfl | rfl | rfl | rfl
  · exact ⟨_, _, topMember_accounts⟩
  · exact ⟨_, _, fun b p rest stop met =>
      Clause.bodyMember_accounts b p rest stop met fun v _ => Clause.body_accounts v⟩
  · exact ⟨_, _, Clause.testMember_accounts⟩
  · exact ⟨_, _, fun _ => Clause.setupItem_accounts⟩
  · exact ⟨_, _, fun _ => Clause.expr_accounts⟩

theorem readsForward_of_mem {l : Loop eof} (h : l ∈ all eof) : l.ReadsForward := by
  obtain ⟨regions, P, haccounts⟩ := accounts_of_mem h
  intro g p rest stop met a t ht hread
  have hacc := haccounts g p rest stop met
  rw [hread] at hacc
  obtain ⟨⟨used, skips, hacc⟩, -⟩ := hacc
  exact ⟨used, hacc.reads⟩

/-- A turn uses up at least the first piece that was left. -/
theorem turn_reads {l : Loop eof} (hl : l.ReadsForward) {g g' : l.Gathered} {s t : State eof}
    (h : l.turn (g, s) (g', t)) : ∃ p more, s.toCursor.Reads (p :: more) t.toCursor := by
  unfold turn at h
  cases h with
  | @separator _ p rest stop met inside separates => exact ⟨p, [], .after p rest stop⟩
  | @parsed _ p rest stop met a _ ht inside begins read =>
    obtain ⟨used, hr⟩ := hl g p rest stop met a t ht read
    obtain ⟨more, rfl⟩ := hr.exists_cons ht
    exact ⟨p, more, hr⟩
  | @skipped _ p rest stop met e inner inside begins failed =>
    exact ⟨p, skippedAfter l.context p rest, resume_reads l.context p rest stop⟩

end Loop

/-! ## Places in the stream -/

/-- The cursor stands in the stream of the document: reading gets there from the beginning. -/
def OnStream (tokens : List Token) (c : Cursor (endToken tokens)) : Prop :=
  ∃ used, (initial tokens).toCursor.Reads used c

section OnStream

variable {tokens : List Token}

theorem OnStream.reads {c d : Cursor (endToken tokens)} {used : List Piece}
    (h : OnStream tokens c) (hr : c.Reads used d) : OnStream tokens d := by
  obtain ⟨before, hb⟩ := h
  exact ⟨before ++ used, hb.trans hr⟩

/-- The tokens that the grammar sees are significant tokens of the document. -/
theorem initial_tokens_prefix (tokens : List Token) :
    (initial tokens).tokens <+: Token.significant (withEnd tokens) :=
  Stream.significant_split none (exists_eof_withEnd tokens)

/-- Behind the pieces `used`, the token before the cursor, the token at it and those after it are
found by indices that are in range. -/
theorem exists_index {c : Cursor (endToken tokens)} {used : List Piece}
    (h : (initial tokens).toCursor.Reads used c) {j : Nat} (hj : j ≤ used.length + c.size) :
    ∃ i t, (significantAt (withEnd tokens))[j]? = some i ∧ (withEnd tokens)[i]? = some t ∧
      (used.map (·.token) ++ c.tokens)[j]? = some t := by
  have hseen : used.map (·.token) ++ c.tokens = (initial tokens).tokens := by
    rw [Cursor.tokens, Cursor.tokens, h.rest_eq, List.map_append, List.append_assoc]
  have hlength : (used.map (·.token) ++ c.tokens).length = used.length + c.size + 1 := by
    simp [Cursor.tokens, Cursor.size, Nat.add_assoc]
  obtain ⟨t, ht⟩ : ∃ t, (used.map (·.token) ++ c.tokens)[j]? = some t := by
    rw [← Option.isSome_iff_exists, List.getElem?_eq_getElem (by omega)]
    rfl
  obtain ⟨rest, hrest⟩ := initial_tokens_prefix tokens
  have hsig : (Token.significant (withEnd tokens))[j]? = some t := by
    rw [← hrest, ← hseen, List.getElem?_append_left (by omega), ht]
  obtain ⟨i, hi, hit⟩ := getElem?_significantAt hsig
  exact ⟨i, t, hi, hit, ht⟩

/-- A loop that is begun in the stream is a run of turns, never fails and ends in the stream. -/
theorem Loop.run_gives {l : Loop (endToken tokens)} (hl : l.ReadsForward)
    (g : l.Gathered) {s : State (endToken tokens)}
    (hs : OnStream tokens s.toCursor) :
    (l.run g s).Gives fun g' u => Relation.ReflTransGen l.turn (g, s) (g', u) ∧
      OnStream tokens u.toCursor ∧ l.context.Ends u.toCursor := by
  refine (members_run g s s.le_refl).mono fun g' u h => ⟨h.1, ?_, h.2⟩
  refine (turns_invariant (fun _ t => OnStream tokens t.toCursor) ?_ h.1 s.le_refl hs).2
  intro g₁ s₁ g₂ s₂ _ turn hs₁
  obtain ⟨p, more, hr⟩ := turn_reads hl turn
  exact hs₁.reads hr

end OnStream

/-- Reading with recovery gives a suite for every list of tokens. All members are read by five
loops; each loop, begun in the stream of the document, ends without an error, and each of its turns
uses up at least one piece and ends in the stream. Skipping a member uses up at least its first
piece, and each step of it one more. Wherever reading stands in the stream, what it looks up is
found at an index in range. -/
theorem recovery_reading_total (tokens : List Token) :
    (∃ suite met, parse .recovery tokens = .suite suite met) ∧
    Loop.ReadByLoops (endToken tokens) ∧
    (∀ l ∈ Loop.all (endToken tokens), ∀ g s, OnStream tokens s.toCursor →
      ((l.run g s).Gives fun g' u => Relation.ReflTransGen l.turn (g, s) (g', u) ∧
        OnStream tokens u.toCursor ∧ l.context.Ends u.toCursor) ∧
      ∀ g' t, l.turn (g, s) (g', t) →
        OnStream tokens t.toCursor ∧ ∃ p more, s.toCursor.Reads (p :: more) t.toCursor) ∧
    (∀ ctx p rest stop, OnStream tokens ⟨p :: rest, stop⟩ →
      OnStream tokens (resume _ ctx p rest).2 ∧
      (∃ more, (⟨p :: rest, stop⟩ : Cursor (endToken tokens)).Reads (p :: more)
        (resume _ ctx p rest).2) ∧
      ∃ d, Relation.ReflTransGen (SkipStep ctx) (depthAfter 0 p.token, rest)
        (d, (resume (endToken tokens) ctx p rest).2.rest)) ∧
    (∀ ctx x y, SkipStep ctx x y → ∃ p, x.2 = p :: y.2) ∧
    ∀ c used, (initial tokens).toCursor.Reads used c → ∀ j ≤ used.length + c.size,
      ∃ i t, (significantAt (withEnd tokens))[j]? = some i ∧ (withEnd tokens)[i]? = some t ∧
        (used.map (·.token) ++ c.tokens)[j]? = some t := by
  refine ⟨?_, Loop.readByLoops _, ?_, ?_, ?_, ?_⟩
  · obtain ⟨suite, u, h, -⟩ := parse_recovery tokens
    exact ⟨suite, u.met, h⟩
  · intro l hl g s hs
    have hforward := Loop.readsForward_of_mem hl
    refine ⟨Loop.run_gives hforward g hs, fun g' t turn => ?_⟩
    obtain ⟨p, more, hr⟩ := Loop.turn_reads hforward turn
    exact ⟨hs.reads hr, p, more, hr⟩
  · intro ctx p rest stop hs
    have hr : (⟨p :: rest, stop⟩ : Cursor (endToken tokens)).Reads _ (resume _ ctx p rest).2 :=
      resume_reads ctx p rest stop
    obtain ⟨d, hrun, -⟩ := skip_run ctx rest (depthAfter 0 p.token)
    exact ⟨hs.reads hr, ⟨skippedAfter ctx p rest, hr⟩, d, hrun⟩
  · intro ctx x y h
    exact h.exists_cons
  · intro c used h j hj
    exact exists_index h hj

end QuerySuite.Grammar
