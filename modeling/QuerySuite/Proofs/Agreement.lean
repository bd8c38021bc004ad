import QuerySuite.Parse
import QuerySuite.Proofs.Clauses

/-!
# Reading strictly and reading with recovery

The two ways to read share their rules and part in two places: where a member fails, and where the
document ends in a body. Up to the first fault they take the same steps, so a document without a
fault gives the same suite both ways. At the first fault the strict way ends, and the other way
notes the same error first: it may skip what it read since, but never forgets a noted error.

Results:

* `members_agree`: the members of a body, from the agreement of one member.
* `document_agree`: a whole document.
* `strict_agrees_with_recovery`: both ways compared on lists of tokens and on sources.
-/

namespace QuerySuite

namespace Grammar

variable {eof : Token} {α β σ : Type}

/-! ## Outcomes that agree -/

/-- The outcome of a clause that is read strictly, and of the same clause with recovery, where
nothing was noted before: both give the same and note nothing, both fail with the same error, or the
first error noted with recovery is the one that ends the strict reading. -/
inductive Agree {n : Nat} : Outcome eof α n → Outcome eof α n → Prop where
  | same {a : α} {t : State eof} {ht : t.size ≤ n} (clean : t.met = []) :
      Agree (.ok a t ht) (.ok a t ht)
  | failed (e : ParseError) : Agree (.fail e []) (.fail e [])
  | recovered {e : ParseError} {a : α} {t : State eof} {ht : t.size ≤ n}
      (first : t.met.head? = some e) : Agree (.fail e []) (.ok a t ht)

namespace Agree

variable {n : Nat} {r r' : Outcome eof α n} {s : State eof}

theorem widen {m : Nat} (h : Agree r r') (hm : n ≤ m) : Agree (r.widen hm) (r'.widen hm) := by
  cases h with
  | same clean => exact .same clean
  | failed e => exact .failed e
  | recovered first => exact .recovered first

theorem failure (e : ParseError) (hs : s.met = []) :
    Agree (.fail e s.met : Outcome eof α n) (.fail e s.met) := by
  rw [hs]
  exact .failed e

/-- A phrase is read in one way only. -/
theorem of_phrase (p : Phrase eof α) (hs : s.met = []) :
    Agree (Clause.ofPhrase p s) (Clause.ofPhrase p s) := by
  rcases Clause.ofPhrase_cases p s with ⟨a, t, hd, ht, hp, hm, hc⟩ | ⟨e, hp, hc⟩
  · rw [hc]
    exact .same (hm.trans hs)
  · rw [hc]
    exact .failure e hs

/-- What follows a phrase agrees if it agrees where nothing is noted. -/
theorem phrase_andThen (p : Phrase eof α) (hs : s.met = [])
    {f f' : α → (t : State eof) → t.size ≤ s.size → Outcome eof β t.size}
    (h : ∀ a t ht, t.met = [] → Agree (f a t ht) (f' a t ht)) :
    Agree ((Clause.ofPhrase p s).andThen f) ((Clause.ofPhrase p s).andThen f') := by
  rcases Clause.ofPhrase_cases p s with ⟨a, t, hd, ht, hp, hm, hc⟩ | ⟨e, hp, hc⟩
  · rw [hc, Outcome.andThen_ok, Outcome.andThen_ok]
    exact (h a t ht (hm.trans hs)).widen ht
  · rw [hc]
    exact .failure e hs

/-- What follows a phrase, written as a sequence. -/
theorem phrase_bind (p : Phrase eof α) (hs : s.met = []) {f f' : α → Clause eof β}
    (h : ∀ a t, t.met = [] → Agree (f a t) (f' a t)) :
    Agree ((Clause.ofPhrase p >>= f) s) ((Clause.ofPhrase p >>= f') s) :=
  phrase_andThen p hs fun a t _ ht => h a t ht

/-- Values that are changed at the end in the same way. -/
theorem andThen_ok {f : α → State eof → β} (h : Agree r r') :
    Agree (r.andThen fun a t _ => .ok (f a t) t t.le_refl)
      (r'.andThen fun a t _ => .ok (f a t) t t.le_refl) := by
  cases h with
  | same clean => exact .same clean
  | failed e => exact .failed e
  | recovered first => exact .recovered first

end Agree

/-! ## Bodies -/

/-- The outcome of a clause that was begun with the errors `met` forgets none of them. -/
def Outcome.Keeps (met : List ParseError) {n : Nat} : Outcome eof α n → Prop
  | .ok _ t _ => met <+: t.met
  | .fail _ inner => inner = met

theorem Outcome.Accounts.keeps {n : Nat} {s : State eof} {regions : α → List Region}
    {P : α → State eof → Prop} {r : Outcome eof α n} (h : r.Accounts s regions P) :
    r.Keeps s.met := by
  cases r with
  | ok a t ht =>
    obtain ⟨⟨used, skips, hacc⟩, -⟩ := h
    exact hacc.met_prefix
  | fail e inner => exact h.1

section Body

variable {ctx : Context} {place : σ → Member α → σ} {strict rule : σ → Token → Clause eof α}

/-- The contract of a member rule in both ways to read: they agree where nothing is noted, and with
recovery no noted error is forgotten. -/
structure RulesAgree (ctx : Context) (strict rule : σ → Token → Clause eof α) (n : Nat) : Prop where
  agree : ∀ g p rest, rest.length < n → ctx.closes p.token = false →
    Agree (strict g p.token ⟨.after p rest, []⟩) (rule g p.token ⟨.after p rest, []⟩)
  keeps : ∀ g p rest met, rest.length < n → ctx.closes p.token = false →
    (rule g p.token ⟨.after p rest, met⟩).Keeps met

/-- The members of a body that are read with recovery forget no noted error. -/
theorem members_keeps {n : Nat} (place : σ → Member α → σ) (h : RulesAgree ctx strict rule n)
    (g : σ) (s : State eof) (hs : s.size ≤ n) :
    (members .recovery ctx place n (fun g lead t _ => rule g lead t) g s hs).Gives fun _ u =>
      s.met <+: u.met ∧ ctx.Ends u.toCursor := by
  refine members_invariant (fun _ u => s.met <+: u.met) ?_ hs (List.prefix_refl _)
  intro g₁ s₁ g₂ s₂ hs₁ turn hkeep
  cases turn with
  | separator => exact hkeep
  | @parsed _ p rest stop met a _ ht inside begins read =>
    have hk := h.keeps g₁ p rest met hs₁ inside
    rw [read] at hk
    exact hkeep.trans hk
  | @skipped _ p rest stop met e inner inside begins failed =>
    have hk := h.keeps g₁ p rest met hs₁ inside
    rw [failed] at hk
    obtain rfl : inner = met := hk
    rw [List.take_length]
    exact hkeep.trans (List.prefix_append _ _)

theorem head?_of_starts {e : ParseError} {met more : List ParseError} (h : met <+: more)
    (he : met.head? = some e) : more.head? = some e := by
  obtain ⟨rest, rfl⟩ := h
  cases met with
  | nil => simp at he
  | cons x met => exact he

/-- The first member that fails ends the strict reading; with recovery its error is noted first. -/
theorem members_agree {n : Nat} (place : σ → Member α → σ) (h : RulesAgree ctx strict rule n) :
    ∀ (m : Nat) (g : σ) (s : State eof) (hs : s.size ≤ n), s.met = [] → s.size < m →
      Agree (members .strict ctx place n (fun g lead t _ => strict g lead t) g s hs)
        (members .recovery ctx place n (fun g lead t _ => rule g lead t) g s hs) := by
  intro m
  induction m with
  | zero => intro g s hs _ hm; omega
  | succ m ih =>
    rintro g ⟨⟨_ | ⟨p, rest⟩, stop⟩, _⟩ hs rfl hm
    · rw [members_nil, members_nil]
      exact .same rfl
    · -- After an error is noted, reading with recovery goes on to the end of the body.
      have onward {e : ParseError} (g' : σ) (t : State eof) (ht : t.size ≤ n) (k : Nat)
          (hk : t.size ≤ k) (he : t.met.head? = some e) :
          Agree (.fail e []) ((members .recovery ctx place n (fun g lead t _ => rule g lead t)
            g' t ht).widen hk) := by
        obtain ⟨g'', u, hu, hrun, hkeep, -⟩ := ((members_keeps place h g' t ht).widen hk).exists_eq
        rw [hrun]
        exact .recovered (head?_of_starts hkeep he)
      have hrest : rest.length < n := hs
      rw [members, members]
      dsimp only
      split
      · exact .same rfl
      · next inside =>
        rw [Bool.not_eq_true] at inside
        split
        · refine Agree.widen (ih g ⟨.after p rest, []⟩ _ rfl ?_) _
          exact Nat.lt_of_succ_lt_succ hm
        · have hr := h.agree g p rest hrest inside
          generalize strict g p.token ⟨.after p rest, []⟩ = x at hr ⊢
          generalize rule g p.token ⟨.after p rest, []⟩ = y at hr ⊢
          cases hr with
          | @same a t ht clean =>
            refine Agree.widen (ih _ t _ clean ?_) _
            exact Nat.lt_of_le_of_lt ht (Nat.lt_of_succ_lt_succ hm)
          | failed e =>
            exact onward _ ⟨(resume eof ctx p rest).2, [e]⟩ _ _ _ rfl
          | recovered first => exact onward _ _ _ _ _ first

/-- Closing a body with recovery never fails where its members end, and forgets no error. -/
theorem closeBody_keeps (recovery : Recovery) {u : State eof} (ends : ctx.Ends u.toCursor) :
    (closeBody .recovery recovery u).Gives fun _ v => u.met <+: v.met := by
  rcases u with ⟨⟨_ | ⟨p, rest⟩, stop⟩, met⟩
  · rw [closeBody_nil]
    show met <+: noteUnclosed eof met
    unfold noteUnclosed
    split_ifs
    · exact List.prefix_refl _
    · exact List.prefix_append _ _
  · rw [closeBody_cons (ends.kind_eq rfl)]
    exact List.prefix_refl _

/-- Where nothing is noted, both ways close a body in the same way, or the document has ended. -/
theorem closeBody_agree (recovery : Recovery) {u : State eof} (ends : ctx.Ends u.toCursor)
    (hu : u.met = []) : Agree (closeBody .strict recovery u) (closeBody .recovery recovery u) := by
  rcases u with ⟨⟨_ | ⟨p, rest⟩, stop⟩, _⟩
  · obtain rfl : _ = [] := hu
    rw [closeBody_nil]
    exact .recovered rfl
  · rw [closeBody_cons (ends.kind_eq rfl), closeBody_cons (ends.kind_eq rfl)]
    exact .same hu

/-- Both ways to read a whole body agree if the rules of its members do. -/
theorem wholeBody_agree (place : σ → Member α → σ) (strict rule : σ → Token → Clause eof α)
    (record : σ → Recovery) (f : σ → Recovery → State eof → β) {s : State eof}
    (h : RulesAgree ctx strict rule s.size) (g : σ) (hs : s.met = []) :
    Agree
      ((members .strict ctx place s.size (fun g lead t _ => strict g lead t) g s s.le_refl).andThen
        fun g' u _ => (closeBody .strict (record g') u).andThen
          fun recovery v _ => .ok (f g' recovery v) v v.le_refl)
      ((members .recovery ctx place s.size (fun g lead t _ => rule g lead t) g s s.le_refl).andThen
        fun g' u _ => (closeBody .recovery (record g') u).andThen
          fun recovery v _ => .ok (f g' recovery v) v v.le_refl) := by
  obtain ⟨g', u, hu, hrun, -, ends⟩ := (members_keeps place h g s s.le_refl).exists_eq
  have hagree := members_agree place h (s.size + 1) g s s.le_refl hs (Nat.lt_succ_self _)
  rw [hrun] at hagree ⊢
  generalize members .strict ctx place s.size (fun g lead t _ => strict g lead t) g s s.le_refl = x
    at hagree ⊢
  cases hagree with
  | same clean =>
    rw [Outcome.andThen_ok, Outcome.andThen_ok]
    exact ((closeBody_agree (record g') ends clean).andThen_ok).widen _
  | recovered first =>
    obtain ⟨recovery, v, hv, hclose, hkeep⟩ := (closeBody_keeps (record g') ends).exists_eq
    rw [Outcome.andThen_ok, hclose]
    exact .recovered (head?_of_starts hkeep first)

end Body

/-! ## Clauses -/

namespace Clause

variable {s : State eof}

theorem setupItem_agree (lead : Token) (hs : s.met = []) :
    Agree (setupItem lead s) (setupItem lead s) := by
  unfold setupItem
  split_ifs
  · exact .same hs
  · exact .phrase_bind _ hs fun call t ht => .same ht
  · exact .failure _ hs

theorem setupBlock_agree (hs : s.met = []) :
    Agree (setupBlock .strict s) (setupBlock .recovery s) := by
  refine wholeBody_agree placeSetupItem (fun _ lead => setupItem lead)
    (fun _ lead => setupItem lead) (fun _ => .clean)
    (fun items recovery _ => (SetupBody.block items, recovery)) ?_ [] hs
  constructor
  · intro _ p rest _ _
    exact setupItem_agree p.token rfl
  · intro _ p rest met _ _
    exact (setupItem_accounts p rest .start met).keeps

theorem setupBody_agree (hs : s.met = []) :
    Agree (setupBody .strict s) (setupBody .recovery s) := by
  rcases s with ⟨⟨_ | ⟨p, rest⟩, stop⟩, _⟩
  · obtain rfl : _ = [] := hs
    exact .failed _
  · obtain rfl : _ = [] := hs
    simp only [setupBody]
    split_ifs
    · exact .same rfl
    · exact Agree.widen (setupBlock_agree rfl) _
    · refine Agree.widen (Agree.andThen_ok ?_) _
      unfold setupName
      split_ifs
      · exact Agree.andThen_ok (.of_phrase _ rfl)
      · exact .same rfl
    · exact .failed _

theorem setup_agree (lead : Token) (hs : s.met = []) :
    Agree (setup .strict lead s) (setup .recovery lead s) :=
  Agree.andThen_ok (f := fun (b : SetupBody × Recovery) t =>
    ({ body := some b.1, span := ⟨lead.start, t.stop⟩, recovery := b.2 } : Setup))
    (setupBody_agree hs)

theorem assertion_agree (lead : Token) (hs : s.met = []) :
    Agree (assertion .strict lead s) (assertion .recovery lead s) := by
  refine .phrase_bind _ hs fun query t ht => .phrase_bind _ ht fun _ u hu => ?_
  refine wholeBody_agree placeExpr (fun _ lead => ofPhrase (.expr lead))
    (fun _ lead => ofPhrase (.expr lead)) (fun a => a.recovery)
    (fun a recovery v => { a with recovery, span := ⟨lead.start, v.stop⟩ }) ?_ _ hu
  constructor
  · intro _ p rest _ _
    exact .of_phrase _ rfl
  · intro _ p rest met _ _
    exact (expr_accounts p rest .start met).keeps

theorem testMember_agree (t : Test) (lead : Token) (hs : s.met = []) :
    Agree (testMember .strict t lead s) (testMember .recovery t lead s) := by
  unfold testMember
  split_ifs
  · exact .failure _ hs
  · exact (setup_agree lead hs).andThen_ok
  · exact (assertion_agree lead hs).andThen_ok
  · exact .phrase_bind _ hs fun _ t ht => .same ht
  · exact .failure _ hs

theorem test_agree (lead : Token) (hs : s.met = []) :
    Agree (test .strict lead s) (test .recovery lead s) := by
  refine .phrase_bind _ hs fun query t ht => .phrase_bind _ ht fun _ u hu => ?_
  refine wholeBody_agree placeTestMember (testMember .strict) (testMember .recovery)
    (fun t => t.recovery)
    (fun t recovery v => { t with recovery, span := ⟨lead.start, v.stop⟩ }) ?_ _ hu
  constructor
  · intro t p rest _ _
    exact testMember_agree t p.token rfl
  · intro t p rest met _ _
    exact (testMember_accounts t p rest .start met).keeps

/-- A member of a scope or a group, if the bodies within it agree. -/
theorem bodyMember_agree (b : Body) (lead : Token) (hs : s.met = [])
    (hbody : ∀ v : State eof, v.size ≤ s.size → v.met = [] →
      Agree (body .strict v) (body .recovery v)) :
    Agree (bodyMember .strict b lead s fun v _ => body .strict v)
      (bodyMember .recovery b lead s fun v _ => body .recovery v) := by
  unfold bodyMember
  split_ifs
  · exact .failure _ hs
  · exact (setup_agree lead hs).andThen_ok
  · exact .failure _ hs
  · exact (Agree.of_phrase _ hs).andThen_ok
  · exact (test_agree lead hs).andThen_ok
  · refine Agree.andThen_ok (.phrase_andThen _ hs fun name t ht hm => ?_)
    exact (hbody t ht hm).andThen_ok
  · exact .failure _ hs

theorem body_agree_of_lt :
    ∀ (n : Nat) (s : State eof), s.met = [] → s.size < n →
      Agree (body .strict s) (body .recovery s) := by
  intro n
  induction n with
  | zero => intro s _ hn; omega
  | succ n ih =>
    intro s hs hn
    rw [body_eq, body_eq]
    refine .phrase_andThen _ hs fun _ t ht hm => ?_
    refine wholeBody_agree placeBodyMember
      (fun b lead u => bodyMember .strict b lead u fun v _ => body .strict v)
      (fun b lead u => bodyMember .recovery b lead u fun v _ => body .recovery v)
      (fun b => b.recovery) (fun b recovery _ => { b with recovery }) ?_ _ hm
    constructor
    · intro b p rest hrest _
      refine bodyMember_agree b p.token rfl fun v hv hvm => ih v hvm ?_
      have hv : v.size ≤ rest.length := hv
      omega
    · intro b p rest met _ _
      exact (bodyMember_accounts b p rest .start met fun v _ => body_accounts v).keeps

theorem scope_agree (lead : Token) (hs : s.met = []) :
    Agree (scope .strict lead s) (scope .recovery lead s) :=
  Agree.andThen_ok (f := fun (b : Body) t =>
    ({ query := lead.text, setup := b.setup, teardown := b.teardown, items := b.items,
       span := ⟨lead.start, t.stop⟩, recovery := b.recovery } : Scope))
    (body_agree_of_lt (s.size + 1) s hs (Nat.lt_succ_self _))

end Clause

/-! ## Documents -/

theorem topMember_agree (suite : Suite) (lead : Token) {s : State eof} (hs : s.met = []) :
    Agree (topMember .strict suite lead s) (topMember .recovery suite lead s) := by
  unfold topMember
  split_ifs
  · exact .phrase_bind _ hs fun _ t ht => .same ht
  · exact .phrase_bind _ hs fun _ t ht => .same ht
  · exact .failure _ hs
  · exact (Clause.setup_agree lead hs).andThen_ok
  · exact .failure _ hs
  · exact .phrase_bind _ hs fun _ t ht => .same ht
  · exact (Clause.scope_agree lead hs).andThen_ok
  · exact .failure _ hs

/-- Both ways to read a document agree. -/
theorem document_agree {s : State eof} (hs : s.met = []) :
    Agree (document .strict s) (document .recovery s) := by
  refine members_agree _ ?_ (s.size + 1) ({} : Suite) s s.le_refl hs (Nat.lt_succ_self _)
  constructor
  · intro suite p rest _ _
    exact topMember_agree suite p.token rfl
  · intro suite p rest met _ _
    exact (topMember_accounts suite p rest .start met).keeps

/-- Reading a list of tokens strictly gives the suite that reading with recovery gives where that
notes nothing, and else fails with the first error noted. -/
theorem parse_agree (tokens : List Token) :
    ∃ suite met, parse .recovery tokens = .suite suite met ∧
      (parse .strict tokens = .suite suite met ∧ met = [] ∨
        ∃ e, parse .strict tokens = .failed e [] ∧ met.head? = some e) := by
  obtain ⟨suite, u, hu, hrun, -, -⟩ := (document_accounts (initial tokens)).exists_eq
  have hagree : Agree (document .strict (initial tokens)) (document .recovery (initial tokens)) :=
    document_agree rfl
  refine ⟨complete tokens suite, u.met, by rw [parse_eq, hrun], ?_⟩
  rw [hrun] at hagree
  rw [parse_eq]
  generalize document .strict (initial tokens) = x at hagree ⊢
  cases hagree with
  | same clean => exact .inl ⟨rfl, clean⟩
  | @recovered e _ _ _ first => exact .inr ⟨e, rfl, first⟩

/-- A suite that a source is read as, strictly or not, is the one it is read as with recovery; with
the strict reading, nothing is noted. -/
theorem exists_parse_recovery {mode : Mode} {source : String} {suite : Suite}
    (h : (QuerySuite.parse mode source).suite = some suite) :
    ∃ met, parse .recovery (Token.scan source) = .suite suite met ∧
      (mode = .strict → met = []) := by
  obtain ⟨suite', met, hrun, hstrict⟩ := parse_agree (Token.scan source)
  unfold QuerySuite.parse at h
  dsimp only at h
  cases mode with
  | recovery =>
    rw [hrun] at h
    obtain rfl := Option.some.inj h
    exact ⟨met, hrun, by simp⟩
  | strict =>
    rcases hstrict with ⟨hs, rfl⟩ | ⟨e, hs, -⟩
    · rw [hs] at h
      obtain rfl := Option.some.inj h
      exact ⟨[], hrun, fun _ => rfl⟩
    · rw [hs] at h
      cases h

/-- Something is noted if and only if some node of the suite records that it was recovered. -/
theorem parse_recovery_clean_iff {tokens : List Token} {suite : Suite} {met : List ParseError}
    (h : parse .recovery tokens = .suite suite met) :
    met = [] ↔ ∀ node ∈ suite.nodes, node.info.recovery.wasRecovered = false := by
  obtain ⟨suite', u, hrun, -, ⟨used, skips, hacc⟩, -⟩ := parse_recovery tokens
  rw [hrun] at h
  cases h
  rw [hacc.met_eq_nil_iff rfl, regionsOf_eq_nil_iff]

/-- The errors that reading with recovery notes have no parts. -/
theorem parse_recovery_flatten {tokens : List Token} {suite : Suite} {met : List ParseError}
    (h : parse .recovery tokens = .suite suite met) : ∀ e ∈ met, e.flatten = [e] := by
  obtain ⟨suite', u, hrun, -, ⟨used, skips, hacc⟩, -⟩ := parse_recovery tokens
  rw [hrun] at h
  cases h
  intro e he
  rcases hacc.raised he with he | ⟨t, -, ht⟩
  · simp [initial] at he
  · exact ht.flatten_eq

end Grammar

/-- The first part of several errors held as one is the first of them. -/
theorem ParseError.head?_flatten_ofList {errors : List ParseError}
    (h : ∀ e ∈ errors, e.flatten = [e]) :
    (ofList errors).bind (·.flatten.head?) = errors.head? := by
  match errors with
  | [] => rfl
  | [e] => simp [ofList, h e (by simp)]
  | e :: e' :: more => simp [ofList, flatten, flattenAll, h e (by simp)]

/-- Reading strictly gives a suite exactly where reading with recovery notes no error, which is
where no node of its suite was recovered, and then it gives the same suite. Where it fails, its
error is the first one noted with recovery. So the first error of a document is the same in both
ways to parse it. -/
theorem strict_agrees_with_recovery :
    (∀ tokens, ∃ suite met, Grammar.parse .recovery tokens = .suite suite met ∧
      ((∃ s m, Grammar.parse .strict tokens = .suite s m) ↔ met = []) ∧
      (met = [] ↔ ∀ node ∈ suite.nodes, node.info.recovery.wasRecovered = false) ∧
      (∀ s m, Grammar.parse .strict tokens = .suite s m → s = suite ∧ m = met) ∧
      ∀ e m, Grammar.parse .strict tokens = .failed e m → met.head? = some e) ∧
    ∀ source, (parse .recovery source).error.bind (·.flatten.head?) =
      (parse .strict source).error := by
  constructor
  · intro tokens
    obtain ⟨suite, met, hrun, hstrict⟩ := Grammar.parse_agree tokens
    refine ⟨suite, met, hrun, ?_⟩
    have hclean := Grammar.parse_recovery_clean_iff hrun
    rcases hstrict with ⟨hs, rfl⟩ | ⟨e, hs, hfirst⟩
    · rw [hs]
      refine ⟨by simp, hclean, ?_, ?_⟩
      · rintro s m ⟨⟩
        exact ⟨rfl, rfl⟩
      · rintro e m ⟨⟩
    · have hne : met ≠ [] := by
        rintro rfl
        simp at hfirst
      rw [hs]
      refine ⟨by simp [hne], hclean, ?_, ?_⟩
      · rintro s m ⟨⟩
      · rintro e' m ⟨⟩
        exact hfirst
  · intro source
    obtain ⟨suite, met, hrun, hstrict⟩ := Grammar.parse_agree (Token.scan source)
    unfold parse
    dsimp only
    rw [hrun]
    dsimp only
    rw [ParseError.head?_flatten_ofList (Grammar.parse_recovery_flatten hrun)]
    rcases hstrict with ⟨hs, rfl⟩ | ⟨e, hs, hfirst⟩
    · rw [hs]
      rfl
    · rw [hs, hfirst]

end QuerySuite
