import Mathlib.Tactic.SplitIfs
import QuerySuite.Proofs.Gathering
import QuerySuite.Proofs.Nesting

/-!
# Where the elements of a suite come from

An element below the suite came there in one of two ways. It was read by its rule, from a piece of
the document up to some later place; or it is the placeholder of a member that was skipped. So what
holds of an element is told by its rule, or by the way in which members are skipped, wherever in the
tree the element stands.

Results:

* `Origin`: the two ways, and where in the document the element was begun.
* `Clause.setup_traced`, `Clause.assertion_traced`, `Clause.test_traced`, `Clause.body_traced`,
  `Clause.scope_traced`: the clauses, from the inside out.
* `parse_traced`: every element of a suite but the suite itself has an origin, in both ways to read
  a source.
-/

namespace QuerySuite

namespace Grammar

variable {eof : Token} {α β σ : Type} {pieces : List Piece}

/-- What the rule of an element that was begun with the piece `p` and read up to `c` gave. Of a
phrase it is the value itself; of a clause with a body, that there is one. -/
def ReadAt (p : Piece) (rest : List Piece) (c : Cursor eof) : Element → Prop
  | .importClause i => ∃ h, Phrase.importClause p.token (.after p rest : Cursor eof) = .ok i c h
  | .query q => ∃ h, Phrase.queryClause p.token (.after p rest : Cursor eof) = .ok q c h
  | .teardown t => ∃ h, Phrase.teardownClause p.token (.after p rest : Cursor eof) = .ok t c h
  | .call x => p.token.isName = true ∧
      ∃ h, Phrase.call p.token (.after p rest : Cursor eof) = .ok x c h
  | .statement s => p.token.kind = .ident ∧
      ∃ h, Phrase.statement p.token (.after p rest : Cursor eof) = .ok s c h
  | .value v => ∃ stop h, Phrase.datum (⟨p :: rest, stop⟩ : Cursor eof) = .ok v c h
  | .expr x => ∃ h, Phrase.expr p.token (.after p rest : Cursor eof) = .ok x c h
  | .setupItem i => i.task.isSome = true
  | .setup s => s.body.isSome = true
  | .scope s => p.token.isName = true ∧ s.query = p.token.text
  | .assertion _ | .test _ | .group _ _ | .suite _ => True

/-- The element is a placeholder for the region: it has no part, and no name. There is none for a
scope, nor for what is read as a whole or not at all. -/
inductive Blank (r : Region) : Element → Prop where
  | importClause : Blank r (.importClause { r.placeholder with })
  | query : Blank r (.query { r.placeholder with })
  | setup : Blank r (.setup { r.placeholder with })
  | setupItem : Blank r (.setupItem { r.placeholder with })
  | teardown : Blank r (.teardown { r.placeholder with })
  | statement : Blank r (.statement { r.placeholder with })
  | assertion : Blank r (.assertion { r.placeholder with })
  | test : Blank r (.test { r.placeholder with })
  | group : Blank r (.group { r.placeholder with } [])

theorem Blank.info {r : Region} {e : Element} (h : Blank r e) : e.node.info = r.placeholder := by
  cases h <;> rfl

/-- How an element came into the suite of a document with these pieces. -/
inductive Origin (eof : Token) (pieces : List Piece) (e : Element) : Prop where
  /-- It stands for a member that began with `p` and was skipped. -/
  | skipped (ctx : Context) (p : Piece) (rest : List Piece) (suffix : p :: rest <:+ pieces)
      (blank : Blank (resume eof ctx p rest).1 e)
  /-- It was read from the piece `p` up to `c`. -/
  | read (p : Piece) (rest used : List Piece) (c : Cursor eof) (suffix : p :: rest <:+ pieces)
      (reads : (.after p rest : Cursor eof).Reads used c)
      (span : e.span = ⟨p.token.start, c.stop⟩) (rule : ReadAt p rest c e)

/-- Every element of the trees has an origin. -/
def Traced (eof : Token) (pieces : List Piece) (trees : List ElementTree) : Prop :=
  ∀ t ∈ trees, ∀ e ∈ t.elements, Origin eof pieces e

namespace Traced

variable {trees : List ElementTree}

theorem nil : Traced eof pieces [] := List.forall_mem_nil _

/-- An element above trees whose elements have origins. -/
theorem node {e : Element} (he : Origin eof pieces e) (h : Traced eof pieces trees) :
    Traced eof pieces [.node e trees] := by
  refine List.forall_mem_singleton.2 ?_
  rw [ElementTree.elements_node]
  refine List.forall_mem_cons.2 ⟨he, fun e' he' => ?_⟩
  obtain ⟨t, ht, he'⟩ := List.mem_flatMap.1 he'
  exact h t ht e' he'

/-- A further tree. -/
theorem add {more : List ElementTree} {t : ElementTree} (h : Traced eof pieces trees)
    (ht : Traced eof pieces [t]) (hmore : more.Perm (trees ++ [t])) : Traced eof pieces more := by
  intro u hu
  rcases List.mem_append.1 (hmore.mem_iff.1 hu) with hu | hu
  · exact h u hu
  · exact ht u hu

end Traced

/-! ## Contracts that keep the place -/

/-- A phrase that is read in a stream ends in it. -/
theorem Reply.From.on {c : Cursor eof} {n : Nat} {P : α → Cursor eof → Prop} {r : Reply eof α n}
    (h : r.From c P) (hc : c.On pieces) : r.From c fun a d => P a d ∧ d.On pieces := by
  cases r with
  | fail e => exact h
  | ok a d hd =>
    obtain ⟨hP, used, hr⟩ := h
    exact ⟨⟨hP, hc.reads hr⟩, used, hr⟩

/-- A contract speaks of the value that the reply gives, and of pieces that were used up. -/
theorem Reply.From.and_eq {c : Cursor eof} {n : Nat} {P : α → Cursor eof → Prop}
    {r : Reply eof α n} (h : r.From c P) :
    r.From c fun a d => P a d ∧ (∃ used, c.Reads used d) ∧ ∃ hd, r = .ok a d hd := by
  cases r with
  | fail e => exact h
  | ok a d hd => exact ⟨⟨h.1, h.2, hd, rfl⟩, h.2⟩

/-- What holds of the value of a reply. -/
theorem Reply.From.of_eq {c d : Cursor eof} {n : Nat} {P : α → Cursor eof → Prop}
    {r : Reply eof α n} (h : r.From c P) {a : α} {hd : d.size ≤ n} (heq : r = .ok a d hd) :
    P a d := by
  subst heq
  exact h.1

/-- Elements in brackets, each read in the stream. -/
theorem elements_on_of_lt {P : α → Prop} {close : Token.Kind} {expected : String} :
    ∀ (n : Nat) (c : Cursor eof), c.size < n → c.On pieces →
      ∀ element : (d : Cursor eof) → d.size ≤ c.size → Reply eof α d.size,
        (∀ d hd, d.On pieces → (element d hd).From d fun a _ => P a) →
        (elements close expected c element).From c fun as _ => ∀ a ∈ as, P a := by
  intro n
  induction n with
  | zero => intro c hn; omega
  | succ n ih =>
    intro c hn hc element h
    rw [elements]
    split
    · next t d h₁ =>
      obtain ⟨p, -, hr⟩ := Cursor.read?_reads h₁
      exact .ok (by simp) ⟨[p], hr⟩
    · refine ((h c c.le_refl hc).on hc).andThen fun a d hd ha => ?_
      obtain ⟨ha, hdo⟩ := ha
      split
      · next t e h₂ =>
        obtain ⟨p, -, hr⟩ := Cursor.read?_reads h₂
        exact .ok (by simpa using ha) ⟨[p], hr⟩
      · split
        · exact .unexpected expected
        · next t e h₃ =>
          obtain ⟨p, -, hr⟩ := Cursor.read?_reads h₃
          have hlt := Cursor.size_lt_of_read? h₃
          have rest := ih e (by omega) (hdo.reads hr) _ fun x hx hxo => h x (by omega) hxo
          refine ((rest.map fun as _ has => ?_).before hr).widen _
          exact List.forall_mem_cons.2 ⟨ha, has⟩

theorem elements_on {P : α → Prop} {close : Token.Kind} {expected : String} {c : Cursor eof}
    (hc : c.On pieces) (element : (d : Cursor eof) → d.size ≤ c.size → Reply eof α d.size)
    (h : ∀ d hd, d.On pieces → (element d hd).From d fun a _ => P a) :
    (elements close expected c element).From c fun as _ => ∀ a ∈ as, P a :=
  elements_on_of_lt (c.size + 1) c (Nat.lt_succ_self _) hc element h

namespace Phrase

theorem entry_on {P : α → Prop} {c : Cursor eof} (hc : c.On pieces)
    (element : (d : Cursor eof) → d.size ≤ c.size → Reply eof α d.size)
    (h : ∀ d hd, d.On pieces → (element d hd).From d fun a _ => P a) :
    (entry c element).From c fun e _ => P e.value := by
  refine ((label_from "map key" c).on hc).andThen fun key d hd hkey => ?_
  refine ((ofKind_from .colon "':'" d).on hkey.2).andThen fun _ e he hcolon => ?_
  exact (h e _ hcolon.2).andThen fun v f _ hv => .here hv

end Phrase

/-! ## Values -/

/-- The trees of a list of values. -/
theorem Traced.of_values {values : List Value} (h : ∀ v ∈ values, Traced eof pieces [v.tree]) :
    Traced eof pieces (Value.treesOfList values) := by
  induction values with
  | nil => rw [Value.treesOfList]; exact .nil
  | cons v values ih =>
    obtain ⟨hv, hvalues⟩ := List.forall_mem_cons.1 h
    rw [Value.treesOfList]
    exact List.forall_mem_cons.2 ⟨hv _ (List.mem_singleton_self _), ih hvalues⟩

/-- The trees of the values of a map. -/
theorem Traced.of_entries {entries : List (Entry Value)}
    (h : ∀ e ∈ entries, Traced eof pieces [e.value.tree]) :
    Traced eof pieces (Value.treesOfEntries entries) := by
  induction entries with
  | nil => rw [Value.treesOfEntries]; exact .nil
  | cons e entries ih =>
    obtain ⟨he, hentries⟩ := List.forall_mem_cons.1 h
    rw [Value.treesOfEntries]
    exact List.forall_mem_cons.2 ⟨he _ (List.mem_singleton_self _), ih hentries⟩

/-- A value that was read from the piece `p` up to `d`, of whose parts the elements have origins. -/
structure ValueRead (pieces : List Piece) (p : Piece) (rest : List Piece) (v : Value)
    (d : Cursor eof) : Prop where
  reads : ∃ used, (.after p rest : Cursor eof).Reads used d
  span : v.info.span = ⟨p.token.start, d.stop⟩
  parts : ∃ trees, v.tree = .node (.value v) trees ∧ Traced eof pieces trees

namespace Phrase

/-- A value, given the values within it. -/
theorem datum_read {p : Piece} {rest : List Piece} {stop : Position}
    (h : (⟨p :: rest, stop⟩ : Cursor eof).On pieces)
    (inner : ∀ d : Cursor eof, d.size ≤ rest.length → d.On pieces →
      (datum d).From d fun v _ => Traced eof pieces [v.tree]) :
    (datum ⟨p :: rest, stop⟩).From (⟨p :: rest, stop⟩ : Cursor eof) fun v d =>
      ValueRead pieces p rest v d := by
  have hr : Cursor.Reads (⟨p :: rest, stop⟩ : Cursor eof) [p] (.after p rest) := .after p rest stop
  rw [datum]
  split_ifs
  · refine (((elements_on h.after _ inner).and_eq.andThen
      fun vs d _ hvs => .here ?_).before hr).widen _
    exact ⟨hvs.2.1, rfl, _, by rw [Value.tree], .of_values hvs.1⟩
  · refine (((elements_on (P := fun e => Traced eof pieces [e.value.tree]) h.after _
      ?_).and_eq.andThen fun es d _ hes => .here ?_).before hr).widen _
    · intro d hd hdo
      exact entry_on hdo _ fun e he heo => inner e (Nat.le_trans he hd) heo
    · exact ⟨hes.2.1, rfl, _, by rw [Value.tree], .of_entries hes.1⟩
  · refine (literal_reads p rest stop).andThen fun l d _ hl => .here ?_
    have hread : (.after p rest : Cursor eof).Reads [] d :=
      ⟨(List.cons.inj hl.rest_eq).2, hl.stop_eq⟩
    exact ⟨⟨[], hread⟩, rfl, _, by rw [Value.tree], .nil⟩

theorem datum_traced_of_lt :
    ∀ (n : Nat) (c : Cursor eof), c.size < n → c.On pieces →
      (datum c).From c fun v _ => Traced eof pieces [v.tree] := by
  intro n
  induction n with
  | zero => intro c hn; omega
  | succ n ih =>
    rintro ⟨_ | ⟨p, rest⟩, stop⟩ hn hc
    · rw [datum]
      exact .unexpected "value"
    · have hread := datum_read hc fun d hd hdo => ih d (by simp at hn; omega) hdo
      refine hread.and_eq.mono fun v d hv => ?_
      obtain ⟨⟨⟨used, hr⟩, hspan, trees, htree, htraced⟩, -, hd, heq⟩ := hv
      rw [htree]
      exact .node (.read p rest used d hc.suffix hr hspan ⟨stop, hd, heq⟩) htraced

/-- Every element of a value has an origin. -/
theorem datum_traced {c : Cursor eof} (hc : c.On pieces) :
    (datum c).From c fun v _ => Traced eof pieces [v.tree] :=
  datum_traced_of_lt (c.size + 1) c (Nat.lt_succ_self _) hc

/-! ## Phrases behind a first token -/

/-- A token that may stand at the cursor is its first piece. -/
theorem next?_piece (accepts : Token → Bool) (c : Cursor eof) :
    (next? accepts c).From c fun t d => ∀ u, t = some u → accepts u = true ∧
      ∃ p rest stop, c = ⟨p :: rest, stop⟩ ∧ p.token = u ∧ d = .after p rest := by
  unfold next?
  split
  · next t d h =>
    obtain ⟨p, -, hr⟩ := Cursor.read?_reads h
    refine .ok ?_ ⟨[p], hr⟩
    rintro u ⟨⟩
    refine ⟨(Cursor.read?_eq_some h).2.1, ?_⟩
    rcases c with ⟨_ | ⟨q, rest⟩, stop⟩
    · cases h
    · simp only [Cursor.read?] at h
      split at h
      · cases h
        exact ⟨q, rest, stop, rfl, rfl, rfl⟩
      · cases h
  · exact .here (by simp)

variable {p : Piece} {rest : List Piece} {stop : Position}

/-- A phrase behind a first token whose value has no parts. -/
theorem leaf_traced {phrase : Phrase eof α} (element : α → Element)
    (h : (⟨p :: rest, stop⟩ : Cursor eof).On pieces)
    (hspan : (phrase (.after p rest)).From (.after p rest) fun a d =>
      (element a).span = ⟨p.token.start, d.stop⟩)
    (rule : ∀ a d hd, phrase (.after p rest) = .ok a d hd → ReadAt p rest d (element a)) :
    (phrase (.after p rest)).From (.after p rest) fun a _ =>
      Traced eof pieces [.node (element a) []] := by
  refine hspan.and_eq.mono fun a d ha => ?_
  obtain ⟨hspan, ⟨used, hr⟩, hd, heq⟩ := ha
  exact .node (.read p rest used d h.suffix hr hspan (rule a d hd heq)) .nil

theorem call_traced (h : (⟨p :: rest, stop⟩ : Cursor eof).On pieces)
    (hname : p.token.isName = true) :
    (call p.token (.after p rest)).From (.after p rest : Cursor eof) fun x _ =>
      Traced eof pieces [x.tree] :=
  leaf_traced .call h (call_span p.token _) fun _ _ hd heq => ⟨hname, hd, heq⟩

theorem statement_traced (h : (⟨p :: rest, stop⟩ : Cursor eof).On pieces)
    (hkind : p.token.kind = .ident) :
    (statement p.token (.after p rest)).From (.after p rest : Cursor eof) fun s _ =>
      Traced eof pieces [s.tree] := by
  have hparts : (statement p.token (.after p rest)).From (.after p rest : Cursor eof) fun s d =>
      s.span = ⟨p.token.start, d.stop⟩ ∧
        Traced eof pieces (s.value.map Value.tree).toList := by
    refine Reply.From.bind ((segments_from _ rest).on h.after) fun more d hd => ?_
    refine ((ofKind_from .colon "':'" d).on hd.2).bind fun _ e he => ?_
    exact Reply.From.bind (datum_traced he.2) fun value f hv => .here ⟨rfl, hv⟩
  refine hparts.and_eq.mono fun s d hs => ?_
  obtain ⟨⟨hspan, htraced⟩, ⟨used, hr⟩, hd, heq⟩ := hs
  exact .node (.read p rest used d h.suffix hr hspan ⟨hkind, hd, heq⟩) htraced

end Phrase

/-! ## Bodies -/

/-- The body `g'` is `g` after a member was skipped: a placeholder stands for it, or no part was
added. -/
def TakesBlank (branches : σ → List ElementTree) (r : Region) (g g' : σ) : Prop :=
  (∃ e, Blank r e ∧ (branches g').Perm (branches g ++ [.node e []])) ∨ branches g' = branches g

section Body

variable {ctx : Context} {place : σ → Member α → σ} {rule : σ → Token → Clause eof α}

/-- The turns of a body that was begun at `s` keep that its elements have origins. -/
theorem kept_traced (tree : α → ElementTree) (own : σ → Recovery)
    (branches : σ → List ElementTree) {s : State eof} (hs : s.On pieces) {n : Nat}
    (hrule : ∀ g p rest stop met, rest.length < n → (⟨p :: rest, stop⟩ : Cursor eof).On pieces →
      (rule g p.token ⟨.after p rest, met⟩).From ⟨⟨p :: rest, stop⟩, met⟩ fun a _ =>
        Traced eof pieces [tree a] ∧ Takes own branches (tree a) g (place g (.parsed a)))
    (hskip : ∀ g r, TakesBlank branches r g (place g (.skipped r))) :
    Kept ctx place rule (fun g u => s.Onward u ∧ Traced eof pieces (branches g)) n where
  separator g p rest stop met _ h := ⟨h.1.trans (.after p rest stop met met), h.2⟩
  parsed g p rest stop met hlt _ h := by
    refine (hrule g p rest stop met hlt (h.1.on hs)).mono fun a t ht ha => ?_
    exact ⟨h.1.trans ht, h.2.add ha.1 ha.2.perm⟩
  skipped g p rest stop met e inner _ _ _ h := by
    refine ⟨h.1.trans (.resume ctx p rest stop _ _), ?_⟩
    rcases hskip g (resume eof ctx p rest).1 with ⟨e, hblank, hperm⟩ | hbranches
    · exact h.2.add (.node (.skipped ctx p rest (h.1.on hs).suffix hblank) .nil) hperm
    · rw [hbranches]
      exact h.2

end Body

namespace Clause

variable {p : Piece} {rest : List Piece} {stop : Position}

/-- A clause with the parts `trees`, begun with `p` and read up to `u`, becomes an element. -/
theorem traced_node (h : (⟨p :: rest, stop⟩ : Cursor eof).On pieces) {met : List ParseError}
    {u : State eof} (hu : (⟨.after p rest, met⟩ : State eof).Onward u) {e : Element}
    (hspan : e.span = ⟨p.token.start, u.stop⟩) (rule : ReadAt p rest u.toCursor e)
    {trees : List ElementTree} (htrees : Traced eof pieces trees) :
    Traced eof pieces [.node e trees] := by
  obtain ⟨used, hr⟩ := hu
  exact .node (.read p rest used u.toCursor h.suffix hr hspan rule) htrees

/-- A phrase behind a first token. -/
theorem ofPhrase_traced {phrase : Phrase eof α} (tree : α → ElementTree) (met : List ParseError)
    (hphrase : (phrase (.after p rest)).From (.after p rest) fun a _ =>
      Traced eof pieces [tree a]) :
    (ofPhrase phrase ⟨.after p rest, met⟩).From (⟨⟨p :: rest, stop⟩, met⟩ : State eof)
      fun a _ => Traced eof pieces [tree a] := by
  have hclause := Outcome.From.of_phrase (s := ⟨.after p rest, met⟩) (t := ⟨.after p rest, met⟩)
    rfl hphrase
  exact hclause.behind.mono fun a t _ ha => ha.1

/-! ## Setups -/

theorem setupItem_traced (h : (⟨p :: rest, stop⟩ : Cursor eof).On pieces)
    (met : List ParseError) :
    (setupItem p.token ⟨.after p rest, met⟩).From (⟨⟨p :: rest, stop⟩, met⟩ : State eof)
      fun i _ => Traced eof pieces [i.tree] := by
  unfold setupItem
  split_ifs with _ hname
  · have hread : (⟨.after p rest, met⟩ : State eof).Onward ⟨.after p rest, met⟩ := .refl _
    refine .behind (.here (traced_node h hread rfl ?_ .nil))
    rfl
  · refine .behind (.phrase_bind (Phrase.call_traced h hname) fun call t ht _ hcall => .here ?_)
    refine traced_node h ht rfl ?_ hcall
    rfl
  · trivial

theorem setupBlock_traced {s : State eof} (hs : s.On pieces) :
    (setupBlock .recovery s).From s fun b _ => Traced eof pieces b.1.branches := by
  have kept : Kept .setupBlock placeSetupItem (fun _ lead => @setupItem eof lead)
      (fun items u => s.Onward u ∧ Traced eof pieces (items.map SetupItem.tree)) s.size := by
    refine kept_traced SetupItem.tree (fun _ => .clean) (List.map SetupItem.tree) hs ?_ ?_
    · intro items p rest stop met _ hon
      refine (setupItem_traced hon met).mono fun i t _ hi => ⟨hi, ?_⟩
      exact ⟨rfl, .of_eq (by simp [placeSetupItem])⟩
    · intro items r
      refine .inl ⟨_, .setupItem, .of_eq ?_⟩
      simp [placeSetupItem, SetupItem.tree]
  refine wholeBody_from placeSetupItem _ (fun _ => .clean)
    (fun items recovery _ => (SetupBody.block items, recovery)) kept ?_ ?_ ⟨.refl s, .nil⟩
  · intro items q rest stop met _ h
    exact h.2
  · intro items stop met h
    exact h.2

theorem setupName_traced (h : (⟨p :: rest, stop⟩ : Cursor eof).On pieces)
    (hname : p.token.isName = true) (met : List ParseError) :
    (setupName p.token ⟨.after p rest, met⟩).From (⟨.after p rest, met⟩ : State eof)
      fun b _ => Traced eof pieces b.branches := by
  unfold setupName
  split_ifs
  · exact Outcome.From.phrase_andThen (Phrase.call_traced h hname)
      fun call t _ _ _ hcall => .here hcall
  · exact .here .nil

theorem setupBody_traced {s : State eof} (hs : s.On pieces) :
    (setupBody .recovery s).From s fun b _ => Traced eof pieces b.1.branches := by
  rcases s with ⟨⟨_ | ⟨p, rest⟩, stop⟩, met⟩
  · trivial
  · have h : (⟨p :: rest, stop⟩ : Cursor eof).On pieces := hs
    simp only [setupBody]
    split_ifs with _ _ hname
    · exact .behind (.here .nil)
    · refine Outcome.From.widen ?_ _
      exact (setupBlock_traced (s := ⟨.after p rest, met⟩) h.after).behind
    · refine Outcome.From.widen (Outcome.From.behind ?_) _
      exact (setupName_traced h hname met).andThen_ok fun b t _ hb => hb
    · trivial

/-- A setup, its reserved word included. -/
theorem setup_traced (h : (⟨p :: rest, stop⟩ : Cursor eof).On pieces) (met : List ParseError) :
    (setup .recovery p.token ⟨.after p rest, met⟩).From (⟨⟨p :: rest, stop⟩, met⟩ : State eof)
      fun c _ => Traced eof pieces [c.tree] := by
  have hbody := setupBody_traced (s := ⟨.after p rest, met⟩) h.after
  refine .behind (hbody.andThen_ok (f := fun b t =>
    ({ body := some b.1, span := ⟨p.token.start, t.stop⟩, recovery := b.2 } : Setup))
    fun b t ht hb => ?_)
  refine traced_node h ht rfl ?_ hb
  rfl

/-! ## Assertions -/

theorem assertionQuery_traced {c : Cursor eof} (hc : c.On pieces) :
    (assertionQuery c).From c fun q _ =>
      Traced eof pieces ((q.map AssertionQuery.branches).getD []) := by
  refine (Phrase.next?_piece _ c).bind fun t d hd => ?_
  cases t with
  | none => exact .here .nil
  | some t =>
    obtain ⟨haccepts, p, rest, stop, rfl, rfl, rfl⟩ := hd t rfl
    dsimp only
    split_ifs with hraw
    · exact .here .nil
    · have hname : p.token.isName = true := by simpa [hraw] using haccepts
      exact (Phrase.call_traced hc hname).bind fun call e hcall => .here hcall

theorem expr_traced (h : (⟨p :: rest, stop⟩ : Cursor eof).On pieces) (met : List ParseError) :
    (ofPhrase (.expr p.token) ⟨.after p rest, met⟩).From (⟨⟨p :: rest, stop⟩, met⟩ : State eof)
      fun e _ => Traced eof pieces [e.tree] := by
  cases htoken : p.token.exprToken? with
  | none =>
    have hfail : ofPhrase (.expr p.token) (⟨.after p rest, met⟩ : State eof) =
        .fail (.unexpected "expression" p.token) met := by
      unfold ofPhrase Phrase.expr
      rw [htoken]
      rfl
    rw [hfail]
    trivial
  | some token =>
    exact ofPhrase_traced Expr.tree met (Phrase.leaf_traced .expr h (Phrase.expr_span htoken _)
      fun _ _ hd heq => ⟨hd, heq⟩)

/-- An assertion, its reserved word included. -/
theorem assertion_traced (h : (⟨p :: rest, stop⟩ : Cursor eof).On pieces)
    (met : List ParseError) :
    (assertion .recovery p.token ⟨.after p rest, met⟩).From
      (⟨⟨p :: rest, stop⟩, met⟩ : State eof) fun a _ => Traced eof pieces [a.tree] := by
  refine .behind (.phrase_bind (assertionQuery_traced h.after) fun query t ht _ hquery => ?_)
  refine .phrase_bind (Phrase.ofKind_from .lbrace _ _) fun _ u hu _ _ => ?_
  have hbegun := ht.trans hu
  have kept : Kept .assertBody placeExpr (fun _ lead => @ofPhrase eof Expr (.expr lead))
      (fun a v => u.Onward v ∧ Traced eof pieces a.branches) u.size := by
    refine kept_traced Expr.tree (fun a => a.recovery) Assertion.branches (hbegun.on h.after) ?_ ?_
    · intro a q rest stop met _ hon
      refine (expr_traced hon met).mono fun e v _ he => ⟨he, rfl, ?_⟩
      exact .of_eq (by simp [placeExpr, Assertion.branches])
    · intro a r
      exact .inr rfl
  refine wholeBody_from placeExpr _ (fun a => a.recovery)
    (fun a recovery v => { a with recovery, span := ⟨p.token.start, v.stop⟩ }) kept ?_ ?_
    ⟨.refl u, ?_⟩
  · intro a q rest stop met _ ha
    have hread := hbegun.trans (ha.1.trans (.after q rest stop met met))
    exact traced_node (e := .assertion _) h hread rfl trivial ha.2
  · intro a stop met ha
    exact traced_node (e := .assertion _) h (hbegun.trans ha.1) rfl trivial ha.2
  · simpa [Assertion.branches] using hquery

/-! ## Tests -/

/-- A member that was skipped in a test. -/
theorem takesBlank_skipInTest (t : Test) (r : Region) :
    TakesBlank Test.branches r t (skipInTest t r) := by
  unfold skipInTest
  split
  · split_ifs with h
    · exact .inl ⟨_, .setup, (takes_placeTestMember t (.setup { r.placeholder with })
        (Option.isNone_iff_eq_none.1 h)).perm⟩
    · exact .inr rfl
  · exact .inl ⟨_, .assertion,
      (takes_placeTestMember t (.assertion { r.placeholder with }) trivial).perm⟩
  · exact .inl ⟨_, .statement,
      (takes_placeTestMember t (.statement { r.placeholder with }) trivial).perm⟩
  · exact .inr rfl

theorem testMember_traced (t : Test) (h : (⟨p :: rest, stop⟩ : Cursor eof).On pieces)
    (met : List ParseError) :
    (testMember .recovery t p.token ⟨.after p rest, met⟩).From
      (⟨⟨p :: rest, stop⟩, met⟩ : State eof)
      fun m _ => Traced eof pieces [m.tree] ∧ m.Fits t := by
  unfold testMember
  split_ifs with _ hsome _ hident
  · trivial
  · refine (setup_traced h met).andThen_ok fun s u _ hs => ⟨hs, ?_⟩
    show t.setup = none
    simpa using hsome
  · exact (assertion_traced h met).andThen_ok fun a u _ ha => ⟨ha, trivial⟩
  · have hphrase := Phrase.statement_traced h (by simpa using hident)
    exact (ofPhrase_traced Statement.tree met hphrase).andThen_ok fun s u _ hs => ⟨hs, trivial⟩
  · trivial

/-- A test, its reserved word included. -/
theorem test_traced (h : (⟨p :: rest, stop⟩ : Cursor eof).On pieces) (met : List ParseError) :
    (test .recovery p.token ⟨.after p rest, met⟩).From (⟨⟨p :: rest, stop⟩, met⟩ : State eof)
      fun t _ => Traced eof pieces [t.tree] := by
  refine .behind (.phrase_bind (Phrase.label_from _ _) fun name t ht _ _ => ?_)
  refine .phrase_bind (Phrase.ofKind_from .lbrace _ _) fun _ u hu _ _ => ?_
  have hbegun := ht.trans hu
  have kept : Kept .testBody placeTestMember (@testMember eof .recovery)
      (fun t v => u.Onward v ∧ Traced eof pieces t.branches) u.size := by
    refine kept_traced TestMember.tree (fun t => t.recovery) Test.branches (hbegun.on h.after) ?_
      takesBlank_skipInTest
    intro t q rest stop met _ hon
    refine (testMember_traced t hon met).mono fun m v _ hm => ⟨hm.1, ?_⟩
    exact takes_placeTestMember t m hm.2
  refine wholeBody_from placeTestMember _ (fun t => t.recovery)
    (fun t recovery v => { t with recovery, span := ⟨p.token.start, v.stop⟩ }) kept ?_ ?_
    ⟨.refl u, ?_⟩
  · intro t q rest stop met _ ht
    have hread := hbegun.trans (ht.1.trans (.after q rest stop met met))
    exact traced_node (e := .test _) h hread rfl trivial ht.2
  · intro t stop met ht
    exact traced_node (e := .test _) h (hbegun.trans ht.1) rfl trivial ht.2
  · exact .nil

/-! ## Scopes and groups -/

/-- A member that was skipped in a scope or a group. -/
theorem takesBlank_skipInBody (b : Body) (r : Region) :
    TakesBlank Body.branches r b (skipInBody b r) := by
  unfold skipInBody
  split
  · split_ifs with h
    · exact .inl ⟨_, .setup, (takes_placeBodyMember b (.setup { r.placeholder with })
        (Option.isNone_iff_eq_none.1 h)).perm⟩
    · exact .inr rfl
  · split_ifs with h
    · exact .inl ⟨_, .teardown, (takes_placeBodyMember b (.teardown { r.placeholder with })
        (Option.isNone_iff_eq_none.1 h)).perm⟩
    · exact .inr rfl
  · have h := takes_placeBodyMember b (.item (.test { r.placeholder with })) trivial
    rw [BodyMember.tree, Item.tree] at h
    exact .inl ⟨_, .test, h.perm⟩
  · have h := takes_placeBodyMember b (.item (.group { r.placeholder with } [])) trivial
    rw [BodyMember.tree, Item.tree_group] at h
    exact .inl ⟨_, .group, h.perm⟩
  · exact .inr rfl

theorem teardown_traced (h : (⟨p :: rest, stop⟩ : Cursor eof).On pieces)
    (met : List ParseError) :
    (ofPhrase (.teardownClause p.token) ⟨.after p rest, met⟩).From
      (⟨⟨p :: rest, stop⟩, met⟩ : State eof) fun t _ => Traced eof pieces [t.tree] := by
  have hspan := (Phrase.teardownClause_from p.token (.after p rest : Cursor eof)).mono
    fun _ _ ht => ht.2
  exact ofPhrase_traced Teardown.tree met
    (Phrase.leaf_traced .teardown h hspan fun _ _ hd heq => ⟨hd, heq⟩)

/-- A group, given the bodies within it. -/
theorem group_traced (h : (⟨p :: rest, stop⟩ : Cursor eof).On pieces) (met : List ParseError)
    (hbody : ∀ v : State eof, v.size ≤ rest.length → v.On pieces →
      (body .recovery v).From v fun b _ => Traced eof pieces b.branches) :
    (group p.token ⟨.after p rest, met⟩ fun v _ => body .recovery v).From
      (⟨⟨p :: rest, stop⟩, met⟩ : State eof) fun i _ => Traced eof pieces [i.tree] := by
  unfold group
  refine .behind (.phrase_andThen (Phrase.label_from _ _) fun name t hsize ht _ _ => ?_)
  refine (hbody t hsize (ht.on h.after)).andThen_ok fun b u hu hb => ?_
  rw [Item.tree_group]
  exact traced_node (e := .group _ _) h (ht.trans hu) rfl trivial hb

theorem bodyMember_traced (b : Body) (h : (⟨p :: rest, stop⟩ : Cursor eof).On pieces)
    (met : List ParseError)
    (hbody : ∀ v : State eof, v.size ≤ rest.length → v.On pieces →
      (body .recovery v).From v fun b _ => Traced eof pieces b.branches) :
    (bodyMember .recovery b p.token ⟨.after p rest, met⟩ fun v _ => body .recovery v).From
      (⟨⟨p :: rest, stop⟩, met⟩ : State eof)
      fun m _ => Traced eof pieces [m.tree] ∧ m.Fits b := by
  unfold bodyMember
  split_ifs with _ hs _ ht
  · trivial
  · refine (setup_traced h met).andThen_ok fun s u _ hx => ⟨hx, ?_⟩
    show b.setup = none
    simpa using hs
  · trivial
  · refine (teardown_traced h met).andThen_ok fun t u _ hx => ⟨hx, ?_⟩
    show b.teardown = none
    simpa using ht
  · refine (test_traced h met).andThen_ok fun t u _ ht => ⟨?_, trivial⟩
    rw [BodyMember.tree, Item.tree]
    exact ht
  · exact (group_traced h met hbody).andThen_ok fun i u _ hi => ⟨hi, trivial⟩
  · trivial

theorem body_traced_of_lt :
    ∀ (n : Nat) (s : State eof), s.size < n → s.On pieces →
      (body .recovery s).From s fun b _ => Traced eof pieces b.branches := by
  intro n
  induction n with
  | zero => intro s hn; omega
  | succ n ih =>
    intro s hn hs
    rw [body_eq]
    refine .phrase_andThen (Phrase.ofKind_from .lbrace _ _) fun _ t hsize ht _ _ => ?_
    have kept : Kept .scopeBody placeBodyMember
        (fun b lead (u : State eof) => bodyMember .recovery b lead u fun v _ => body .recovery v)
        (fun b v => t.Onward v ∧ Traced eof pieces b.branches) t.size := by
      refine kept_traced BodyMember.tree (fun b => b.recovery) Body.branches (ht.on hs) ?_
        takesBlank_skipInBody
      intro b q rest stop met hlt hon
      -- A group within the body is shorter than the body.
      have hinner (v : State eof) (hv : v.size ≤ rest.length) (hvo : v.On pieces) :
          (body .recovery v).From v fun b _ => Traced eof pieces b.branches :=
        ih v (by omega) hvo
      refine (bodyMember_traced b hon met hinner).mono fun m v _ hm => ⟨hm.1, ?_⟩
      exact takes_placeBodyMember b m hm.2
    refine wholeBody_from placeBodyMember _ (fun b => b.recovery)
      (fun b recovery _ => { b with recovery }) kept ?_ ?_ ⟨.refl t, ?_⟩
    · intro b q rest stop met _ h
      exact h.2
    · intro b stop met h
      exact h.2
    · exact .nil

/-- The body of a scope or a group. -/
theorem body_traced {s : State eof} (hs : s.On pieces) :
    (body .recovery s).From s fun b _ => Traced eof pieces b.branches :=
  body_traced_of_lt (s.size + 1) s (Nat.lt_succ_self _) hs

/-- A scope, the name of its query included. -/
theorem scope_traced (h : (⟨p :: rest, stop⟩ : Cursor eof).On pieces)
    (hname : p.token.isName = true) (met : List ParseError) :
    (scope .recovery p.token ⟨.after p rest, met⟩).From (⟨⟨p :: rest, stop⟩, met⟩ : State eof)
      fun c _ => Traced eof pieces [c.tree] := by
  have hbody := body_traced (s := ⟨.after p rest, met⟩) h.after
  refine .behind (hbody.andThen_ok (f := fun b t =>
    ({ query := p.token.text, setup := b.setup, teardown := b.teardown, items := b.items,
       span := ⟨p.token.start, t.stop⟩, recovery := b.recovery } : Scope)) fun b t ht hb => ?_)
  exact traced_node (e := .scope _) h ht rfl ⟨hname, rfl⟩ hb

end Clause

/-! ## Documents -/

/-- A member that was skipped in a document. -/
theorem takesBlank_skipInSuite (s : Suite) (r : Region) :
    TakesBlank Suite.branches r s (skipInSuite s r) := by
  unfold skipInSuite
  split
  · exact .inl ⟨_, .importClause,
      (takes_placeTopMember s (.importClause { r.placeholder with }) trivial).perm⟩
  · exact .inl ⟨_, .query,
      (takes_placeTopMember s (.query { r.placeholder with }) trivial).perm⟩
  · split_ifs with h
    · exact .inl ⟨_, .setup, (takes_placeTopMember s (.setup { r.placeholder with })
        (Option.isNone_iff_eq_none.1 h)).perm⟩
    · exact .inr rfl
  · split_ifs with h
    · exact .inl ⟨_, .teardown, (takes_placeTopMember s (.teardown { r.placeholder with })
        (Option.isNone_iff_eq_none.1 h)).perm⟩
    · exact .inr rfl
  · exact .inr rfl

theorem topMember_traced {p : Piece} {rest : List Piece} {stop : Position} (suite : Suite)
    (h : (⟨p :: rest, stop⟩ : Cursor eof).On pieces) (met : List ParseError) :
    (topMember .recovery suite p.token ⟨.after p rest, met⟩).From
      (⟨⟨p :: rest, stop⟩, met⟩ : State eof)
      fun m _ => Traced eof pieces [m.tree] ∧ m.Fits suite := by
  unfold topMember
  split_ifs with _ _ _ hs _ ht hname
  · have hspan := (Phrase.importClause_from p.token (.after p rest : Cursor eof)).mono
      fun _ _ hi => hi.2
    have hphrase := Phrase.leaf_traced .importClause h hspan fun _ _ hd heq => ⟨hd, heq⟩
    exact (Clause.ofPhrase_traced Import.tree met hphrase).andThen_ok
      fun i t _ hi => ⟨hi, trivial⟩
  · have hspan := (Phrase.queryClause_from p.token (.after p rest : Cursor eof)).mono
      fun _ _ hq => hq.2
    have hphrase := Phrase.leaf_traced .query h hspan fun _ _ hd heq => ⟨hd, heq⟩
    exact (Clause.ofPhrase_traced Query.tree met hphrase).andThen_ok
      fun q t _ hq => ⟨hq, trivial⟩
  · trivial
  · refine (Clause.setup_traced h met).andThen_ok fun c u _ hc => ⟨hc, ?_⟩
    show suite.setup = none
    simpa using hs
  · trivial
  · refine (Clause.teardown_traced h met).andThen_ok fun t u _ hx => ⟨hx, ?_⟩
    show suite.teardown = none
    simpa using ht
  · exact (Clause.scope_traced h hname met).andThen_ok fun c u _ hc => ⟨hc, trivial⟩
  · trivial

/-- The members of a document. -/
theorem document_traced {s : State eof} (hs : s.On pieces) :
    (document .recovery s).Gives fun suite _ => Traced eof pieces suite.branches := by
  have kept : Kept .topLevel placeTopMember (@topMember eof .recovery)
      (fun suite u => s.Onward u ∧ Traced eof pieces suite.branches) s.size := by
    refine kept_traced TopMember.tree (fun s => s.recovery) Suite.branches hs ?_
      takesBlank_skipInSuite
    intro suite p rest stop met _ hon
    refine (topMember_traced suite hon met).mono fun m t _ hm => ⟨hm.1, ?_⟩
    exact takes_placeTopMember suite m hm.2
  exact (members_from kept s.le_refl ⟨.refl s, .nil⟩).mono fun suite u h => h.1.2.2

/-- Every element of the suite of a source is the suite itself or has an origin, in both ways to
read the source. -/
theorem parse_traced {mode : Mode} {source : String} {suite : Suite}
    (h : (QuerySuite.parse mode source).suite = some suite) :
    ∀ e ∈ suite.elements, e = .suite suite ∨
      Origin (Stream.ofSource source).eof (Stream.ofSource source).pieces e := by
  obtain ⟨m, -, laid⟩ := (Stream.laid_ofSource source).exists_of_append
  have hon : (initial (Token.scan source)).On (Stream.ofSource source).pieces :=
    ⟨⟨m, laid⟩, List.suffix_refl _⟩
  obtain ⟨members, u, hrun, htraced⟩ := parse_of_gives (document_traced hon)
  obtain ⟨met, hrecovery, -⟩ := exists_parse_recovery h
  rw [hrun] at hrecovery
  cases hrecovery
  intro e he
  rw [Suite.elements, Suite.tree, ElementTree.elements_node] at he
  rcases List.mem_cons.1 he with rfl | he
  · exact .inl rfl
  · obtain ⟨t, ht, he⟩ := List.mem_flatMap.1 he
    exact .inr (htraced t ht e he)

end Grammar

end QuerySuite
