import Mathlib
import QuerySuite.Completion.Nearby
import QuerySuite.Proofs.Attachment
import QuerySuite.Proofs.Coherence
import QuerySuite.Proofs.DeepestSite
import QuerySuite.Proofs.Places
import QuerySuite.Proofs.Placeholders
import QuerySuite.Proofs.RegionCompletion

/-!
# What a completion tells fits together

A completion is told in one of three ways. In each of them its parts agree: a module is named only
for queries, and it is one that the document imports; a parameter has its sigil, and a field has
none; what is said of the surroundings is so somewhere in the tree. In a document without errors
only the tokens of a scope tell anything, and what is typed stands before the cursor.

Results:

* `Surroundings.FitsIn`: what may be said of the surroundings, and `Suite.sites_fit`,
  `Suite.fits_surroundings` for the two ways to find them.
* `completionOfSkipped_tells`, `completionAfter_tells`, `completionInScope_tells`: the three ways.
* `Document.completion_of_clean`: without errors only the tokens of a scope tell anything.
* `completion_fits_together`: completions of analysed documents.
-/

namespace QuerySuite

/-! ## Surroundings -/

/-- The surroundings are those of some part of the suite: assertions stand in tests, tests in
scopes, and scopes in the suite. -/
structure Surroundings.FitsIn (suite : Suite) (w : Surroundings) : Prop where
  inTest : w.inAssert = true → w.inTest = true
  inScope : w.inTest = true → w.scope.isSome = true
  scope : ∀ query, w.scope = some query → ∃ s ∈ suite.scopes, s.query = query

namespace Surroundings.FitsIn

variable {suite : Suite} {w : Surroundings}

theorem outside (suite : Suite) : ({} : Surroundings).FitsIn suite := by
  constructor <;> simp

theorem setup (h : w.FitsIn suite) : w.setup.FitsIn suite := ⟨h.inTest, h.inScope, h.scope⟩

theorem setupIf (h : w.FitsIn suite) (inside : Bool) : (w.setupIf inside).FitsIn suite := by
  unfold Surroundings.setupIf
  split_ifs
  · exact h.setup
  · exact h

theorem within (h : w.FitsIn suite) {s : Scope} (hs : s ∈ suite.scopes) :
    (w.within s.query).FitsIn suite :=
  ⟨h.inTest, fun _ => rfl, fun _ hquery => ⟨s, hs, Option.some.inj hquery⟩⟩

theorem test (h : w.FitsIn suite) (hscope : w.scope.isSome = true) : w.test.FitsIn suite :=
  ⟨fun _ => rfl, fun _ => hscope, h.scope⟩

theorem assertion (h : w.FitsIn suite) (htest : w.inTest = true) : w.assertion.FitsIn suite :=
  ⟨fun _ => htest, h.inScope, h.scope⟩

end Surroundings.FitsIn

theorem Surroundings.scope_setupIf (w : Surroundings) (inside : Bool) :
    (w.setupIf inside).scope = w.scope := by
  unfold setupIf
  split_ifs <;> rfl

/-! ## Surroundings of nodes -/

/-- The surroundings of every site fit. -/
def SitesFit (suite : Suite) (sites : List Site) : Prop := ∀ s ∈ sites, s.surroundings.FitsIn suite

section Sites

variable {suite : Suite} {w : Surroundings}

theorem SitesFit.nil : SitesFit suite [] := List.forall_mem_nil _

theorem SitesFit.cons {s : Site} {sites : List Site} (hs : s.surroundings.FitsIn suite)
    (h : SitesFit suite sites) : SitesFit suite (s :: sites) := List.forall_mem_cons.2 ⟨hs, h⟩

theorem SitesFit.append {sites more : List Site} (h : SitesFit suite sites)
    (h' : SitesFit suite more) : SitesFit suite (sites ++ more) := List.forall_mem_append.2 ⟨h, h'⟩

theorem SitesFit.flatMap {α : Type} {l : List α} {f : α → List Site}
    (h : ∀ a ∈ l, SitesFit suite (f a)) : SitesFit suite (l.flatMap f) := by
  intro s hs
  obtain ⟨a, ha, hs⟩ := List.mem_flatMap.1 hs
  exact h a ha s hs

theorem SitesFit.map {α : Type} {l : List α} {f : α → Site}
    (h : ∀ a ∈ l, (f a).surroundings.FitsIn suite) : SitesFit suite (l.map f) :=
  List.forall_mem_map.2 h

theorem SetupItem.sites_fit (hw : w.FitsIn suite) (i : SetupItem) : SitesFit suite (i.sites w) := by
  refine .cons hw ?_
  split
  · exact .cons hw .nil
  · exact .nil

theorem Setup.sites_fit (hw : w.FitsIn suite) (s : Setup) : SitesFit suite (s.sites w) := by
  refine .cons hw.setup ?_
  split
  · exact .cons hw.setup .nil
  · exact .flatMap fun i _ => i.sites_fit hw.setup
  · exact .nil

theorem Setup.sites?_fit (hw : w.FitsIn suite) (s : Option Setup) :
    SitesFit suite (sites? w s) := by
  cases s with
  | none => exact .nil
  | some s => exact s.sites_fit hw

theorem Teardown.sites?_fit (hw : w.FitsIn suite) (t : Option Teardown) :
    SitesFit suite (sites? w t) := by
  cases t with
  | none => exact .nil
  | some t => exact .cons hw .nil

theorem Assertion.sites_fit (hw : w.FitsIn suite) (htest : w.inTest = true) (a : Assertion) :
    SitesFit suite (a.sites w) := by
  have ha := hw.assertion htest
  refine .cons ha ?_
  split
  · exact .cons ha .nil
  · exact .nil

theorem Test.sites_fit (hw : w.FitsIn suite) (hscope : w.scope.isSome = true) (t : Test) :
    SitesFit suite (t.sites w) := by
  have ht := hw.test hscope
  refine .cons ht (.append (.append (Setup.sites?_fit ht t.setup) ?_) ?_)
  · exact .map fun _ _ => ht
  · exact .flatMap fun a _ => a.sites_fit ht rfl

mutual

theorem Item.sites_fit (hw : w.FitsIn suite) (hscope : w.scope.isSome = true) (i : Item) :
    SitesFit suite (i.sites w) := by
  cases i with
  | test t =>
    rw [sites]
    exact t.sites_fit hw hscope
  | group g items =>
    rw [sites]
    exact .cons hw (.append (.append (Setup.sites?_fit hw g.setup)
      (Teardown.sites?_fit hw g.teardown)) (Item.sitesOfList_fit hw hscope items))

theorem Item.sitesOfList_fit (hw : w.FitsIn suite) (hscope : w.scope.isSome = true)
    (items : List Item) : SitesFit suite (sitesOfList w items) := by
  cases items with
  | nil =>
    rw [sitesOfList]
    exact .nil
  | cons i items =>
    rw [sitesOfList]
    exact .append (Item.sites_fit hw hscope i) (Item.sitesOfList_fit hw hscope items)

end

/-- What is said of the surroundings of a node is so in the suite. -/
theorem Suite.sites_fit (suite : Suite) : SitesFit suite suite.sites := by
  have hw := Surroundings.FitsIn.outside suite
  refine .cons hw (.append (.append (.append (.append (.map fun _ _ => hw) (.map fun _ _ => hw))
    (Setup.sites?_fit hw suite.setup)) (Teardown.sites?_fit hw suite.teardown)) ?_)
  refine .flatMap fun s hs => ?_
  have hs := hw.within hs
  exact .cons hs (.append (.append (Setup.sites?_fit hs s.setup)
    (Teardown.sites?_fit hs s.teardown)) (Item.sitesOfList_fit hs rfl s.items))

end Sites

/-! ## Surroundings of places -/

section Places

variable {suite : Suite} (p : Position)

theorem Test.fits_surroundings {w : Surroundings} (hw : w.FitsIn suite)
    (hscope : w.scope.isSome = true) (t : Test) :
    (t.surroundings p w).FitsIn suite ∧ (t.surroundings p w).scope = w.scope := by
  have ht := (hw.test hscope).setupIf (Setup.holds? t.setup p)
  have hkept := w.test.scope_setupIf (Setup.holds? t.setup p)
  have htest : (w.test.setupIf (Setup.holds? t.setup p)).inTest = true := by
    unfold Surroundings.setupIf
    split_ifs <;> rfl
  unfold surroundings
  dsimp only
  split_ifs
  · exact ⟨ht.assertion htest, hkept⟩
  · exact ⟨ht, hkept⟩

mutual

theorem Item.fits_surroundings {w : Surroundings} (hw : w.FitsIn suite)
    (hscope : w.scope.isSome = true) (i : Item) :
    (i.surroundings p w).FitsIn suite ∧ (i.surroundings p w).scope = w.scope := by
  cases i with
  | test t =>
    rw [surroundings]
    exact t.fits_surroundings p hw hscope
  | group g items =>
    rw [surroundings, ← w.scope_setupIf (Setup.holds? g.setup p)]
    refine Item.fits_surroundingsOfList (hw.setupIf _) ?_ items
    rw [w.scope_setupIf]
    exact hscope

theorem Item.fits_surroundingsOfList {w : Surroundings} (hw : w.FitsIn suite)
    (hscope : w.scope.isSome = true) (items : List Item) :
    (surroundingsOfList p w items).FitsIn suite ∧
      (surroundingsOfList p w items).scope = w.scope := by
  cases items with
  | nil =>
    rw [surroundingsOfList]
    exact ⟨hw, rfl⟩
  | cons i items =>
    rw [surroundingsOfList]
    split_ifs
    · exact Item.fits_surroundings hw hscope i
    · exact Item.fits_surroundingsOfList hw hscope items

end

/-- What is said of the surroundings of a place is so in the suite. Where a scope is named, the
place is in it. -/
theorem Suite.fits_surroundings (suite : Suite) :
    (suite.surroundings p).FitsIn suite ∧
      ∀ query, (suite.surroundings p).scope = some query →
        ∃ s ∈ suite.scopes, s.query = query ∧ s.span.contains p = true := by
  have hw := (Surroundings.FitsIn.outside suite).setupIf (Setup.holds? suite.setup p)
  have hnone : (({} : Surroundings).setupIf (Setup.holds? suite.setup p)).scope = none :=
    Surroundings.scope_setupIf {} _
  unfold surroundings
  dsimp only
  cases hfind : suite.scopes.find? (·.span.contains p) with
  | none =>
    refine ⟨hw, fun query hquery => ?_⟩
    rw [hnone] at hquery
    cases hquery
  | some s =>
    have hs := List.mem_of_find?_eq_some hfind
    have hin := (hw.within hs).setupIf (Setup.holds? s.setup p)
    have hscope : ((({} : Surroundings).setupIf (Setup.holds? suite.setup p)).within
        s.query |>.setupIf (Setup.holds? s.setup p)).scope = some s.query :=
      Surroundings.scope_setupIf _ _
    obtain ⟨hfits, hkept⟩ := Item.fits_surroundingsOfList p hin (by rw [hscope]; rfl) s.items
    have hcontains : s.span.contains p = true := by
      simpa using List.find?_some hfind
    refine ⟨hfits, fun query hquery => ⟨s, hs, ?_, hcontains⟩⟩
    rw [hkept, hscope] at hquery
    exact Option.some.inj hquery

end Places

/-! ## What is told -/

/-- What a completion with these surroundings tells fits its kind. -/
structure Completion.Tells (symbols : SymbolTable) (w : Surroundings) (c : Completion) : Prop where
  surroundings : c.toSurroundings = w
  moduleName : ∀ name, c.moduleName = some name →
    c.kind = .function ∧ name ∈ symbols.importNames
  parameter : c.kind = .parameter → c.typed.toList.head? = some '$'
  returnField : c.kind = .returnField → w.inTest = true ∧ c.typed.toList.head? ≠ some '$'

theorem SymbolTable.mem_importNames {t : SymbolTable} {name : String} (h : t.isImport name = true) :
    name ∈ t.importNames := by
  obtain ⟨s, hs⟩ := Option.isSome_iff_exists.1 h
  have hname : s.name = name := by simpa using List.find?_some hs
  exact List.mem_map.2 ⟨s, List.mem_of_find?_eq_some hs, hname⟩

namespace Completion.Tells

variable {symbols : SymbolTable} {w : Surroundings} {typed : String}

/-- A kind that needs nothing of what is typed. -/
theorem plain {kind : CompletionKind} (hparameter : kind ≠ .parameter)
    (hfield : kind ≠ .returnField) : (Completion.of kind typed w).Tells symbols w where
  surroundings := rfl
  moduleName _ h := by cases h
  parameter h := absurd h hparameter
  returnField h := absurd h hfield

theorem functionOf {name : String} (h : symbols.isImport name = true) :
    (Completion.functionOf name typed w).Tells symbols w where
  surroundings := rfl
  moduleName _ hname := ⟨rfl, Option.some.inj hname ▸ symbols.mem_importNames h⟩
  parameter h := by cases h
  returnField h := by cases h

theorem ofParameter (h : typed.toList.head? = some '$') :
    (Completion.of .parameter typed w).Tells symbols w where
  surroundings := rfl
  moduleName _ h := by cases h
  parameter _ := h
  returnField h := by cases h

theorem ofReturnField (htest : w.inTest = true) (h : typed.toList.head? ≠ some '$') :
    (Completion.of .returnField typed w).Tells symbols w where
  surroundings := rfl
  moduleName _ h := by cases h
  parameter h := by cases h
  returnField _ := ⟨htest, h⟩

end Completion.Tells

section Told

variable {symbols : SymbolTable} {w : Surroundings} {c : Completion}

theorem isImport_of_qualified? {tokens : List Token} {name typed : String}
    (h : qualified? symbols tokens = some (name, typed)) : symbols.isImport name = true := by
  fun_induction qualified? symbols tokens with
  | case1 => cases h
  | case2 t dot after found =>
    cases h
    simp only [Bool.and_eq_true] at found
    exact found.2
  | case3 t dot after _ ih => exact ih h
  | case4 => cases h

theorem completionOfNothing_tells {kind : NodeKind} (h : completionOfNothing kind w = some c) :
    c.Tells symbols w := by
  unfold completionOfNothing at h
  split_ifs at h with _ htest
  · cases h
    exact .plain (by simp) (by simp)
  · cases h
    exact .ofReturnField htest (by simp)
  · cases h
    exact .plain (by simp) (by simp)

/-- What skipped tokens tell. A field is told only where none of them is a parameter. -/
theorem completionOfSkipped_tells {kind : NodeKind} {tokens : List Token}
    (h : completionOfSkipped symbols kind w tokens = some c) : c.Tells symbols w := by
  cases tokens with
  | nil => exact completionOfNothing_tells h
  | cons first rest =>
    unfold completionOfSkipped at h
    dsimp only at h
    split at h
    · next name typed hqualified =>
      cases h
      exact .functionOf (isImport_of_qualified? hqualified)
    · split at h
      · cases h
        exact .plain (by simp) (by simp)
      · split at h
        · next t hfind =>
          cases h
          have hsigil : t.isParameter = true := List.find?_some hfind
          exact .ofParameter (beq_iff_eq.1 hsigil)
        · next hnone =>
          split_ifs at h with hfield
          · cases h
            have hfirst := List.find?_eq_none.1 hnone first List.mem_cons_self
            refine .ofReturnField (Bool.and_eq_true_iff.1 hfield).1 fun hsigil => hfirst ?_
            exact beq_iff_eq.2 hsigil
          · cases h
            exact .plain (by simp) (by simp)

/-- What the token before the cursor tells beside an error. -/
theorem completionAfter_tells {previous : Token}
    (h : completionAfter symbols w previous = some c) : c.Tells symbols w := by
  unfold completionAfter at h
  split_ifs at h with _ _ _ himport
  · cases h
    exact .plain (by simp) (by simp)
  · cases h
    exact .plain (by simp) (by simp)
  · cases h
    exact .functionOf himport
  · cases h
    exact .plain (by simp) (by simp)

/-- What the tokens of a scope tell: the name of a module or one of its queries, of which nothing is
typed, or the token that ends at the cursor. -/
structure Completion.FromScope (symbols : SymbolTable) (w : Surroundings) (p : Position)
    (previous : Token) (c : Completion) : Prop extends c.Tells symbols w where
  kind : c.kind = .moduleName ∨ c.kind = .function
  errorAt : c.errorAt = none
  typed : c.typed = "" ∨ c.typed = previous.text ∧ previous.stop.compare p = .eq

variable {suite : Suite} {p : Position} {previous : Token}

theorem SymbolTable.isImport_of_isImportToken {t : Token} (h : symbols.isImportToken t = true) :
    symbols.isImport t.text = true := (Bool.and_eq_true_iff.1 h).2

theorem completionOfName_tells (hstop : previous.stop.compare p = .eq)
    (h : completionOfName suite symbols w previous = some c) :
    c.FromScope symbols w p previous := by
  simp only [completionOfName, Option.bind_eq_bind, Option.bind_eq_some_iff] at h
  obtain ⟨before, -, h⟩ := h
  split_ifs at h
  · cases h
    exact ⟨.plain (by simp) (by simp), .inl rfl, rfl, .inr ⟨rfl, hstop⟩⟩
  · obtain ⟨name, hname, h⟩ := Option.bind_eq_some_iff.1 h
    cases h
    have himport := (Option.filter_eq_some_iff.1 hname).2
    exact ⟨.functionOf (SymbolTable.isImport_of_isImportToken himport), .inr rfl, rfl,
      .inr ⟨rfl, hstop⟩⟩

/-- What the tokens before the cursor tell in a scope. -/
theorem completionInScope_tells (h : completionInScope suite symbols w p previous = some c) :
    c.FromScope symbols w p previous := by
  unfold completionInScope at h
  dsimp only at h
  split_ifs at h with _ _ himport hname
  · cases h
    exact ⟨.plain (by simp) (by simp), .inl rfl, rfl, .inl rfl⟩
  · obtain ⟨owner, howner, rfl⟩ := Option.map_eq_some_iff.1 h
    have himport := (Option.filter_eq_some_iff.1 howner).2
    exact ⟨.functionOf (SymbolTable.isImport_of_isImportToken himport), .inr rfl, rfl, .inl rfl⟩
  · cases h
    have himport := (Bool.and_eq_true_iff.1 himport).1
    exact ⟨.functionOf (SymbolTable.isImport_of_isImportToken himport), .inr rfl, rfl, .inl rfl⟩
  · exact completionOfName_tells (beq_iff_eq.1 (Bool.and_eq_true_iff.1 hname).1) h

end Told

/-! ## The token before the cursor -/

theorem Token.mem_of_foldl_later {tokens : List Token} {best : Option Token} {t : Token}
    (h : tokens.foldl later best = some t) : best = some t ∨ t ∈ tokens := by
  induction tokens generalizing best with
  | nil => exact .inl h
  | cons u tokens ih =>
    rcases ih h with h | h
    · unfold later at h
      split at h
      · cases h
        exact .inr List.mem_cons_self
      · split_ifs at h
        · exact .inl h
        · cases h
          exact .inr List.mem_cons_self
    · exact .inr (List.mem_cons_of_mem u h)

/-- The token before a place is a significant token of the suite that ends there or before. -/
theorem Suite.of_previousToken {suite : Suite} {p : Position} {t : Token}
    (h : suite.previousToken p = some t) :
    t ∈ suite.tokens ∧ t.isTrivia = false ∧ t.kind ≠ .eof ∧ t.stop.AtOrBefore p := by
  have hmem := (Token.mem_of_foldl_later h).resolve_left (by simp)
  obtain ⟨hvisible, hstop⟩ := List.mem_filter.1 hmem
  obtain ⟨htokens, hvisible⟩ := List.mem_filter.1 hvisible
  simp only [Token.isVisible, Bool.and_eq_true, Bool.not_eq_true', bne_iff_ne] at hvisible
  refine ⟨htokens, hvisible.1.1, hvisible.1.2, ?_⟩
  rw [Bool.not_eq_true', ← Bool.not_eq_true, Position.isAfter_iff] at hstop
  unfold Position.AtOrBefore
  omega

/-- A token that ends where a text at the front of the document does is the end of that text. -/
theorem Token.isSuffix_of_stop {source before after : String} {t : Token} (ht : t ∈ scan source)
    (hsource : source = before ++ after)
    (hstop : t.stop.compare (Position.start.advance before.toList) = .eq) :
    t.text.toList <:+ before.toList := by
  obtain ⟨tokens, more, hscan⟩ := List.append_of_mem ht
  have hend : t.stop = Position.start.advance (textsOf tokens ++ t.text.toList) := by
    rw [Position.advance_append, stop, (start_stop_of_scan hscan).1]
  have htext : textsOf tokens ++ t.text.toList <+: source.toList := by
    rw [← textsOf_scan source, hscan, textsOf_append, textsOf_cons, ← List.append_assoc]
    exact List.prefix_append _ _
  have hbefore : before.toList <+: source.toList := by
    rw [hsource, String.toList_append]
    exact List.prefix_append _ _
  -- The two texts end at one line and column, so they are the same.
  rw [hend, Position.compare, Ordering.then_eq_eq, Nat.compare_eq_eq, Nat.compare_eq_eq] at hstop
  have hle := Position.isPrefix_of_atOrBefore htext hbefore
    (.inr ⟨hstop.1, Nat.le_of_eq hstop.2⟩)
  have hge := Position.isPrefix_of_atOrBefore hbefore htext
    (.inr ⟨hstop.1.symm, Nat.le_of_eq hstop.2.symm⟩)
  rw [← List.IsPrefix.eq_of_length hle (Nat.le_antisymm hle.length_le hge.length_le)]
  exact List.suffix_append _ _

/-! ## Completions of documents -/

/-- The parts of what is told at the place `p` of a document with this tree agree. -/
structure Completion.WellFormed (symbols : SymbolTable) (suite : Suite) (p : Position)
    (c : Completion) : Prop where
  moduleName : ∀ name, c.moduleName = some name →
    c.kind = .function ∧ name ∈ symbols.importNames
  parameter : c.kind = .parameter → c.typed.toList.head? = some '$'
  returnField : c.kind = .returnField → c.inTest = true ∧ c.typed.toList.head? ≠ some '$'
  inTest : c.inAssert = true → c.inTest = true
  scope : c.inTest = true → ∃ s ∈ suite.scopes, c.scope = some s.query
  previous : ∀ t, c.previous = some t →
    t ∈ suite.tokens ∧ t.isTrivia = false ∧ t.kind ≠ .eof ∧ t.stop.AtOrBefore p

/-- What is told at the place `p` of a document without errors: the place is in the scope that is
named, a module or one of its queries is typed, and what is typed of it stands before the place. -/
structure Completion.Plain (source : String) (suite : Suite) (p : Position) (c : Completion) :
    Prop where
  scope : ∃ s ∈ suite.scopes, c.scope = some s.query ∧ s.span.contains p = true
  kind : c.kind = .moduleName ∨ c.kind = .function
  errorAt : c.errorAt = none
  typed : ∀ before after : String, source = before ++ after →
    p.compare (Position.start.advance before.toList) = .eq → c.typed.toList <:+ before.toList

theorem Completion.Tells.wellFormed {symbols : SymbolTable} {suite : Suite} {w : Surroundings}
    {p : Position} {c : Completion} (h : c.Tells symbols w) (hw : w.FitsIn suite)
    (errorAt : Option Position) {previous : Option Token}
    (hprevious : ∀ t, previous = some t → suite.previousToken p = some t) :
    ({ c with errorAt, previous } : Completion).WellFormed symbols suite p := by
  obtain ⟨rfl, hmodule, hparameter, hfield⟩ := h
  refine ⟨hmodule, hparameter, hfield, hw.inTest, fun htest => ?_,
    fun t ht => Suite.of_previousToken (hprevious t ht)⟩
  obtain ⟨query, hquery⟩ := Option.isSome_iff_exists.1 (hw.inScope htest)
  obtain ⟨s, hs, rfl⟩ := hw.scope query hquery
  exact ⟨s, hs, hquery⟩

namespace Document

variable {d : Document} {suite : Suite} {p : Position} {c : Completion}

theorem completionRecovered_wellFormed (hsuite : d.recoveredSuite = some suite)
    (h : d.completionRecovered p = some c) : c.WellFormed d.symbols suite p := by
  simp only [completionRecovered, hsuite, Option.bind_eq_bind, Option.bind_some,
    Option.bind_eq_some_iff] at h
  obtain ⟨⟨site, region, part⟩, hsite, c', hc', h⟩ := h
  cases h
  exact (completionOfSkipped_tells hc').wellFormed (suite.sites_fit site (siteAt_mem hsite)) _
    fun _ => id

theorem completionNearError_wellFormed (hsuite : d.recoveredSuite = some suite)
    (h : d.completionNearError p = some c) : c.WellFormed d.symbols suite p := by
  simp only [completionNearError, hsuite, Option.bind_eq_bind, Option.bind_some,
    Option.bind_eq_some_iff] at h
  obtain ⟨error, -, h⟩ := h
  split_ifs at h
  simp only [Option.bind_eq_some_iff] at h
  obtain ⟨previous, hprevious, c', hc', h⟩ := h
  cases h
  refine (completionAfter_tells hc').wellFormed (suite.fits_surroundings p).1 _ fun t ht => ?_
  rw [hprevious, ht]

/-- What the tokens of a scope tell at a place of a document. -/
theorem completionAmbient_cases (hsuite : d.bestSuite = some suite)
    (h : d.completionAmbient p = some c) :
    (suite.surroundings p).scope.isSome = true ∧
      ∃ (previous : Token) (c' : Completion), suite.previousToken p = some previous ∧
        c'.FromScope d.symbols (suite.surroundings p) p previous ∧
        c = { c' with previous := some previous } := by
  simp only [completionAmbient, hsuite, Option.bind_eq_bind, Option.bind_some] at h
  split_ifs at h with hscope
  simp only [Option.bind_eq_some_iff, Option.some.injEq] at h
  obtain ⟨previous, hprevious, c', hc', rfl⟩ := h
  exact ⟨hscope, previous, c', hprevious, completionInScope_tells hc', rfl⟩

theorem completionAmbient_wellFormed (hsuite : d.bestSuite = some suite)
    (h : d.completionAmbient p = some c) : c.WellFormed d.symbols suite p := by
  obtain ⟨-, previous, c', hprevious, hc', rfl⟩ := completionAmbient_cases hsuite h
  refine hc'.toTells.wellFormed (suite.fits_surroundings p).1 _ fun t ht => ?_
  rw [hprevious, ht]

theorem completionAmbient_plain {source : String} (hsuite : d.bestSuite = some suite)
    (htokens : suite.tokens = Token.scan source) (h : d.completionAmbient p = some c) :
    c.Plain source suite p := by
  obtain ⟨hscope, previous, c', hprevious, hc', rfl⟩ := completionAmbient_cases hsuite h
  refine ⟨?_, hc'.kind, hc'.errorAt, fun before after hsource hp => ?_⟩
  · obtain ⟨query, hquery⟩ := Option.isSome_iff_exists.1 hscope
    obtain ⟨s, hs, rfl, hcontains⟩ := (suite.fits_surroundings p).2 query hquery
    refine ⟨s, hs, ?_, hcontains⟩
    rw [← hquery, ← hc'.surroundings]
  · rcases hc'.typed with htyped | ⟨htyped, hstop⟩
    · simp [htyped]
    · have hmem := (Suite.of_previousToken hprevious).1
      rw [htokens] at hmem
      have hlevel : previous.stop.compare (Position.start.advance before.toList) = .eq := by
        simp only [Position.compare, Ordering.then_eq_eq, Nat.compare_eq_eq] at hp hstop ⊢
        exact ⟨hstop.1.trans hp.1, hstop.2.trans hp.2⟩
      rw [htyped]
      exact Token.isSuffix_of_stop hmem hsource hlevel

/-- Without a tree nothing is told. -/
theorem completion_eq_none (hbest : d.bestSuite = none) (hrecovered : d.recoveredSuite = none)
    (p : Position) : d.completion p = none := by
  have hnear : d.completionNearError p = none := by
    unfold completionNearError
    cases d.recoveryError <|> d.parseError <;> simp [hrecovered]
  simp [completion, completionRecovered, completionAmbient, hbest, hrecovered, hnear]

/-- Where there is one tree, what is told agrees with it, whichever way it is told. -/
theorem completion_wellFormed (hbest : d.bestSuite = some suite)
    (hrecovered : d.recoveredSuite = some suite) (h : d.completion p = some c) :
    c.WellFormed d.symbols suite p := by
  rcases (Option.orElse_eq_some _ _ _).1 h with h | ⟨-, h⟩
  · exact completionRecovered_wellFormed hrecovered h
  · rcases (Option.orElse_eq_some _ _ _).1 h with h | ⟨-, h⟩
    · exact completionNearError_wellFormed hrecovered h
    · exact completionAmbient_wellFormed hbest h

/-- In a document without errors only the tokens of a scope tell anything. -/
theorem completion_of_clean (hsuite : d.recoveredSuite = some suite)
    (hclean : ∀ n ∈ suite.nodes, n.info.recovery = .clean)
    (herror : (d.recoveryError <|> d.parseError) = none) (p : Position) :
    d.completion p = d.completionAmbient p := by
  have hsite : siteAt p suite.sites = none := by
    rw [suite.siteAt_eq_none_iff p fun n hn _ => hclean n hn]
    intro n hn
    rw [hclean n hn]
    rfl
  have hrecovered : d.completionRecovered p = none := by
    simp [completionRecovered, hsuite, hsite]
  have hnear : d.completionNearError p = none := by
    simp [completionNearError, herror]
  unfold completion
  rw [hrecovered, hnear]
  rfl

end Document

/-! ## Analysed documents -/

/-- A tree holds the tokens of the document. -/
theorem Parsed.tokens_of_suite {mode : Grammar.Mode} {source : String} {suite : Suite}
    (h : (parse mode source).suite = some suite) : suite.tokens = Token.scan source := by
  obtain ⟨met, hrun, -⟩ := Grammar.exists_parse_recovery h
  obtain ⟨suite', u, skips, hrun', htokens, -⟩ := Grammar.parse_source source
  rw [hrun] at hrun'
  injection hrun' with hsuite
  rw [hsuite]
  exact htokens

/-- A tree with comments holds the tokens of the document. -/
theorem Parsed.tokens_of_attached {mode : Grammar.Mode} {source : String} {suite : Suite}
    (h : (parse mode source).attached = some suite) : suite.tokens = Token.scan source := by
  obtain ⟨bare, hbare, rfl⟩ := Option.map_eq_some_iff.1 h
  have htokens : bare.tokens = Token.scan source := Parsed.tokens_of_suite hbare
  exact htokens

/-- Nothing is recorded in the tree of a document that was read strictly. -/
theorem Parsed.clean_of_attached {source : String} {suite : Suite}
    (h : (parse .strict source).attached = some suite) :
    ∀ n ∈ suite.nodes, n.info.recovery = .clean := by
  obtain ⟨bare, hbare, rfl⟩ := Option.map_eq_some_iff.1 h
  intro n hn
  have hmem := List.mem_map_of_mem (f := Node.relabel .bare) hn
  rw [nodes_attachComments (parse_bare hbare), ← bare.map_node_elements] at hmem
  obtain ⟨e, he, hnode⟩ := List.mem_map.1 hmem
  have hrecovery : e.recovery = n.info.recovery := congrArg (·.info.recovery) hnode
  rw [← hrecovery]
  exact recovery_eq_clean_of_strict hbare he

/-- A document that was read strictly has no errors. -/
theorem Parsed.isClean_of_attached {source : String} {suite : Suite}
    (h : (parse .strict source).attached = some suite) : (parse .strict source).isClean = true := by
  obtain ⟨bare, hbare, -⟩ := Option.map_eq_some_iff.1 h
  rcases parse_strict_cases source with ⟨-, -, herror⟩ | ⟨-, -, -, hnone, -⟩
  · simp [isClean, hbare, herror]
  · rw [hnone] at hbare
    cases hbare

namespace Analyzer

variable {σ : Type} (a : Analyzer σ)

/-- There is at most one tree in an analysed document, with comments. -/
theorem exists_attached {path : Option String} {source : String} {s : σ} {d : Document}
    (hd : ((a.analyze path source).run s).1 = d) :
    d.bestSuite = d.recoveredSuite ∧ ∀ suite, d.recoveredSuite = some suite →
      ∃ mode, (parse mode source).attached = some suite := by
  obtain ⟨symbols, hrun⟩ := a.analyze_eq path source s
  rw [hrun] at hd
  subst hd
  unfold Document.bestSuite Document.recoveredSuite
  cases hstrict : (parse .strict source).attached with
  | some suite => exact ⟨rfl, fun _ h => ⟨.strict, hstrict.trans h⟩⟩
  | none =>
    by_cases hconfig : a.config.recovery = true
    · rw [a.recover_of_recovery hconfig]
      cases hrecovery : (parse .recovery source).attached with
      | none => exact ⟨rfl, fun _ h => by cases h⟩
      | some suite => exact ⟨rfl, fun _ h => ⟨.recovery, hrecovery.trans h⟩⟩
    · rw [a.recover_of_not_recovery (by simpa using hconfig)]
      exact ⟨rfl, fun _ h => by cases h⟩

/-- A document that is read without errors: its tree, and what tells of its places. -/
theorem completion_of_isClean {path : Option String} {source : String} {s : σ} {d : Document}
    (hd : ((a.analyze path source).run s).1 = d) (hclean : (parse .strict source).isClean = true) :
    d.suite = (parse .strict source).attached ∧
      ∀ p, d.completion p = d.completionAmbient p := by
  obtain ⟨hsuite, herror⟩ := Bool.and_eq_true_iff.1 hclean
  obtain ⟨bare, hbare⟩ := Option.isSome_iff_exists.1 hsuite
  obtain ⟨suite, hattached⟩ : ∃ suite, (parse .strict source).attached = some suite := by
    rw [Parsed.attached, hbare]
    exact ⟨_, rfl⟩
  obtain ⟨symbols, hrun⟩ := a.analyze_eq path source s
  rw [Option.isNone_iff_eq_none.1 herror, hattached, a.recover_of_some] at hrun
  rw [hrun] at hd
  subst hd
  exact ⟨hattached.symm, Document.completion_of_clean rfl (Parsed.clean_of_attached hattached) rfl⟩

end Analyzer

/-- The parts of every completion agree, whatever the document, the configuration, the resolver and
the place are. In a document that is read without errors, moreover, the place is in the scope that
is named, a module or one of its queries is typed, no error is told of, and what is typed stands
right before the place. -/
theorem completion_fits_together {σ : Type} (a : Analyzer σ) (path : Option String)
    (source : String) (s : σ) (d : Document) (hd : ((a.analyze path source).run s).1 = d)
    (p : Position) (c : Completion) (h : d.completion p = some c) :
    ∃ suite, d.bestSuite = some suite ∧ d.recoveredSuite = some suite ∧
      suite.tokens = Token.scan source ∧ c.WellFormed d.symbols suite p ∧
      ((parse .strict source).isClean = true → c.Plain source suite p) := by
  obtain ⟨hsame, hattached⟩ := a.exists_attached hd
  cases hsuite : d.recoveredSuite with
  | none =>
    rw [Document.completion_eq_none (hsame.trans hsuite) hsuite] at h
    cases h
  | some suite =>
    have hbest := hsame.trans hsuite
    obtain ⟨mode, hmode⟩ := hattached suite hsuite
    have htokens := Parsed.tokens_of_attached hmode
    refine ⟨suite, hbest, rfl, htokens, Document.completion_wellFormed hbest hsuite h, ?_⟩
    intro hclean
    rw [(a.completion_of_isClean hd hclean).2] at h
    exact Document.completionAmbient_plain hbest htokens h

/-- A document without errors. -/
def moduleSetup : Document :=
  ((({} : Analyzer Unit).analyze none "Q \x7b setup m \x7d").run ()).1

/-- What is found at the end of the name `m` of `moduleSetup`, and before it. -/
theorem exists_suite_moduleSetup : ∃ suite,
    (parse .strict "Q \x7b setup m \x7d").attached = some suite ∧
      suite.surroundings (.ofLineColumn 1 12) = { inSetup := true, scope := some "Q" } ∧
      suite.previousToken (.ofLineColumn 1 12) = some ⟨.ident, "m", ⟨1, 11, 10⟩⟩ ∧
      suite.previousToken ⟨1, 11, 10⟩ = some ⟨.keyword, "setup", ⟨1, 5, 4⟩⟩ ∧
      suite.tokenAt (.ofLineColumn 1 12) = none := by
  have hfound : (parse .strict "Q \x7b setup m \x7d").attached.map (fun suite =>
      (suite.surroundings (.ofLineColumn 1 12), suite.previousToken (.ofLineColumn 1 12),
        suite.previousToken ⟨1, 11, 10⟩, suite.tokenAt (.ofLineColumn 1 12))) =
      some ({ inSetup := true, scope := some "Q" }, some ⟨.ident, "m", ⟨1, 11, 10⟩⟩,
        some ⟨.keyword, "setup", ⟨1, 5, 4⟩⟩, none) := by cbv
  obtain ⟨suite, hsuite, hfound⟩ := Option.map_eq_some_iff.1 hfound
  simp only [Prod.mk.injEq] at hfound
  exact ⟨suite, hsuite, hfound⟩

/-- At the end of `m` the name of a module is typed, of which `m` stands there. -/
theorem completion_fits_together_setup : ∃ c suite,
    (parse .strict "Q \x7b setup m \x7d").isClean = true ∧
      moduleSetup.completion (.ofLineColumn 1 12) = some c ∧
      c.kind = .moduleName ∧ c.typed = "m" ∧ moduleSetup.bestSuite = some suite ∧
      c.WellFormed moduleSetup.symbols suite (.ofLineColumn 1 12) ∧
      c.Plain "Q \x7b setup m \x7d" suite (.ofLineColumn 1 12) := by
  obtain ⟨suite, hattached, hsurroundings, hprevious, hbefore, hnone⟩ := exists_suite_moduleSetup
  have hclean := Parsed.isClean_of_attached hattached
  have hd : ((({} : Analyzer Unit).analyze none "Q \x7b setup m \x7d").run ()).1 = moduleSetup :=
    rfl
  obtain ⟨hsuite, hambient⟩ := Analyzer.completion_of_isClean _ hd hclean
  have hbest : moduleSetup.bestSuite = some suite :=
    Document.bestSuite_eq_suite (hsuite.trans hattached)
  have hcompletion : moduleSetup.completion (.ofLineColumn 1 12) =
      some { kind := .moduleName, typed := "m", inSetup := true, scope := some "Q",
             previous := some ⟨.ident, "m", ⟨1, 11, 10⟩⟩ } := by
    have htold (symbols : SymbolTable) : completionInScope suite symbols
        { inSetup := true, scope := some "Q" } (.ofLineColumn 1 12) ⟨.ident, "m", ⟨1, 11, 10⟩⟩ =
          some (.of .moduleName "m" { inSetup := true, scope := some "Q" }) := by
      have hstop : (⟨.ident, "m", ⟨1, 11, 10⟩⟩ : Token).stop.compare (.ofLineColumn 1 12) = .eq ∧
          (⟨.ident, "m", ⟨1, 11, 10⟩⟩ : Token).isName = true := by decide
      simp [completionInScope, completionOfName, hnone, hbefore, hstop, Token.isKeyword]
    rw [hambient, Document.completionAmbient, hbest]
    simp [hprevious, htold, hsurroundings, Completion.of]
  obtain ⟨suite', hbest', -, -, hfits, hplain⟩ := completion_fits_together _ _ _ _ _ hd _ _
    hcompletion
  obtain rfl : suite' = suite := Option.some.inj (hbest'.symm.trans hbest)
  exact ⟨_, suite', hclean, hcompletion, rfl, rfl, hbest, hfits, hplain hclean⟩

end QuerySuite
