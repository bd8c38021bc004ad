import Mathlib
import QuerySuite.Completion.Nearby

/-!
# Completions and the regions of one record

Inside a recovered node, what is being typed is told from skipped tokens. When the cursor is in
the first region of a record, the tokens of the regions absorbed after it are looked at too; in any
other region its own tokens alone. So a stretch of text that was skipped elsewhere in a node can
change what is told at its first region, and only there.

Results:

* `Recovery.significant_of_partAt`: which tokens are looked at.
* `told_append_iff`: when the tokens that follow change nothing in what is told.
* `Document.completion_by_own_region_iff`: when the region at the cursor alone tells what is typed
  there.
* `Document.completion_beside_own_region`: a document where another region tells.
-/

namespace QuerySuite

/-! ## The tokens that are looked at -/

namespace Recovery

/-- The significant tokens of the regions after the first one. -/
def behindFirst : Recovery → List Token
  | clean => []
  | recovered _ absorbed => absorbed.flatMap (·.significant)

/-- A part of a record belongs to one of its regions; it is the whole record for the first region
and the region itself for any other. -/
theorem mem_parts {r part : Recovery} {region : Region} (h : (region, part) ∈ r.parts) :
    region ∈ r.regions ∧ (part = r ∧ r.significant = region.significant ++ r.behindFirst ∨
      part = ofRegion region) := by
  cases r with
  | clean => simp [parts] at h
  | recovered first absorbed =>
    rcases List.mem_cons.1 h with h | h
    · cases h
      exact ⟨List.mem_cons_self, .inl ⟨rfl, rfl⟩⟩
    · obtain ⟨other, mem, h⟩ := List.mem_map.1 h
      cases h
      exact ⟨List.mem_cons_of_mem _ mem, .inr rfl⟩

/-- The part that is found at a place is one of the record, and its region holds the place. -/
theorem mem_parts_of_partAt {r part : Recovery} {region : Region} {p : Position}
    (h : r.partAt p = some (region, part)) :
    (region, part) ∈ r.parts ∧ region.holds p = true := by
  unfold partAt at h
  dsimp only at h
  have hmem : (region, part) ∈ r.parts.filter (·.1.holds p) := by
    split at h
    · next found hfound =>
      cases h
      exact List.mem_reverse.1 (List.mem_of_find?_eq_some hfound)
    · exact List.mem_of_head? h
  exact List.mem_filter.1 hmem

/-- The tokens that are looked at are those of the region, and those of the regions absorbed after
it if it is the first one. -/
theorem significant_of_partAt {r part : Recovery} {region : Region} {p : Position}
    (h : r.partAt p = some (region, part)) :
    part.significant = region.significant ++ part.behindFirst := by
  rcases (mem_parts (mem_parts_of_partAt h).1).2 with ⟨rfl, hsig⟩ | rfl
  · exact hsig
  · simp [significant, behindFirst, ofRegion]

end Recovery

/-! ## What is told -/

/-- What a completion tells of the name that is typed: its kind, the part of it that stands there
and the module it is looked for in. -/
def Completion.told (c : Completion) : CompletionKind × String × Option String :=
  (c.kind, c.typed, c.moduleName)

/-- The first parameter among the tokens. -/
def firstParameter (tokens : List Token) : Option String :=
  (tokens.find? (·.isParameter)).map (·.text)

/-- The last word among the tokens. -/
def lastWord (tokens : List Token) : String :=
  ((tokens.reverse.find? (·.isIdentLike)).map (·.text)).getD ""

/-- What is told where the tokens show no telling shape: in a test a word at their front is a field,
and else the last word is a reserved word. -/
def tellWord (inTest : Bool) (first : Token) (word : String) :
    CompletionKind × String × Option String :=
  if inTest && first.kind == .ident then (.returnField, first.text, none)
  else (.keyword, word, none)

/-- What is told where no query of a module and no setup is typed: a parameter goes first. -/
def tellParameter (inTest : Bool) (first : Token) (parameter : Option String) (word : String) :
    CompletionKind × String × Option String :=
  parameter.elim (tellWord inTest first word) fun text => (.parameter, text, none)

/-- What is told where no query of a module is typed: the name after `setup` goes first. -/
def tellModule (inTest : Bool) (first : Token) (afterSetup parameter : Option String)
    (word : String) : CompletionKind × String × Option String :=
  afterSetup.elim (tellParameter inTest first parameter word) fun typed =>
    (.moduleName, typed, none)

/-- What is told from what the rules find, the most telling rule first. -/
def tell (inTest : Bool) (first : Token) (qualified : Option (String × String))
    (afterSetup parameter : Option String) (word : String) :
    CompletionKind × String × Option String :=
  qualified.elim (tellModule inTest first afterSetup parameter word) fun found =>
    (.function, found.2, some found.1)

theorem told_completionOfSkipped (symbols : SymbolTable) (kind : NodeKind) (w : Surroundings)
    (first : Token) (rest : List Token) :
    (completionOfSkipped symbols kind w (first :: rest)).map (·.told) =
      some (tell w.inTest first (qualified? symbols (first :: rest)) (afterSetup? (first :: rest))
        (firstParameter (first :: rest)) (lastWord (first :: rest))) := by
  unfold completionOfSkipped tell tellModule tellParameter tellWord firstParameter
  dsimp only
  cases qualified? symbols (first :: rest) with
  | some found => rfl
  | none =>
    cases afterSetup? (first :: rest) with
    | some typed => rfl
    | none =>
      cases (first :: rest).find? (·.isParameter) with
      | some t => rfl
      | none =>
        dsimp only [Option.map_none, Option.elim]
        split_ifs
        · rfl
        · rfl

/-! ## When the same is told -/

/-- A rule is known by the kind of what it tells. If no later rule tells that kind, it finds the
same wherever the same is told. -/
theorem elim_eq_elim_iff {α : Type} {k : CompletionKind} {g : α → String × Option String}
    {x x' : CompletionKind × String × Option String} (inj : g.Injective) (hx : x.1 ≠ k)
    (hx' : x'.1 ≠ k) (o o' : Option α) :
    (o'.elim x' fun a => (k, g a)) = (o.elim x fun a => (k, g a)) ↔
      o' = o ∧ (o = none → x' = x) := by
  have hne : ∀ a, (k, g a) ≠ x := fun a h => hx (h ▸ rfl)
  have hne' : ∀ a, x' ≠ (k, g a) := fun a h => hx' (h ▸ rfl)
  cases o with
  | none =>
    cases o' with
    | none => simp
    | some a => simp [hne a]
  | some b =>
    cases o' with
    | none => simp [hne' b]
    | some a => simp [inj.eq_iff]

section Tell

variable (inTest : Bool) (first : Token)

/-- The kinds that are told where no telling shape is shown. -/
theorem tellWord_kind (word : String) :
    (tellWord inTest first word).1 ∈ [CompletionKind.returnField, .keyword] := by
  unfold tellWord
  split_ifs
  · simp
  · simp

theorem tellParameter_kind (parameter : Option String) (word : String) :
    (tellParameter inTest first parameter word).1 ∈
      [CompletionKind.parameter, .returnField, .keyword] := by
  cases parameter with
  | none => exact List.mem_cons_of_mem _ (tellWord_kind inTest first word)
  | some text => exact List.mem_cons_self

theorem tellModule_kind (afterSetup parameter : Option String) (word : String) :
    (tellModule inTest first afterSetup parameter word).1 ∈
      [CompletionKind.moduleName, .parameter, .returnField, .keyword] := by
  cases afterSetup with
  | none => exact List.mem_cons_of_mem _ (tellParameter_kind inTest first parameter word)
  | some typed => exact List.mem_cons_self

theorem tellWord_eq_iff (word word' : String) :
    tellWord inTest first word' = tellWord inTest first word ↔
      (inTest = true ∧ first.kind = .ident) ∨ word' = word := by
  unfold tellWord
  by_cases h : inTest = true ∧ first.kind = .ident
  · simp [h]
  · have hif : (inTest && first.kind == .ident) = false := by
      simpa using h
    simp [hif, h]

/-- What is told pins down what each rule found, up to the first one that found something. -/
theorem tell_eq_iff (q q' : Option (String × String)) (s s' f f' : Option String)
    (word word' : String) :
    tell inTest first q' s' f' word' = tell inTest first q s f word ↔
      q' = q ∧ (q = none → s' = s ∧ (s = none → f' = f ∧ (f = none →
        (inTest = true ∧ first.kind = .ident) ∨ word' = word))) := by
  have hparameter : ∀ word, (tellWord inTest first word).1 ≠ .parameter := fun word =>
    ne_of_mem_of_not_mem (tellWord_kind inTest first word) (by decide)
  have hmodule : ∀ f word, (tellParameter inTest first f word).1 ≠ .moduleName := fun f word =>
    ne_of_mem_of_not_mem (tellParameter_kind inTest first f word) (by decide)
  have hfunction : ∀ s f word, (tellModule inTest first s f word).1 ≠ .function := fun s f word =>
    ne_of_mem_of_not_mem (tellModule_kind inTest first s f word) (by decide)
  unfold tell
  rw [elim_eq_elim_iff ?_ (hfunction s f word) (hfunction s' f' word')]
  · unfold tellModule
    rw [elim_eq_elim_iff ?_ (hmodule f word) (hmodule f' word')]
    · unfold tellParameter
      rw [elim_eq_elim_iff ?_ (hparameter word) (hparameter word'), tellWord_eq_iff]
      intro a b h
      simpa using h
    · intro a b h
      simpa using h
  · intro a b h
    simpa [Prod.ext_iff, and_comm] using h

end Tell

/-! ## Tokens that follow -/

/-- The tokens `later` change nothing in what the tokens `own` before them tell: every rule, up to
the first one that finds something in `own`, finds the same in both together. Where there are no
tokens of its own, those that follow must tell the same as none. -/
def Undisturbed (symbols : SymbolTable) (kind : NodeKind) (w : Surroundings) :
    (own later : List Token) → Prop
  | [], later =>
    later = [] ∨ completionOfNothing kind w = none ∨
      (completionOfSkipped symbols kind w later).map (·.told) =
        (completionOfNothing kind w).map (·.told)
  | first :: rest, later =>
    let own := first :: rest
    qualified? symbols (own ++ later) = qualified? symbols own ∧
      (qualified? symbols own = none →
        afterSetup? (own ++ later) = afterSetup? own ∧
          (afterSetup? own = none →
            firstParameter (own ++ later) = firstParameter own ∧
              (firstParameter own = none →
                (w.inTest = true ∧ first.kind = .ident) ∨ lastWord (own ++ later) = lastWord own)))

section Following

variable (symbols : SymbolTable) (kind : NodeKind) (w : Surroundings)

theorem undisturbed_nil (own : List Token) : Undisturbed symbols kind w own [] := by
  cases own with
  | nil => exact .inl rfl
  | cons first rest => simp [Undisturbed]

/-- Where the tokens tell something, they still do with more behind them. -/
theorem completionOfSkipped_append {own : List Token} {c : Completion}
    (h : completionOfSkipped symbols kind w own = some c) (later : List Token) :
    ∃ c', completionOfSkipped symbols kind w (own ++ later) = some c' := by
  cases hall : own ++ later with
  | nil =>
    obtain ⟨rfl, rfl⟩ := List.append_eq_nil_iff.1 hall
    exact ⟨c, h⟩
  | cons first rest =>
    have htold := told_completionOfSkipped symbols kind w first rest
    obtain ⟨c', hc', -⟩ := Option.map_eq_some_iff.1 htold
    exact ⟨c', hc'⟩

/-- Where there are no tokens, those that follow must tell the same as none. -/
theorem told_nil_append_iff (later : List Token) :
    (∀ c, completionOfNothing kind w = some c →
        (completionOfSkipped symbols kind w later).map (·.told) = some c.told) ↔
      Undisturbed symbols kind w [] later := by
  unfold Undisturbed
  cases hn : completionOfNothing kind w with
  | none => simp
  | some c =>
    have hnil : later = [] →
        (completionOfSkipped symbols kind w later).map (·.told) = some c.told := by
      rintro rfl
      rw [completionOfSkipped, hn, Option.map_some]
    constructor
    · intro h
      exact .inr (.inr (h c rfl))
    · rintro (h | h | h) c' hc
      · cases hc
        exact hnil h
      · cases h
      · cases hc
        exact h

/-- Where there are tokens, each rule must find the same in them as in all of them together. -/
theorem told_cons_append_iff (first : Token) (rest later : List Token) :
    (∀ c, completionOfSkipped symbols kind w (first :: rest) = some c →
        (completionOfSkipped symbols kind w (first :: (rest ++ later))).map (·.told) =
          some c.told) ↔
      Undisturbed symbols kind w (first :: rest) later := by
  have hown := told_completionOfSkipped symbols kind w first rest
  have hall := told_completionOfSkipped symbols kind w first (rest ++ later)
  obtain ⟨c, hc, hct⟩ := Option.map_eq_some_iff.1 hown
  have hsame : (∀ c, completionOfSkipped symbols kind w (first :: rest) = some c →
      (completionOfSkipped symbols kind w (first :: (rest ++ later))).map (·.told) =
        some c.told) ↔
      (completionOfSkipped symbols kind w (first :: (rest ++ later))).map (·.told) =
        some c.told := by
    rw [hc]
    simp
  rw [hsame, hall, hct, Option.some.injEq, tell_eq_iff]
  rfl

/-- The tokens that follow change nothing in what is told, in terms of what the rules find. -/
theorem told_append_iff (own later : List Token) :
    (∀ c, completionOfSkipped symbols kind w own = some c →
        (completionOfSkipped symbols kind w (own ++ later)).map (·.told) = some c.told) ↔
      Undisturbed symbols kind w own later := by
  cases own with
  | nil => exact told_nil_append_iff symbols kind w later
  | cons first rest => exact told_cons_append_iff symbols kind w first rest later

end Following

/-! ## The region at the cursor -/

theorem siteAt_partAt {p : Position} {sites : List Site} {site : Site} {part : Region × Recovery}
    (h : siteAt p sites = some (site, part)) : site.recovery.partAt p = some part := by
  obtain ⟨s, -, found⟩ := List.exists_of_findSome?_eq_some h
  obtain ⟨part', hpart, eq⟩ := Option.map_eq_some_iff.1 found
  cases eq
  exact hpart

namespace Document

variable {d : Document} {p : Position} {suite : Suite} {site : Site} {region : Region}
  {part : Recovery}

/-- What the tokens skipped at a place tell is what is told there. -/
theorem told_completion (hsuite : d.recoveredSuite = some suite)
    (hsite : siteAt p suite.sites = some (site, region, part)) {c : Completion}
    (hc : completionOfSkipped d.symbols site.kind site.surroundings part.significant = some c) :
    (d.completion p).map (·.told) = some c.told := by
  have hrec : d.completionRecovered p =
      some { c with errorAt := some region.start, previous := suite.previousToken p } := by
    simp [completionRecovered, hsuite, hsite, hc]
  unfold completion
  rw [hrec]
  rfl

/-- The region at the cursor alone tells what is typed there if and only if the tokens of the
regions that are looked at after it change nothing. Those are none for a region that is not the
first one of its record, and for the first one the tokens of all others. -/
theorem completion_by_own_region_iff (d : Document) (p : Position) (suite : Suite) (site : Site)
    (region : Region) (part : Recovery) (hsuite : d.recoveredSuite = some suite)
    (hsite : siteAt p suite.sites = some (site, region, part)) :
    site ∈ suite.sites ∧ region ∈ site.recovery.regions ∧ region.holds p = true ∧
      (part = site.recovery ∨ part.behindFirst = []) ∧
      ((∀ c, completionOfSkipped d.symbols site.kind site.surroundings region.significant = some c →
          (d.completion p).map (·.told) = some c.told) ↔
        Undisturbed d.symbols site.kind site.surroundings region.significant part.behindFirst) := by
  have hpart := siteAt_partAt hsite
  obtain ⟨hmem, hholds⟩ := Recovery.mem_parts_of_partAt hpart
  obtain ⟨hregion, hwhole⟩ := Recovery.mem_parts hmem
  have hsig := Recovery.significant_of_partAt hpart
  refine ⟨siteAt_mem hsite, hregion, hholds, ?_, ?_⟩
  · exact hwhole.imp And.left fun h => by rw [h]; rfl
  · rw [← told_append_iff, ← hsig]
    refine forall₂_congr fun c hc => ?_
    obtain ⟨c', hc'⟩ := completionOfSkipped_append _ _ _ hc part.behindFirst
    rw [← hsig] at hc'
    rw [told_completion hsuite hsite hc', hc', Option.map_some]

end Document

/-! ## A document with two regions in one record -/

theorem recoveredSuite_analyze {σ : Type} (a : Analyzer σ) (path : Option String) (source : String)
    (x : σ) (hrecovery : a.config.recovery = true) (hstrict : (parse .strict source).suite = none) :
    (a.analyze path source x).1.recoveredSuite = (parse .recovery source).attached := by
  show ((a.recover (parse .strict source).attached source).1 <|>
    (parse .strict source).attached) = _
  have hattached : (parse .strict source).attached = none := by
    unfold Parsed.attached
    rw [hstrict, Option.map_none]
  rw [hattached]
  simp [Analyzer.recover, hrecovery]

/-- Neither line of this document is a member of a suite, and the suite records both. -/
def skippedTwice : Document := (({} : Analyzer Unit).analyze none "; foo\nQ $bar" ()).1

/-- The region of the first line of `skippedTwice`. -/
def firstSkipped : Region where
  start := ⟨1, 1, 0⟩
  resumed := some ⟨2, 1, 6⟩
  skipped := [⟨.semicolon, ";", ⟨1, 1, 0⟩⟩, ⟨.whitespace, " ", ⟨1, 2, 1⟩⟩,
    ⟨.ident, "foo", ⟨1, 3, 2⟩⟩, ⟨.whitespace, "\n", ⟨1, 6, 5⟩⟩]

/-- The region of the second line of `skippedTwice`. -/
def secondSkipped : Region where
  start := ⟨2, 1, 6⟩
  resumed := none
  skipped := [⟨.ident, "Q", ⟨2, 1, 6⟩⟩, ⟨.whitespace, " ", ⟨2, 2, 7⟩⟩,
    ⟨.ident, "$bar", ⟨2, 3, 8⟩⟩]

theorem exists_suite_skippedTwice : ∃ suite, skippedTwice.recoveredSuite = some suite ∧
    suite.sites = [⟨.suite, .recovered firstSkipped [secondSkipped], {}⟩] := by
  have hsuite : skippedTwice.recoveredSuite = (parse .recovery "; foo\nQ $bar").attached :=
    recoveredSuite_analyze _ _ _ _ rfl (by cbv)
  rw [hsuite]
  apply Option.map_eq_some_iff.1
  cbv

namespace Document

/-- In the second region of `skippedTwice` its own tokens alone tell what is typed. -/
theorem completion_by_own_region_second : ∃ suite site part,
    skippedTwice.recoveredSuite = some suite ∧
    siteAt (.ofLineColumn 2 3) suite.sites = some (site, secondSkipped, part) ∧
    ∀ c, completionOfSkipped skippedTwice.symbols site.kind site.surroundings
        secondSkipped.significant = some c →
      (skippedTwice.completion (.ofLineColumn 2 3)).map (·.told) = some c.told := by
  obtain ⟨suite, hsuite, hsites⟩ := exists_suite_skippedTwice
  have hsite : siteAt (.ofLineColumn 2 3) suite.sites =
      some (⟨.suite, .recovered firstSkipped [secondSkipped], {}⟩, secondSkipped,
        .ofRegion secondSkipped) := by
    rw [hsites]
    decide
  refine ⟨suite, _, _, hsuite, hsite, ?_⟩
  have h := completion_by_own_region_iff skippedTwice (.ofLineColumn 2 3) suite _ _ _ hsuite hsite
  exact h.2.2.2.2.2 (undisturbed_nil _ _ _ _)

/-- In the first region of `skippedTwice` a parameter is typed, which is none of its own tokens:
they tell a reserved word. -/
theorem completion_beside_own_region : ∃ suite site part,
    skippedTwice.recoveredSuite = some suite ∧
    siteAt (.ofLineColumn 1 4) suite.sites = some (site, firstSkipped, part) ∧
    (completionOfSkipped skippedTwice.symbols site.kind site.surroundings
      firstSkipped.significant).map (·.told) = some (.keyword, "foo", none) ∧
    (skippedTwice.completion (.ofLineColumn 1 4)).map (·.told) =
      some (.parameter, "$bar", none) := by
  obtain ⟨suite, hsuite, hsites⟩ := exists_suite_skippedTwice
  have hsite : siteAt (.ofLineColumn 1 4) suite.sites =
      some (⟨.suite, .recovered firstSkipped [secondSkipped], {}⟩, firstSkipped,
        .recovered firstSkipped [secondSkipped]) := by
    rw [hsites]
    decide
  refine ⟨suite, _, _, hsuite, hsite, ?_, ?_⟩
  · generalize skippedTwice.symbols = symbols
    rfl
  · obtain ⟨c, hc, htold⟩ : ∃ c, completionOfSkipped skippedTwice.symbols .suite {}
        (Recovery.recovered firstSkipped [secondSkipped]).significant = some c ∧
        c.told = (.parameter, "$bar", none) := by
      generalize skippedTwice.symbols = symbols
      exact ⟨.of .parameter "$bar" {}, rfl, rfl⟩
    rw [told_completion hsuite hsite hc, htold]

end Document

end QuerySuite
