import QuerySuite.Document
import QuerySuite.Proofs.Appended

/-!
# What is known of a document fits together

An analysed document holds what two readings gave, one strict and one with recovery, beside what
validation found. A strict reading that fails leaves its error at the front of those that recovery
notes, and validation runs only where nothing failed. So the parts of the record never contradict
each other, whatever the document, the configuration and the resolver are.

Results:

* `parse_strict_cases`: the two readings of a document, side by side.
* `Analyzer.coherent_analyze`: the parts of an analysed document fit together.
-/

namespace QuerySuite

/-! ## The two readings -/

/-- Errors held as one are where the first of them is. -/
theorem ParseError.span_of_ofList {errors : List ParseError} {e first : ParseError}
    (h : ofList errors = some e) (hfirst : errors.head? = some first) : e.span = first.span := by
  match errors with
  | [] => cases h
  | [e₁] =>
    cases h
    cases hfirst
    rfl
  | e₁ :: e₂ :: more =>
    cases h
    cases hfirst
    rfl

theorem ParseError.exists_ofList {errors : List ParseError} (h : errors ≠ []) :
    ∃ e, ofList errors = some e := by
  match errors with
  | [] => exact absurd rfl h
  | [e] => exact ⟨e, rfl⟩
  | e₁ :: e₂ :: more => exact ⟨_, rfl⟩

/-- A document is read strictly without an error, or it fails with an error that has no parts. In
that case recovery gives a suite, and an error at the same place whose first part it is. -/
theorem parse_strict_cases (source : String) :
    (∃ suite, (parse .strict source).suite = some suite ∧ (parse .strict source).error = none) ∨
      ∃ e suite e', (parse .strict source).suite = none ∧ (parse .strict source).error = some e ∧
        (parse .recovery source).suite = some suite ∧
        (parse .recovery source).error = some e' ∧
        e.flatten = [e] ∧ e'.flatten.head? = some e ∧ e'.span = e.span := by
  obtain ⟨suite, met, hrun, hstrict⟩ := Grammar.parse_agree (Token.scan source)
  have hflat := Grammar.parse_recovery_flatten hrun
  unfold parse
  dsimp only
  rw [hrun]
  rcases hstrict with ⟨hs, rfl⟩ | ⟨e, hs, hfirst⟩
  · rw [hs]
    exact .inl ⟨suite, rfl, rfl⟩
  · have hmem : e ∈ met := List.mem_of_head? hfirst
    obtain ⟨e', he'⟩ := ParseError.exists_ofList (List.ne_nil_of_mem hmem)
    rw [hs]
    refine .inr ⟨e, suite, e', rfl, rfl, rfl, he', hflat e hmem, ?_, ?_⟩
    · rw [ParseError.flatten_of_ofList hflat he', hfirst]
    · exact ParseError.span_of_ofList he' hfirst

/-! ## Diagnostics -/

namespace Diagnostic

/-- Where an error has parts there is one diagnostic for each of them. -/
theorem ofParseError_of_flatten_ne_nil {e : ParseError} (h : e.flatten ≠ []) (source : String) :
    ofParseError source e = e.flatten.map fun part => ofError source part.span part := by
  unfold ofParseError
  split
  · next hnil => exact absurd hnil h
  · rfl

/-- The diagnostics of errors of reading are errors, and their code says what they are. -/
theorem of_mem_ofParseError {source : String} {e : ParseError} {d : Diagnostic}
    (h : d ∈ ofParseError source e) : d.code = parseErrorCode ∧ d.severity = .error := by
  unfold ofParseError at h
  split at h
  · obtain rfl := List.mem_singleton.1 h
    exact ⟨rfl, rfl⟩
  · obtain ⟨part, -, rfl⟩ := List.mem_map.1 h
    exact ⟨rfl, rfl⟩

end Diagnostic

theorem Problem.code_ne_parseErrorCode (p : Problem) : p.code ≠ Diagnostic.parseErrorCode := by
  cases p <;> simp [code, Diagnostic.parseErrorCode]

/-- Validation tells of no error of reading. -/
theorem Validator.code_ne_parseErrorCode {v : Validator} {source : String} {d : Diagnostic}
    (h : d ∈ v.diagnostics source) : d.code ≠ Diagnostic.parseErrorCode := by
  obtain ⟨f, -, rfl⟩ := List.mem_map.1 h
  exact f.problem.code_ne_parseErrorCode

/-! ## Analysed documents -/

/-- The parts of what is known of a document fit together. -/
structure Document.Coherent (config : Config) (d : Document) : Prop where
  suite : d.suite.isSome = true ↔ d.parseError = none
  recoverySuite : d.recoverySuite.isSome = true ↔ d.suite = none ∧ config.recovery = true
  recoveryError : d.recoveryError.isSome = true ↔ d.recoverySuite.isSome = true
  position : ∀ e e', d.parseError = some e → d.recoveryError = some e' → e'.position = e.position
  /-- The strict error alone would give one diagnostic, and that one comes first. -/
  first : ∀ e e', d.parseError = some e → d.recoveryError = some e' →
    ∃ x, Diagnostic.ofParseError config.sourceName e = [x] ∧ d.diagnostics.head? = some x
  /-- Each error of reading is told of once, in order. -/
  told : d.diagnostics.filter (·.code == Diagnostic.parseErrorCode) =
    ((d.recoveryError <|> d.parseError).elim [] (·.flatten)).map fun e =>
      Diagnostic.ofError config.sourceName e.span e
  hasErrors : d.hasErrors = true ↔ ∃ x ∈ d.diagnostics, x.severity = .error

namespace Document

variable {config : Config} {d : Document}

/-- A document that was read strictly: what is told of it is what validation found. -/
theorem Coherent.of_suite {suite : Suite} (hsuite : d.suite = some suite)
    (hparse : d.parseError = none) (hrecovery : d.recoverySuite = none)
    (hrecoveryError : d.recoveryError = none)
    (hcode : ∀ x ∈ d.diagnostics, x.code ≠ Diagnostic.parseErrorCode) : d.Coherent config where
  suite := by simp [hsuite, hparse]
  recoverySuite := by simp [hsuite, hrecovery]
  recoveryError := by simp [hrecovery, hrecoveryError]
  position := by simp [hparse]
  first := by simp [hparse]
  told := by simpa [hparse, hrecoveryError] using hcode
  hasErrors := by simp [Document.hasErrors, hparse, Diagnostic.isError]

/-- A document whose strict reading failed with `e`: what is told of it is the error that was kept,
which is `e` itself or has it as its first part. -/
theorem Coherent.of_parseError {e kept : ParseError} (hsuite : d.suite = none)
    (hparse : d.parseError = some e)
    (hrecovery : d.recoverySuite.isSome = true ↔ config.recovery = true)
    (hrecoveryError : d.recoveryError.isSome = true ↔ d.recoverySuite.isSome = true)
    (hkept : (d.recoveryError <|> d.parseError) = some kept)
    (hsingle : e.flatten = [e]) (hfirst : kept.flatten.head? = some e) (hspan : kept.span = e.span)
    (htold : d.diagnostics = Diagnostic.ofParseError config.sourceName kept) :
    d.Coherent config := by
  have hne : kept.flatten ≠ [] := List.ne_nil_of_mem (List.mem_of_head? hfirst)
  have hmap := Diagnostic.ofParseError_of_flatten_ne_nil hne config.sourceName
  have hall {x : Diagnostic} (hx : x ∈ d.diagnostics) :
      x.code = Diagnostic.parseErrorCode ∧ x.severity = .error := by
    rw [htold] at hx
    exact Diagnostic.of_mem_ofParseError hx
  have hhead : d.diagnostics.head? = some (Diagnostic.ofError config.sourceName e.span e) := by
    rw [htold, hmap, List.head?_map, hfirst]
    rfl
  constructor
  case suite => simp [hsuite, hparse]
  case recoverySuite => simp [hsuite, hrecovery]
  case recoveryError => exact hrecoveryError
  case position =>
    intro e₁ e' he₁ he'
    rw [he'] at hkept
    cases hkept
    rw [hparse] at he₁
    cases he₁
    rw [ParseError.position, ParseError.position, hspan]
  case first =>
    intro e₁ e' he₁ _
    rw [hparse] at he₁
    cases he₁
    refine ⟨_, ?_, hhead⟩
    rw [Diagnostic.ofParseError_of_flatten_ne_nil (by simp [hsingle]), hsingle, List.map_singleton]
  case told =>
    rw [hkept, Option.elim_some, ← hmap, ← htold, List.filter_eq_self]
    exact fun x hx => beq_iff_eq.2 (hall hx).1
  case hasErrors =>
    have hmem := List.mem_of_head? hhead
    simp only [Document.hasErrors, hparse, Option.isSome_some, Bool.true_or, true_iff]
    exact ⟨_, hmem, (hall hmem).2⟩

end Document

namespace Analyzer

variable {σ : Type} (a : Analyzer σ)

/-- What validation finds in a tree, if it is wanted. -/
def validated (suite : Option Suite) (symbols : SymbolTable) : List Diagnostic :=
  match suite with
  | some suite =>
    if a.config.validate then
      ({ suite, symbols, checkImports := a.resolver.isSome } : Validator).diagnostics
        a.config.sourceName
    else []
  | none => []

theorem code_ne_of_mem_validated {suite : Option Suite} {symbols : SymbolTable} {d : Diagnostic}
    (h : d ∈ a.validated suite symbols) : d.code ≠ Diagnostic.parseErrorCode := by
  unfold validated at h
  split at h
  · split at h
    · exact Validator.code_ne_parseErrorCode h
    · cases h
  · cases h

/-- An analysed document by its parts. Only its symbols depend on what the resolver does. -/
theorem analyze_eq (path : Option String) (source : String) (s : σ) :
    ∃ symbols, ((a.analyze path source).run s).1 =
      { path, suite := (parse .strict source).attached, parseError := (parse .strict source).error,
        recoverySuite := (a.recover (parse .strict source).attached source).1,
        recoveryError := (a.recover (parse .strict source).attached source).2, symbols,
        diagnostics :=
          (((a.recover (parse .strict source).attached source).2 <|>
            (parse .strict source).error).map
              (Diagnostic.ofParseError a.config.sourceName)).getD [] ++
            a.validated (parse .strict source).attached symbols } :=
  ⟨_, rfl⟩

theorem recover_of_some (suite : Suite) (source : String) :
    a.recover (some suite) source = (none, none) := rfl

theorem recover_of_recovery (h : a.config.recovery = true) (source : String) :
    a.recover none source =
      ((parse .recovery source).attached, (parse .recovery source).error) := by
  simp [recover, h]

theorem recover_of_not_recovery (h : a.config.recovery = false) (source : String) :
    a.recover none source = (none, none) := by
  simp [recover, h]

/-- What is known of an analysed document fits together, whatever its configuration, its path and
its resolver are. -/
theorem coherent_analyze (path : Option String) (source : String) (s : σ) :
    ((a.analyze path source).run s).1.Coherent a.config := by
  obtain ⟨symbols, hrun⟩ := a.analyze_eq path source s
  rw [hrun]
  obtain ⟨suite, hsuite, herror⟩ | ⟨e, suite, e', hsuite, herror, hsuite', herror', hsingle, hfirst,
    hspan⟩ := parse_strict_cases source
  · obtain ⟨t, hattached⟩ : ∃ t, (parse .strict source).attached = some t := by
      rw [Parsed.attached, hsuite]
      exact ⟨_, rfl⟩
    rw [hattached, a.recover_of_some, herror]
    refine .of_suite rfl rfl rfl rfl ?_
    intro x hx
    have hfound : x ∈ a.validated (some t) symbols := hx
    exact a.code_ne_of_mem_validated hfound
  · have hattached : (parse .strict source).attached = none := by
      rw [Parsed.attached, hsuite]
      rfl
    rw [hattached, herror]
    by_cases hconfig : a.config.recovery = true
    · rw [a.recover_of_recovery hconfig, herror', Parsed.attached, hsuite']
      refine .of_parseError rfl rfl ?_ ?_ rfl hsingle hfirst hspan (List.append_nil _)
      · simp [hconfig]
      · simp
    · rw [Bool.not_eq_true] at hconfig
      rw [a.recover_of_not_recovery hconfig]
      refine .of_parseError rfl rfl ?_ ?_ rfl hsingle ?_ rfl (List.append_nil _)
      · simp [hconfig]
      · simp
      · rw [hsingle]
        rfl

end Analyzer

end QuerySuite
