import QuerySuite.Proofs.Regions
import QuerySuite.Proofs.Tallies
import QuerySuite.Proofs.Totality

/-!
# Errors and regions

Each member that is skipped leaves one region and one error. So the errors of a document that is
read with recovery stand beside the regions that hold tokens, in the order of the document, and each
error is where its region starts or behind it. At most one error is left over: it says that the
document ends in a body, and is noted where no other error stands at the end of the document.

Results:

* `Covers.pairwise_start`, `Covers.start_atOrBefore`: where regions start, and where their errors
  are.
* `Suite.balance_kept`: the braces that were not skipped tell how many bodies were cut off.
* `Loop.notesNothing_of_mem`: a member that fails has noted no error.
* `errors_match_regions`: all of it, for every source.
-/

namespace QuerySuite

namespace Suite

/-- The tokens that no region of the suite holds. -/
def kept (s : Suite) : List Token :=
  s.tokens.filter fun t => t ∉ (regionsOf s.nodes).flatMap (·.skipped)

/-- The document ends in a body: it opens more braces than it closes, apart from what was
skipped. -/
def EndsInBody (s : Suite) : Prop :=
  s.kept.countP (·.kind == .rbrace) < s.kept.countP (·.kind == .lbrace)

end Suite

/-- Tokens that are taken out of a list take their braces along. -/
theorem balance_filter_not_mem {ts out : List Token} (h : out.Sublist ts) (nodup : ts.Nodup) :
    balance (ts.filter fun t => t ∉ out) + balance out = balance ts := by
  have hout : (ts.filter fun t => t ∈ out).Perm out := by
    refine (List.perm_ext_iff_of_nodup (nodup.filter _) (h.nodup nodup)).2 fun t => ?_
    simpa using fun ht => h.subset ht
  have hsplit := balance_perm (List.filter_append_perm (fun t => decide (t ∈ out)) ts)
  rw [balance_append, balance_perm hout] at hsplit
  rw [← hsplit, Int.add_comm]
  simp only [decide_not]

namespace Grammar

variable {eof : Token}

/-! ## Where regions start -/

namespace Covers

variable {rest used : List Piece} {skips : List Skip}

/-- A skipped member failed at one of its own tokens or behind it. -/
theorem raised_behind (h : Covers eof rest used skips) {k : Skip} (hk : k ∈ skips) :
    RaisedIn ((k.pieces ++ k.left).map (·.token) ++ [eof]) k.error := by
  induction h with
  | nil => cases hk
  | read p _ ih => exact ih hk
  | skip k' _ raised _ ih =>
    rcases List.mem_cons.1 hk with rfl | hk
    · exact raised
    · exact ih hk

/-- Members are skipped in the order of the document. -/
theorem pairwise_start (h : Covers eof rest used skips) {p q : Position}
    (laid : Token.Laid p (used.flatMap Piece.tokens) q) :
    (skips.map (·.region)).Pairwise fun r r' => r.start.isBefore r'.start = true := by
  rw [List.pairwise_map]
  induction h generalizing p with
  | nil => exact .nil
  | read r _ ih =>
    rw [List.flatMap_cons] at laid
    obtain ⟨m, -, laid⟩ := laid.exists_of_append
    exact ih laid
  | @skip k used skips left _ h ih =>
    rw [List.flatMap_append] at laid
    obtain ⟨m, hskipped, hmore⟩ := laid.exists_of_append
    refine .cons (fun k' hk' => ?_) (ih hmore)
    have hlead := hskipped.start_isBefore (k.token_mem_skipped List.mem_cons_self)
    have hlead' : k'.lead.token ∈ used.flatMap Piece.tokens := by
      obtain ⟨before, behind, rfl, -⟩ := h.exists_eq_append hk'
      simp only [List.flatMap_append, List.mem_append]
      exact .inr (.inl (k'.token_mem_skipped List.mem_cons_self))
    exact Position.isBefore_of_isBefore_of_atOrBefore hlead (hmore.bounds hlead').1

/-- A skipped member failed where its region starts, or behind that. -/
theorem start_atOrBefore (h : Covers eof [] used skips) {p : Position}
    (laid : Token.Laid p (used.flatMap Piece.tokens) eof.start) {k : Skip} (hk : k ∈ skips) :
    k.region.start.AtOrBefore k.error.position := by
  obtain ⟨before, behind, rfl, hleft⟩ := h.exists_eq_append hk
  rw [List.append_nil] at hleft
  rw [← hleft, List.flatMap_append] at laid
  obtain ⟨m, -, laid⟩ := laid.exists_of_append
  have hstart : k.region.start = m := by
    rw [List.flatMap_append] at laid
    obtain ⟨n, hskipped, -⟩ := laid.exists_of_append
    exact k.start_region hskipped
  obtain ⟨t, ht, hraised⟩ := h.raised_behind hk
  rw [hstart, ParseError.position, hraised.span_eq]
  rcases List.mem_append.1 ht with ht | ht
  · obtain ⟨x, hx, rfl⟩ := List.mem_map.1 ht
    exact (laid.bounds (List.mem_flatMap.2 ⟨x, hx, List.mem_cons_self⟩)).1
  · rw [List.mem_singleton.1 ht]
    exact laid.atOrBefore

/-- What was skipped stands in the document in this order. -/
theorem sublist (h : Covers eof rest used skips) :
    (skips.flatMap (·.region.skipped)).Sublist (used.flatMap Piece.tokens) := by
  induction h with
  | nil => exact .slnil
  | read p _ ih =>
    rw [List.flatMap_cons]
    exact ih.trans (List.sublist_append_right _ _)
  | skip k _ _ _ ih =>
    rw [List.flatMap_cons, List.flatMap_append]
    exact (List.Sublist.refl _).append ih

end Covers

/-! ## What the regions hold -/

section Account

variable {s t : State eof} {used : List Piece} {skips : List Skip} {regions : List Region}

/-- The regions that hold tokens are those of the skipped members. -/
theorem Account.perm_filter (h : Account s used skips regions t) :
    (skips.map (·.region)).Perm (regions.filter fun r => r.skipped ≠ []) := by
  obtain ⟨marks, hperm, -⟩ := h.recorded
  have hskips : (skips.map (·.region)).filter (fun r => r.skipped ≠ []) = skips.map (·.region) := by
    rw [List.filter_eq_self]
    intro r hr
    obtain ⟨k, -, rfl⟩ := List.mem_map.1 hr
    simpa using List.ne_nil_of_mem (k.token_mem_skipped (p := k.lead) List.mem_cons_self)
  have hmarks : (List.replicate marks (endMark eof)).filter (fun r => r.skipped ≠ []) = [] := by
    rw [List.filter_eq_nil_iff]
    intro r hr
    rw [List.eq_of_mem_replicate hr]
    simp [endMark]
  have hfilter := hperm.filter (fun r => r.skipped ≠ [])
  rw [List.filter_append, hskips, hmarks, List.append_nil] at hfilter
  exact hfilter.symm

/-- What the regions hold was skipped. -/
theorem Account.perm_skipped (h : Account s used skips regions t) :
    (regions.flatMap (·.skipped)).Perm (skips.flatMap (·.region.skipped)) := by
  obtain ⟨marks, hperm, -⟩ := h.recorded
  have hflat := hperm.flatMap_right (·.skipped)
  rw [List.flatMap_append, skipped_marks, List.append_nil, List.flatMap_map] at hflat
  exact hflat

/-- One error is noted for each skipped member, and perhaps one more. -/
theorem Account.noted_cases (h : Account s used skips regions t) (hs : s.met = []) :
    t.met = skips.map (·.error) ∨
      t.met = skips.map (·.error) ++ [unclosed eof] ∧
        ∀ e ∈ skips.map (·.error), e.span ≠ eof.span := by
  obtain ⟨extra, hmet, hextra⟩ := h.noted
  rw [hs, List.nil_append] at hmet hextra
  rcases hextra with rfl | ⟨rfl, -, -, hspan⟩
  · exact .inl (by rw [hmet, List.append_nil])
  · exact .inr ⟨hmet, hspan⟩

/-- The error that is noted beside a skipped member is its own. -/
theorem Account.getElem?_met (h : Account s used skips regions t) (hs : s.met = []) {k : Nat}
    {x : Skip} (hk : skips[k]? = some x) : t.met[k]? = some x.error := by
  have hx : (skips.map (·.error))[k]? = some x.error := by rw [List.getElem?_map, hk]; rfl
  rcases h.noted_cases hs with hmet | ⟨hmet, -⟩
  · rw [hmet, hx]
  · rw [hmet, List.getElem?_append_left (List.getElem?_eq_some_iff.1 hx).1, hx]

/-- One more error is noted exactly if bodies were cut off and no skipped member failed at the end
of the document. -/
theorem Account.extra_iff (h : Account s used skips regions t) (hs : s.met = []) {cut : Nat}
    (hcut : cut ≠ 0 → ∃ e ∈ t.met, e.span = eof.span)
    (hclean : cut = 0 → t.met.length = skips.length) :
    t.met.length = skips.length + 1 ↔
      cut ≠ 0 ∧ ∀ e ∈ t.met.take skips.length, e.span ≠ eof.span := by
  have htake (more : List ParseError) :
      (skips.map (·.error) ++ more).take skips.length = skips.map (·.error) :=
    List.take_left' (List.length_map _)
  rcases h.noted_cases hs with hmet | ⟨hmet, hspan⟩
  · have hmet' : t.met = skips.map (·.error) ++ [] := by rw [hmet, List.append_nil]
    constructor
    · intro hlength
      rw [hmet, List.length_map] at hlength
      omega
    · rintro ⟨hne, hnone⟩
      obtain ⟨e, he, hspan⟩ := hcut hne
      rw [hmet', htake] at hnone
      exact absurd hspan (hnone e (hmet ▸ he))
  · have hlength : t.met.length = skips.length + 1 := by
      rw [hmet, List.length_append, List.length_map, List.length_singleton]
    refine ⟨fun _ => ⟨fun hzero => ?_, ?_⟩, fun _ => hlength⟩
    · have hsame := hclean hzero
      omega
    · rw [hmet, htake]
      exact hspan

/-- The error that is left over is the last one. -/
theorem Account.getLast?_met (h : Account s used skips regions t) (hs : s.met = [])
    (hlength : t.met.length = skips.length + 1) : t.met.getLast? = some (unclosed eof) := by
  rcases h.noted_cases hs with hmet | ⟨hmet, -⟩
  · rw [hmet, List.length_map] at hlength
    omega
  · rw [hmet, List.getLast?_concat]

end Account

/-- A member that fails has noted no error. -/
def Loop.NotesNothing (l : Loop eof) : Prop :=
  ∀ g p rest met e inner, l.rule g p.token ⟨.after p rest, met⟩ = .fail e inner → inner = met

theorem Loop.notesNothing_of_mem {l : Loop eof} (h : l ∈ all eof) : l.NotesNothing := by
  obtain ⟨regions, P, haccounts⟩ := accounts_of_mem h
  intro g p rest met e inner hfail
  have hacc := haccounts g p rest .start met
  rw [hfail] at hacc
  exact hacc.1

/-! ## Documents -/

/-- All tokens of a source differ. -/
theorem Stream.nodup_ofSource (source : String) : (ofSource source).tokens.Nodup := by
  have laid := laid_ofSource source
  refine List.nodup_append.2 ⟨laid.nodup, by simp, ?_⟩
  rintro t ht _ hu rfl
  rw [List.mem_singleton.1 hu] at ht
  -- The end token would stand before itself.
  have hlt := laid.start_isBefore ht
  rw [Position.isBefore_iff] at hlt
  omega

/-- The braces of a stream are those of its pieces. -/
theorem Stream.balance_tokens (before : Option Token) (ts : List Token) :
    balance (split before ts).tokens = balance ((split before ts).pieces.map (·.token)) := by
  have hlead : balance (split before ts).lead = 0 := by
    rw [← balance_significant, Token.significant_eq_nil (split_lead before ts)]
    rfl
  have hpieces : balance ((split before ts).pieces.flatMap Piece.tokens) =
      balance ((split before ts).pieces.map (·.token)) := by
    rw [← balance_significant, significant_pieces (split_wellFormed before ts)]
  rw [tokens, balance_append, balance_append, hlead, hpieces, balance_cons, split_eof before ts]
  simp [Token.Kind.brace]

/-- The errors of a source, with the account and the tally of its regions. -/
theorem parse_source_tally (source : String) :
    ∃ suite u skips, parse .recovery (Token.scan source) = .suite suite u.met ∧
      suite.tokens = (Stream.ofSource source).tokens ∧ u.rest = [] ∧
      Account (initial (Token.scan source)) (Stream.ofSource source).pieces skips
        (regionsOf suite.nodes) u ∧
      Tally (initial (Token.scan source)) 0 (regionsOf suite.nodes) u := by
  obtain ⟨suite, u, hrun, ⟨⟨used, skips, hacc⟩, hrest⟩, htally⟩ :=
    parse_of_gives ((document_accounts (initial (Token.scan source))).and (document_tally _))
  refine ⟨complete (Token.scan source) suite, u, skips, hrun, ?_, hrest, ?_, htally⟩
  · rw [Stream.tokens_ofSource]
    exact withEnd_scan source
  · have hpieces : (Stream.ofSource source).pieces = used ++ u.rest := hacc.reads.rest_eq
    rw [hrest, List.append_nil] at hpieces
    rw [hpieces]
    exact hacc

/-- The braces that were not skipped tell how many bodies were cut off. -/
theorem balance_kept {source : String} {suite : Suite} {skips : List Skip}
    {u : State (endToken (Token.scan source))}
    (htokens : suite.tokens = (Stream.ofSource source).tokens) (hrest : u.rest = [])
    (hacc : Account (initial (Token.scan source)) (Stream.ofSource source).pieces skips
      (regionsOf suite.nodes) u) {cut : Nat}
    (hcut : (initial (Token.scan source)).balance + 0 =
      u.balance + balance ((regionsOf suite.nodes).flatMap (·.skipped)) + cut) :
    balance suite.kept = cut := by
  have hsub : (skips.flatMap (·.region.skipped)).Sublist suite.tokens := by
    rw [htokens, Stream.tokens]
    exact (hacc.covers.sublist.trans (List.sublist_append_right _ _)).trans
      (List.sublist_append_left _ _)
  have hnodup : suite.tokens.Nodup := htokens ▸ Stream.nodup_ofSource source
  have hkept : suite.kept = suite.tokens.filter fun t => t ∉ skips.flatMap (·.region.skipped) := by
    refine List.filter_congr fun t _ => ?_
    rw [decide_eq_decide, hacc.perm_skipped.mem_iff]
  have hwhole : balance suite.tokens = (initial (Token.scan source)).balance := by
    rw [htokens]
    exact Stream.balance_tokens none _
  have hnil : u.balance = 0 := by
    rw [Cursor.balance, hrest]
    rfl
  have hsplit := balance_filter_not_mem hsub hnodup
  rw [← hkept, ← balance_perm hacc.perm_skipped, hwhole] at hsplit
  omega

end Grammar

/-- The errors that reading with recovery notes, beside the regions that hold tokens. Put in the
order of the document, these regions are as many as the errors, or one less. The error beside a
region is not before its start. One more error is there exactly if the document ends in a body and
none of the others is at the end of the document; then it is the last one and says so. A member that
fails has noted nothing, so when what it noted is cut off, no error is lost. -/
theorem errors_match_regions (source : String) :
    ∃ (suite : Suite) (errors : List ParseError) (regions : List Region) (eof : Token),
      Grammar.parse .recovery (Token.scan source) = .suite suite errors ∧
      (Token.scan source).getLast? = some eof ∧ eof.kind = .eof ∧
      regions.Perm ((regionsOf suite.nodes).filter fun r => r.skipped ≠ []) ∧
      regions.Pairwise (fun r r' => r.start.isBefore r'.start = true) ∧
      (errors.length = regions.length ∨ errors.length = regions.length + 1) ∧
      (∀ (k : Nat) r, regions[k]? = some r →
        ∃ e, errors[k]? = some e ∧ r.start.AtOrBefore e.position) ∧
      (errors.length = regions.length + 1 ↔
        suite.EndsInBody ∧ ∀ e ∈ errors.take regions.length, e.span ≠ eof.span) ∧
      (errors.length = regions.length + 1 →
        errors.getLast? = some (.unexpectedEof "'\x7d'" eof.span)) ∧
      ∀ l ∈ Grammar.Loop.all eof, ∀ g p rest met e inner,
        l.rule g p.token ⟨.after p rest, met⟩ = .fail e inner → inner.take met.length = inner := by
  obtain ⟨suite, u, skips, hrun, htokens, hrest, hacc, htally⟩ :=
    Grammar.parse_source_tally source
  obtain ⟨m, -, laid⟩ := (Grammar.Stream.laid_ofSource source).exists_of_append
  have hcovers := hacc.covers
  rw [hrest] at hcovers
  have hlength : (skips.map (·.region)).length = skips.length := List.length_map _
  have heof : (Grammar.endToken (Token.scan source)).kind = .eof := Grammar.Stream.split_eof none _
  refine ⟨suite, u.met, skips.map (·.region), Grammar.endToken (Token.scan source), hrun, ?_, heof,
    hacc.perm_filter, hcovers.pairwise_start laid, ?_, ?_, ?_, ?_, ?_⟩
  · have htokens := Grammar.Stream.tokens_ofSource source
    rw [Grammar.Stream.tokens] at htokens
    rw [← congrArg List.getLast? htokens, List.getLast?_concat]
  · rw [hlength]
    rcases hacc.noted_cases rfl with hmet | ⟨hmet, -⟩
    · exact .inl (by rw [hmet, List.length_map])
    · exact .inr (by rw [hmet, List.length_append, List.length_map, List.length_singleton])
  · intro k r hr
    rw [List.getElem?_map, Option.map_eq_some_iff] at hr
    obtain ⟨x, hx, rfl⟩ := hr
    refine ⟨x.error, hacc.getElem?_met rfl hx, ?_⟩
    exact hcovers.start_atOrBefore laid (List.mem_of_getElem? hx)
  · obtain ⟨cut, hb, hcut, hclean⟩ := htally.weighed
    have hbalance := Grammar.balance_kept htokens hrest hacc
      (hb (Grammar.Stream.split_wellFormed none _))
    have hends : suite.EndsInBody ↔ cut ≠ 0 := by
      rw [balance_eq_countP] at hbalance
      unfold Suite.EndsInBody
      omega
    rw [hlength, hends]
    refine hacc.extra_iff rfl (fun hne => (hcut hne).2) fun hzero => ?_
    rw [hclean hzero, List.countP_eq_length_filter, ← hacc.perm_filter.length_eq, hlength]
    exact Nat.zero_add _
  · intro hextra
    rw [hlength] at hextra
    rw [hacc.getLast?_met rfl hextra, Grammar.unclosed, ParseError.unexpected, heof]
  · intro l hl g p rest met e inner hfail
    rw [Grammar.Loop.notesNothing_of_mem hl g p rest met e inner hfail]
    exact List.take_length

end QuerySuite
