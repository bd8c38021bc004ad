import QuerySuite.Parse
import QuerySuite.Proofs.Clauses
import QuerySuite.Proofs.Locations
import QuerySuite.Proofs.Streams

/-!
# Regions and the tokens of a document

The regions that a suite records divide the document: each holds the tokens that were skipped with
it and no other, no two share a token, and what none of them holds belongs to a member of the
document that was read.

Results:

* `Skip.holds_region_iff`: the region of a skipped member holds the places of its own tokens only.
* `Covers.pairwise_disjoint`: members are skipped apart from each other.
* `document_explained`: every piece is skipped, or lies within a member of the document.
* `regions_divide_tokens`: all of it, for every source.
-/

namespace QuerySuite

/-- The members of a document: its imports, queries, setup, teardown and scopes. -/
def Suite.members (s : Suite) : List Node :=
  s.imports.map (fun i => ⟨.importClause, i.toNodeInfo⟩) ++
    s.queries.map (fun q => ⟨.query, q.toNodeInfo⟩) ++
    (s.setup.map fun c => ⟨.setup, c.toNodeInfo⟩).toList ++
    (s.teardown.map fun t => ⟨.teardown, t.toNodeInfo⟩).toList ++
    s.scopes.map (fun c => ⟨.scope, c.toNodeInfo⟩)

namespace Grammar

variable {eof : Token}

/-! ## One region -/

theorem Skip.skipped_region (k : Skip) : k.region.skipped = k.pieces.flatMap Piece.tokens := rfl

theorem Skip.token_mem_skipped (k : Skip) {p : Piece} (h : p ∈ k.pieces) :
    p.token ∈ k.region.skipped := by
  rw [skipped_region, List.mem_flatMap]
  exact ⟨p, h, List.mem_cons_self⟩

/-- The region of a skipped member starts where its tokens do. -/
theorem Skip.start_region (k : Skip) {p q : Position} (h : Token.Laid p k.region.skipped q) :
    k.region.start = p := by
  have h' : Token.Laid p (k.lead.token :: (k.lead.gap ++ k.more.flatMap Piece.tokens)) q := h
  exact h'.start_eq

/-- Reading went on where the tokens behind the region start, if there are any. -/
theorem Skip.resumed_region (k : Skip) {p q : Position}
    (h : Token.Laid p (k.left.flatMap Piece.tokens) q) (hne : k.left ≠ []) :
    k.region.resumed = some p := by
  cases hl : k.left with
  | nil => exact absurd hl hne
  | cons r rest =>
    rw [hl] at h
    have h' : Token.Laid p (r.token :: (r.gap ++ rest.flatMap Piece.tokens)) q := h
    rw [region, regionOf, hl, ← h'.start_eq]
    rfl

/-- The region of a skipped member holds the places of its own tokens and of no others. -/
theorem Skip.holds_region_iff (k : Skip) {before : List Token} {p q : Position}
    (h : Token.Laid p (before ++ (k.region.skipped ++ k.left.flatMap Piece.tokens)) q) {t : Token}
    (ht : t ∈ before ++ (k.region.skipped ++ k.left.flatMap Piece.tokens)) :
    k.region.holds t.start = true ↔ t ∈ k.region.skipped := by
  obtain ⟨m, hbefore, h⟩ := h.exists_of_append
  obtain ⟨n, hskipped, hleft⟩ := h.exists_of_append
  rw [Region.holds, k.start_region hskipped, Bool.and_eq_true, Bool.not_eq_true',
    ← Position.atOrBefore_iff]
  rw [List.mem_append, List.mem_append] at ht
  rcases ht with ht | ht | ht
  · -- The token stands before the region.
    have hlt := hbefore.start_isBefore ht
    have hnot : ¬m.AtOrBefore t.start := by
      rw [Position.atOrBefore_iff, hlt]
      simp
    exact ⟨fun h => absurd h.1 hnot, fun h => absurd (hskipped.bounds h).1 hnot⟩
  · refine ⟨fun _ => ht, fun _ => ⟨(hskipped.bounds ht).1, ?_⟩⟩
    by_cases hne : k.left = []
    · simp [region, regionOf, hne]
    · rw [k.resumed_region hleft hne]
      exact hskipped.start_isBefore ht
  · -- The token stands behind the region, so the region is not open.
    have hne : k.left ≠ [] := by
      rintro hnil
      simp [hnil] at ht
    have hle := (hleft.bounds ht).1
    have hnot : ¬t.start.isBefore n = true := by
      rw [Bool.not_eq_true, ← Position.atOrBefore_iff]
      exact hle
    rw [k.resumed_region hleft hne]
    exact ⟨fun h => absurd h.2 hnot, fun h => absurd (hskipped.start_isBefore h) hnot⟩

/-! ## All regions -/

namespace Covers

variable {rest used : List Piece} {skips : List Skip}

/-- A skipped member is a stretch of the pieces. -/
theorem exists_eq_append (h : Covers eof rest used skips) {k : Skip} (hk : k ∈ skips) :
    ∃ before behind, used = before ++ (k.pieces ++ behind) ∧ k.left = behind ++ rest := by
  induction h with
  | nil => simp at hk
  | read p _ ih =>
    obtain ⟨before, behind, rfl, hleft⟩ := ih hk
    exact ⟨p :: before, behind, rfl, hleft⟩
  | @skip k' used skips left _ _ ih =>
    rcases List.mem_cons.1 hk with rfl | hk
    · exact ⟨[], used, rfl, left⟩
    · obtain ⟨before, behind, rfl, hleft⟩ := ih hk
      exact ⟨k'.pieces ++ before, behind, by simp, hleft⟩

/-- Members are skipped apart from each other. -/
theorem pairwise_disjoint (h : Covers eof rest used skips)
    (nodup : (used.flatMap Piece.tokens).Nodup) :
    skips.Pairwise fun k k' => k.region.skipped.Disjoint k'.region.skipped := by
  induction h with
  | nil => exact .nil
  | read p _ ih =>
    rw [List.flatMap_cons] at nodup
    exact ih (List.nodup_append.1 nodup).2.1
  | @skip k used skips left _ h ih =>
    rw [List.flatMap_append] at nodup
    refine .cons (fun k' hk' => ?_) (ih (List.nodup_append.1 nodup).2.1)
    obtain ⟨before, behind, rfl, -⟩ := h.exists_eq_append hk'
    intro t ht ht'
    refine (List.nodup_append.1 nodup).2.2 t ht t ?_ rfl
    simp only [List.flatMap_append, List.mem_append]
    exact .inr (.inl ht')

end Covers

/-! ## Members that were read -/

/-- A member that is added to a suite stands there with the members that stood there before. -/
theorem members_placeTopMember (s : Suite) (m : TopMember) (h : m.Fits s) :
    (placeTopMember s (.parsed m)).members.Perm (s.members ++ [m.node]) := by
  rw [List.perm_iff_count]
  intro x
  cases m with
  | importClause i =>
    simp only [placeTopMember, Suite.members, TopMember.node, List.map_append, List.map_cons,
      List.map_nil, List.count_append]
    omega
  | query q =>
    simp only [placeTopMember, Suite.members, TopMember.node, List.map_append, List.map_cons,
      List.map_nil, List.count_append]
    omega
  | setup c =>
    have hs : s.setup = none := h
    simp only [placeTopMember, Suite.members, TopMember.node, hs, Option.map_none, Option.map_some,
      Option.toList_none, Option.toList_some, List.count_append, List.count_nil]
    omega
  | teardown t =>
    have ht : s.teardown = none := h
    simp only [placeTopMember, Suite.members, TopMember.node, ht, Option.map_none, Option.map_some,
      Option.toList_none, Option.toList_some, List.count_append, List.count_nil]
    omega
  | scope c =>
    simp only [placeTopMember, Suite.members, TopMember.node, List.map_append, List.map_cons,
      List.map_nil, List.count_append]
    omega

theorem subset_of_perm_append {α : Type} {whole kept added : List α}
    (h : whole.Perm (kept ++ added)) : kept ⊆ whole :=
  fun _ mem => h.symm.subset (List.mem_append_left added mem)

theorem members_skipInSuite (s : Suite) (r : Region) : s.members ⊆ (skipInSuite s r).members := by
  rcases skipInSuite_cases s r with ⟨m, h, -, fits⟩ | h
  · rw [h]
    exact subset_of_perm_append (members_placeTopMember s m fits)
  · rw [h]
    exact List.Subset.refl _

/-- The token of the piece was skipped, or a member of the document that was read reaches over
it. -/
def Explained (s : Suite) (p : Piece) : Prop :=
  (∃ r ∈ regionsOf s.nodes, p.token ∈ r.skipped) ∨
    ∃ m ∈ s.members, m.info.span.encloses p.token.span = true

theorem Explained.mono {s s' : Suite} {p : Piece} (h : Explained s p)
    (hr : regionsOf s.nodes ⊆ regionsOf s'.nodes) (hm : s.members ⊆ s'.members) :
    Explained s' p := by
  rcases h with ⟨r, hr', hp⟩ | ⟨m, hm', hp⟩
  · exact .inl ⟨r, hr hr', hp⟩
  · exact .inr ⟨m, hm hm', hp⟩

theorem atOrBefore_stopAfter {pieces : List Piece} {p q stop : Position}
    (h : Token.Laid p (pieces.flatMap Piece.tokens) q) (hp : stop.AtOrBefore p) :
    stop.AtOrBefore (stopAfter stop pieces) := by
  induction pieces generalizing p stop with
  | nil => exact .refl stop
  | cons r pieces ih =>
    rw [stopAfter_cons]
    have h' : Token.Laid p (r.token :: (r.gap ++ pieces.flatMap Piece.tokens)) q := h
    obtain ⟨h1, h2, -⟩ := h'.bounds List.mem_cons_self
    obtain ⟨m, hr, hpieces⟩ := h.exists_of_append
    have hrm := (hr.bounds List.mem_cons_self).2.2
    exact ((hp.trans h1).trans (.of_isBefore h2)).trans (ih hpieces hrm)

/-- No token of the pieces reaches behind the last one. -/
theorem stop_atOrBefore_stopAfter {pieces : List Piece} {p q : Position} (stop : Position)
    (h : Token.Laid p (pieces.flatMap Piece.tokens) q) {r : Piece} (hr : r ∈ pieces) :
    r.token.stop.AtOrBefore (stopAfter stop pieces) := by
  induction pieces generalizing p stop with
  | nil => simp at hr
  | cons r' pieces ih =>
    rw [stopAfter_cons]
    obtain ⟨m, hr', hpieces⟩ := h.exists_of_append
    rcases List.mem_cons.1 hr with rfl | hr
    · exact atOrBefore_stopAfter hpieces (hr'.bounds List.mem_cons_self).2.2
    · exact ih _ hpieces hr

/-- From the start of the first piece to the end of the last one, every piece is enclosed. -/
theorem encloses_of_mem {r x : Piece} {more : List Piece} {p q : Position} (stop : Position)
    (h : Token.Laid p ((r :: more).flatMap Piece.tokens) q) (hx : x ∈ r :: more) :
    (⟨r.token.start, stopAfter stop (r :: more)⟩ : Span).encloses x.token.span = true := by
  have h' : Token.Laid p (r.token :: (r.gap ++ more.flatMap Piece.tokens)) q := h
  obtain ⟨h1, h2, -⟩ := h.bounds (List.mem_flatMap.2 ⟨x, hx, List.mem_cons_self⟩)
  apply Span.encloses_of_atOrBefore
  · rw [h'.start_eq]
    exact h1
  · exact .of_isBefore h2
  · exact stop_atOrBefore_stopAfter stop h hx

/-! ## Documents -/

/-- One turn over the members of a document explains the pieces that it uses up. -/
theorem turn_explained {suite suite' : Suite} {s t : State eof} {p q : Position}
    (laid : Token.Laid p (s.rest.flatMap Piece.tokens) q)
    (turn : Turn .topLevel placeTopMember (topMember .recovery) (suite, s) (suite', t)) :
    ∃ used, s.toCursor.Reads used t.toCursor ∧ (∀ r ∈ used, Explained suite' r) ∧
      regionsOf suite.nodes ⊆ regionsOf suite'.nodes ∧ suite.members ⊆ suite'.members := by
  cases turn with
  | separator _ separates => simp [Context.separates] at separates
  | @parsed _ r rest stop met m _ ht inside begins read =>
    have h : (topMember .recovery suite r.token _).Accounts (⟨⟨r :: rest, stop⟩, met⟩ : State eof)
      _ _ := topMember_accounts suite r rest stop met
    rw [read] at h
    obtain ⟨⟨used, skips, hacc⟩, fits, hspan⟩ := h
    have hmembers := members_placeTopMember suite m fits
    refine ⟨used, hacc.reads, ?_, ?_, ?_⟩
    · intro x hx
      refine .inr ⟨m.node, hmembers.symm.subset (by simp), ?_⟩
      obtain ⟨more, rfl⟩ : ∃ more, used = r :: more := hacc.reads.exists_cons ht
      rw [hacc.reads.rest_eq, List.flatMap_append] at laid
      obtain ⟨n, laid, -⟩ := laid.exists_of_append
      rw [hspan, hacc.reads.stop_eq]
      exact encloses_of_mem stop laid hx
    · exact subset_of_perm_append (regionsOf_placeTopMember suite m fits)
    · exact subset_of_perm_append hmembers
  | @skipped _ r rest stop met e inner inside begins failed =>
    have hregions := regionsOf_skipInSuite suite (resume eof .topLevel r rest).1
    refine ⟨r :: skippedAfter .topLevel r rest, resume_reads .topLevel r rest stop, ?_, ?_, ?_⟩
    · intro x hx
      refine .inl ⟨(resume eof .topLevel r rest).1, hregions.symm.subset (by simp), ?_⟩
      rw [resume_fst]
      exact List.mem_flatMap.2 ⟨x, hx, List.mem_cons_self⟩
    · exact subset_of_perm_append hregions
    · exact members_skipInSuite suite _

/-- Every piece of a document is skipped, or lies within a member of the document. -/
theorem document_explained {s : State eof} {p q : Position}
    (laid : Token.Laid p (s.rest.flatMap Piece.tokens) q) :
    (document .recovery s).Gives fun suite u =>
      ∃ used, s.toCursor.Reads used u.toCursor ∧ ∀ r ∈ used, Explained suite r := by
  refine (members_invariant (fun suite u => ∃ used, s.toCursor.Reads used u.toCursor ∧
    ∀ r ∈ used, Explained suite r) ?_ s.le_refl ⟨[], .refl _, by simp⟩).mono fun _ _ h => h.1
  rintro suite s₁ suite' t _ turn ⟨used, hr, hused⟩
  rw [hr.rest_eq, List.flatMap_append] at laid
  obtain ⟨m, -, laid⟩ := laid.exists_of_append
  obtain ⟨more, hr', hmore, hregions, hmembers⟩ := turn_explained laid turn
  refine ⟨used ++ more, hr.trans hr', fun r hr => ?_⟩
  rcases List.mem_append.1 hr with hr | hr
  · exact (hused r hr).mono hregions hmembers
  · exact hmore r hr

/-- A region that a document records is that of a skipped member, or marks the end. -/
theorem Account.mem_regions {s t : State eof} {used : List Piece} {skips : List Skip}
    {regions : List Region} (h : Account s used skips regions t) {r : Region} (hr : r ∈ regions) :
    (∃ k ∈ skips, k.region = r) ∨ r = endMark eof := by
  obtain ⟨marks, hperm, -⟩ := h.recorded
  rcases List.mem_append.1 (hperm.subset hr) with hr | hr
  · exact .inl (List.mem_map.1 hr)
  · exact .inr (List.eq_of_mem_replicate hr)

section Stream

variable {stream : Stream} {s t : State stream.eof} {skips : List Skip} {regions : List Region}
  {r : Region}

/-- A region is a stretch of the tokens. -/
theorem Account.skipped_infix (h : Account s stream.pieces skips regions t) (hr : r ∈ regions) :
    r.skipped <:+: stream.tokens := by
  rcases h.mem_regions hr with ⟨k, hk, rfl⟩ | rfl
  · obtain ⟨before, behind, hpieces, -⟩ := h.covers.exists_eq_append hk
    refine ⟨stream.lead ++ before.flatMap Piece.tokens,
      behind.flatMap Piece.tokens ++ [stream.eof], ?_⟩
    rw [Stream.tokens, hpieces, Skip.skipped_region]
    simp only [List.flatMap_append, List.append_assoc]
  · exact List.nil_infix

/-- A region holds the places of its own tokens and of no others but the end. -/
theorem Account.holds_iff (h : Account s stream.pieces skips regions t) (hrest : t.rest = [])
    {p : Position}
    (laid : Token.Laid p (stream.lead ++ stream.pieces.flatMap Piece.tokens) stream.eof.start)
    (hr : r ∈ regions) {x : Token} (hx : x ∈ stream.lead ++ stream.pieces.flatMap Piece.tokens) :
    r.holds x.start = true ↔ x ∈ r.skipped := by
  rcases h.mem_regions hr with ⟨k, hk, rfl⟩ | rfl
  · obtain ⟨before, behind, hpieces, hleft⟩ := h.covers.exists_eq_append hk
    rw [hrest, List.append_nil] at hleft
    have hsplit : stream.lead ++ stream.pieces.flatMap Piece.tokens =
        (stream.lead ++ before.flatMap Piece.tokens) ++
          (k.region.skipped ++ k.left.flatMap Piece.tokens) := by
      rw [hpieces, hleft, Skip.skipped_region]
      simp only [List.flatMap_append, List.append_assoc]
    rw [hsplit] at laid hx
    exact k.holds_region_iff laid hx
  · have hlt := laid.start_isBefore hx
    simp [Region.holds, endMark, hlt]

/-- A region that skipped nothing marks the end. -/
theorem Account.eq_endMark (h : Account s stream.pieces skips regions t) (hr : r ∈ regions)
    (hnil : r.skipped = []) : r = endMark stream.eof := by
  rcases h.mem_regions hr with ⟨k, -, rfl⟩ | rfl
  · have hlead := k.token_mem_skipped (p := k.lead) List.mem_cons_self
    rw [hnil] at hlead
    simp at hlead
  · rfl

end Stream

/-- The regions that a document records share no token. -/
theorem Account.pairwise_disjoint {s t : State eof} {used : List Piece} {skips : List Skip}
    {regions : List Region} (h : Account s used skips regions t)
    (nodup : (used.flatMap Piece.tokens).Nodup) :
    regions.Pairwise fun r r' => r.skipped.Disjoint r'.skipped := by
  obtain ⟨marks, hperm, -⟩ := h.recorded
  have hsymm {r r' : Region} (h : r.skipped.Disjoint r'.skipped) :
      r'.skipped.Disjoint r.skipped := by
    intro t ht ht'
    exact h ht' ht
  refine (hperm.pairwise_iff hsymm).2 ?_
  rw [List.pairwise_append, List.pairwise_map]
  refine ⟨h.covers.pairwise_disjoint nodup, ?_, ?_⟩
  · rw [List.pairwise_replicate]
    exact .inr (List.disjoint_nil_left _)
  · intro r _ r' hr'
    rw [List.eq_of_mem_replicate hr']
    exact List.disjoint_nil_right _

/-- Reading a source: the account of its pieces, each of which is explained. -/
theorem parse_source (source : String) :
    ∃ suite u skips, parse .recovery (Token.scan source) = .suite suite u.met ∧
      suite.tokens = Token.scan source ∧ u.rest = [] ∧
      Account (initial (Token.scan source)) (Stream.ofSource source).pieces skips
        (regionsOf suite.nodes) u ∧
      ∀ p ∈ (Stream.ofSource source).pieces, Explained suite p := by
  obtain ⟨m, -, laid⟩ := (Stream.laid_ofSource source).exists_of_append
  obtain ⟨suite, u, hrun, ⟨⟨used, skips, hacc⟩, hrest⟩, more, hreads, hmore⟩ :=
    parse_of_gives ((document_accounts (initial (Token.scan source))).and (document_explained laid))
  have hall {pieces : List Piece}
      (h : (initial (Token.scan source)).toCursor.Reads pieces u.toCursor) :
      (Stream.ofSource source).pieces = pieces := by
    have hpieces := h.rest_eq
    rw [hrest, List.append_nil] at hpieces
    exact hpieces
  obtain rfl := hall hacc.reads
  obtain rfl := hall hreads
  refine ⟨complete (Token.scan source) suite, u, skips, hrun, ?_, hrest, hacc, hmore⟩
  exact withEnd_scan source

end Grammar

/-- The regions that parsing with recovery records divide the tokens of a document. Each is a
stretch of the tokens and holds the places of its own significant tokens only. No two share a
significant token. A significant token that none of them skipped lies within an import, a query, the
setup, the teardown or a scope of the document. A region that skipped nothing is open and starts at
the end of the document. -/
theorem regions_divide_tokens (source : String) :
    ∃ suite, (parse .recovery source).suite = some suite ∧ suite.tokens = Token.scan source ∧
      (∀ r ∈ regionsOf suite.nodes, r.skipped <:+: suite.tokens ∧
        ∀ t ∈ suite.tokens, t.isTrivia = false → t.kind ≠ .eof →
          (r.holds t.start = true ↔ t ∈ r.skipped)) ∧
      ((regionsOf suite.nodes).Pairwise fun r r' =>
        ∀ t ∈ r.skipped, t.isTrivia = false → t ∉ r'.skipped) ∧
      (∀ t ∈ suite.tokens, t.isTrivia = false → t.kind ≠ .eof →
        (∀ r ∈ regionsOf suite.nodes, t ∉ r.skipped) →
          ∃ m ∈ suite.members, m.info.span.encloses t.span = true) ∧
      ∀ r ∈ regionsOf suite.nodes, r.skipped = [] →
        r.resumed = none ∧ ∃ e, suite.tokens.getLast? = some e ∧ e.kind = .eof ∧
          r.start = e.start := by
  obtain ⟨suite, u, skips, hrun, htokens, hrest, hacc, hexplained⟩ := Grammar.parse_source source
  refine ⟨suite, ?_, htokens, ?_⟩
  · unfold parse
    dsimp only
    rw [hrun]
  have laid := Grammar.Stream.laid_ofSource source
  rw [htokens, ← Grammar.Stream.tokens_ofSource source]
  -- A token other than the last one stands before the end.
  have hinside {t : Token} (ht : t ∈ (Grammar.Stream.ofSource source).tokens)
      (hk : t.kind ≠ .eof) :
      t ∈ (Grammar.Stream.ofSource source).lead ++
        (Grammar.Stream.ofSource source).pieces.flatMap Grammar.Piece.tokens := by
    rcases List.mem_append.1 ht with ht | ht
    · exact ht
    · rw [List.mem_singleton.1 ht] at hk
      exact absurd (Grammar.Stream.split_eof none _) hk
  refine ⟨?_, ?_, ?_, ?_⟩
  · intro r hr
    refine ⟨hacc.skipped_infix hr, fun t ht _ hk => ?_⟩
    exact hacc.holds_iff hrest laid hr (hinside ht hk)
  · have hnodup := (List.nodup_append.1 laid.nodup).2.1
    refine (hacc.pairwise_disjoint hnodup).imp ?_
    intro r r' h t ht _ ht'
    exact h ht ht'
  · intro t ht htrivia hk hnone
    obtain ⟨p, hp, rfl⟩ := Grammar.Stream.exists_piece none ht htrivia hk
    rcases hexplained p hp with ⟨r, hr, hskipped⟩ | hmember
    · exact absurd hskipped (hnone r hr)
    · exact hmember
  · intro r hr hnil
    rw [hacc.eq_endMark hr hnil]
    refine ⟨rfl, (Grammar.Stream.ofSource source).eof, ?_, Grammar.Stream.split_eof none _, rfl⟩
    rw [Grammar.Stream.tokens, List.getLast?_concat]

end QuerySuite
