import Mathlib
import QuerySuite.Proofs.ExprTokens
import QuerySuite.Proofs.WordSearch
import QuerySuite.QueryBody

/-!
# All parameters of a query body

The matches of a regular expression are looked for from left to right: the next match is the one
that begins first, and the longest of those that begin there, and the search goes on behind it. What
begins within a match is not looked at, so in general such a search misses matches. It misses none
of a sigil with a name behind it, since no name holds a sigil: every place where one stands is
found.

Results:

* `Pattern.Finds.unique`: the search has one outcome.
* `QueryBody.mem_placed_iff`: the places of the parameters.
* `QueryBody.finds_placed`: the search for a sigil and a name finds all of them.
* `QueryBody.params_exact`: the parameters of a body are the names that stand behind a sigil, each
  once, in the order of their first places.
-/

namespace QuerySuite

/-! ## Searching for a regular expression -/

namespace Pattern

variable {p : Pattern} {text before before' w w' after after' : List Char}

/-- The next match in a text: none begins before it, and none that begins with it is longer. -/
structure NextMatch (p : Pattern) (text before w after : List Char) : Prop where
  eq : text = before ++ (w ++ after)
  mem : w ∈ p.language
  first : ∀ v ∈ p.language, ∀ i < before.length, ¬v <+: text.drop i
  longest : ∀ v ∈ p.language, v <+: w ++ after → v.length ≤ w.length

/-- What a search finds in a text that begins at the place `k`: the matches one after another, each
with the place where it begins. -/
inductive Finds (p : Pattern) : Nat → List Char → List (Nat × List Char) → Prop where
  | done {k : Nat} {text : List Char} (h : ∀ w ∈ p.language, ¬w <:+: text) : Finds p k text []
  | next {k : Nat} {text before w after : List Char} {found : List (Nat × List Char)}
      (h : p.NextMatch text before w after)
      (rest : Finds p (k + before.length + w.length) after found) :
      Finds p k text ((k + before.length, w) :: found)

namespace NextMatch

theorem isInfix (h : p.NextMatch text before w after) : w <:+: text :=
  ⟨before, after, by rw [h.eq, List.append_assoc]⟩

theorem length_le (h : p.NextMatch text before w after)
    (h' : p.NextMatch text before' w' after') : before.length ≤ before'.length := by
  by_contra hlt
  refine h.first w' h'.mem before'.length (Nat.lt_of_not_le hlt) ?_
  rw [h'.eq, List.drop_left]
  exact List.prefix_append _ _

/-- There is one next match at most. -/
theorem unique (h : p.NextMatch text before w after) (h' : p.NextMatch text before' w' after') :
    before = before' ∧ w = w' ∧ after = after' := by
  have hlength := Nat.le_antisymm (h.length_le h') (h'.length_le h)
  obtain ⟨hbefore, hbehind⟩ := List.append_inj (h.eq.symm.trans h'.eq) hlength
  have hle : w.length ≤ w'.length := h'.longest w h.mem (hbehind ▸ List.prefix_append _ _)
  have hge : w'.length ≤ w.length := h.longest w' h'.mem (hbehind ▸ List.prefix_append _ _)
  obtain ⟨hw, hafter⟩ := List.append_inj hbehind (Nat.le_antisymm hle hge)
  exact ⟨hbefore, hw, hafter⟩

end NextMatch

namespace Finds

variable {k : Nat} {found found' : List (Nat × List Char)}

theorem unique (h : p.Finds k text found) (h' : p.Finds k text found') : found = found' := by
  induction h generalizing found' with
  | done hnone =>
    cases h' with
    | done => rfl
    | next h => exact absurd h.isInfix (hnone _ h.mem)
  | next h _ ih =>
    cases h' with
    | done hnone => exact absurd h.isInfix (hnone _ h.mem)
    | next h' rest =>
      obtain ⟨rfl, rfl, rfl⟩ := h.unique h'
      rw [ih rest]

/-- A character at which no match begins is passed over. -/
theorem cons {c : Char} (hc : ∀ w ∈ p.language, ¬w <+: c :: text)
    (h : p.Finds (k + 1) text found) : p.Finds k (c :: text) found := by
  cases h with
  | done hnone =>
    refine .done fun w hw hinfix => ?_
    rcases List.infix_cons_iff.1 hinfix with hfront | hinfix
    · exact hc w hw hfront
    · exact hnone w hw hinfix
  | @next _ _ before w after found h rest =>
    have hplace : k + 1 + before.length = k + (c :: before).length := by
      rw [List.length_cons]
      omega
    rw [hplace] at rest ⊢
    refine .next ⟨by rw [h.eq, List.cons_append], h.mem, fun v hv i hi => ?_, h.longest⟩ rest
    cases i with
    | zero => exact hc v hv
    | succ i => exact h.first v hv i (Nat.lt_of_succ_lt_succ hi)

end Finds

end Pattern

namespace QueryBody

/-! ## Names behind sigils -/

/-- A sigil and a name. -/
def sigilName : Pattern := .seq (.text "$") Token.namePattern

/-- The name stands behind a sigil at the place `k` of the body, and does not go on behind. -/
def OccursAt (body name : String) (k : Nat) : Prop :=
  name.toList ∈ Token.namePattern.language ∧ ∃ before after,
    body.toList = before ++ '$' :: (name.toList ++ after) ∧ before.length = k ∧
      ∀ c ∈ after.head?, [c] ∉ Token.wordCharacter.language

/-- The first place where the name stands. -/
def FirstAt (body name : String) (k : Nat) : Prop :=
  OccursAt body name k ∧ ∀ i < k, ¬OccursAt body name i

variable {name rest text : List Char} {i k : Nat}

theorem mem_namePattern_iff : name ∈ Token.namePattern.language ↔ isName name = true := by
  rw [Token.namePattern, Token.letter, Pattern.mem_oneOf_seq_iff]
  simp only [Token.letter_eq, Token.wordCharacter, Pattern.mem_many_oneOf_iff,
    Token.wordCharacter_eq]
  constructor
  · rintro ⟨c, u, hc, hu, rfl⟩
    rw [isName, Bool.and_eq_true, List.all_eq_true]
    exact ⟨hc, hu⟩
  · intro h
    cases name with
    | nil => cases h
    | cons c u =>
      rw [isName, Bool.and_eq_true, List.all_eq_true] at h
      exact ⟨c, u, h.1, h.2, rfl⟩

theorem mem_wordCharacter_iff {c : Char} :
    [c] ∈ Token.wordCharacter.language ↔ Token.isNameChar c = true := by
  rw [Token.wordCharacter, Pattern.mem_oneOf_iff]
  simp [Token.wordCharacter_eq]

/-- A name holds no sigil. -/
theorem sigil_notMem_of_isName (h : isName name = true) : '$' ∉ name :=
  fun hmem => absurd (isNameChar_of_isName h '$' hmem) (by decide)

theorem nameAt?_append (hname : isName name = true)
    (hrest : rest.head?.any Token.isNameChar = false) : nameAt? (name ++ rest) = some name := by
  cases name with
  | nil => cases hname
  | cons c name =>
    rw [isName, Bool.and_eq_true, List.all_eq_true] at hname
    have hstop : rest.takeWhile Token.isNameChar = [] := by
      cases rest with
      | nil => rfl
      | cons d rest => rw [List.takeWhile_cons_of_neg (by simpa using hrest)]
    rw [List.cons_append, nameAt?, if_pos hname.1, List.takeWhile_append_of_pos hname.2,
      hstop, List.append_nil]

/-- The name at the front of a text does not go on behind. -/
theorem nameAt?_eq_some_iff :
    nameAt? rest = some name ↔ isName name = true ∧
      ∃ after, rest = name ++ after ∧ after.head?.any Token.isNameChar = false := by
  constructor
  · intro h
    cases rest with
    | nil => cases h
    | cons c rest =>
      rw [nameAt?] at h
      split_ifs at h with hc
      cases h
      refine ⟨?_, rest.dropWhile Token.isNameChar, ?_, ?_⟩
      · rw [isName, hc, Bool.true_and, List.all_eq_true]
        exact fun d hd => List.mem_takeWhile_imp hd
      · rw [List.cons_append, List.takeWhile_append_dropWhile]
      · have hhead := List.head?_dropWhile_not Token.isNameChar rest
        cases hdrop : (rest.dropWhile Token.isNameChar).head? with
        | none => rfl
        | some d =>
          rw [hdrop] at hhead
          exact hhead
  · rintro ⟨hname, after, rfl, hafter⟩
    exact nameAt?_append hname hafter

/-! ## Parameters with their places -/

/-- The names behind sigils in a text that begins at the place `k`, each with the place of its
sigil. -/
def placed (k : Nat) : List Char → List (Nat × List Char)
  | [] => []
  | c :: rest =>
    ((if c = '$' then nameAt? rest else none).map fun name => (k, name)).toList ++
      placed (k + 1) rest

theorem map_snd_placed (k : Nat) (text : List Char) :
    (placed k text).map (·.2) = occurrences text := by
  induction text generalizing k with
  | nil => rfl
  | cons c rest ih =>
    rw [placed, occurrences, List.map_append, ih]
    split_ifs
    · cases nameAt? rest <;> rfl
    · rfl

theorem mem_placed_iff :
    (i, name) ∈ placed k text ↔ ∃ before rest, text = before ++ '$' :: rest ∧
      nameAt? rest = some name ∧ k + before.length = i := by
  induction text generalizing k with
  | nil => simp [placed]
  | cons c text ih =>
    have hfront : (i, name) ∈
        ((if c = '$' then nameAt? text else none).map fun name => (k, name)).toList ↔
          c = '$' ∧ nameAt? text = some name ∧ k = i := by
      split_ifs with hc
      · simp [hc, and_comm, Prod.ext_iff]
      · simp [hc]
    rw [placed, List.mem_append, hfront, ih]
    constructor
    · rintro (⟨rfl, hname, rfl⟩ | ⟨before, rest, rfl, hname, rfl⟩)
      · exact ⟨[], text, rfl, hname, rfl⟩
      · refine ⟨c :: before, rest, rfl, hname, ?_⟩
        rw [List.length_cons]
        omega
    · rintro ⟨before, rest, heq, hname, hplace⟩
      cases before with
      | nil =>
        cases heq
        exact .inl ⟨rfl, hname, hplace⟩
      | cons b before =>
        cases heq
        refine .inr ⟨before, rest, rfl, hname, ?_⟩
        rw [List.length_cons] at hplace
        omega

/-- The places come in order. -/
theorem pairwise_placed (k : Nat) (text : List Char) :
    (placed k text).Pairwise fun x y => x.1 < y.1 := by
  induction text generalizing k with
  | nil => exact .nil
  | cons c text ih =>
    rw [placed, List.pairwise_append]
    refine ⟨?_, ih (k + 1), fun x hx y hy => ?_⟩
    · cases (if c = '$' then nameAt? text else none) with
      | none => exact .nil
      | some name => exact List.pairwise_singleton _ _
    · obtain ⟨name, -, rfl⟩ := Option.map_eq_some_iff.1 (Option.mem_toList.1 hx)
      obtain ⟨before, rest, -, -, hplace⟩ := mem_placed_iff.1 (show (y.1, y.2) ∈ _ from hy)
      show k < y.1
      omega

/-- Text without a sigil is passed over. -/
theorem placed_append {u : List Char} (hu : '$' ∉ u) (k : Nat) (text : List Char) :
    placed k (u ++ text) = placed (k + u.length) text := by
  induction u generalizing k with
  | nil => rfl
  | cons c u ih =>
    obtain ⟨hc, hu⟩ := not_or.1 (mt List.mem_cons.2 hu)
    rw [List.cons_append, placed, if_neg (Ne.symm hc), ih hu, List.length_cons]
    exact congrArg (placed · text) (by omega)

/-! ## The search for parameters -/

theorem mem_sigilName_iff {w : List Char} :
    w ∈ sigilName.language ↔ ∃ name, isName name = true ∧ w = '$' :: name := by
  rw [sigilName, Pattern.mem_text_seq_iff]
  simp only [mem_namePattern_iff]
  rfl

/-- A sigil with a name behind it, where the name does not go on, is the next match. -/
theorem nextMatch_sigilName {after : List Char} (hname : isName name = true)
    (hafter : after.head?.any Token.isNameChar = false) :
    sigilName.NextMatch ('$' :: (name ++ after)) [] ('$' :: name) after := by
  refine ⟨rfl, mem_sigilName_iff.2 ⟨name, hname, rfl⟩, fun _ _ i hi => absurd hi (by simp),
    fun v hv hfront => ?_⟩
  obtain ⟨other, hother, rfl⟩ := mem_sigilName_iff.1 hv
  rw [List.cons_append, List.cons_prefix_cons] at hfront
  have hle := Token.le_runLength hfront.2 (isNameChar_of_isName hother)
  rw [ExprToken.runLength_append (isNameChar_of_isName hname) hafter] at hle
  exact Nat.succ_le_succ hle

/-- Where no sigil has a name behind it no match begins. -/
theorem not_isPrefix_of_mem_sigilName {c : Char}
    (h : (if c = '$' then nameAt? rest else none) = none) :
    ∀ w ∈ sigilName.language, ¬w <+: c :: rest := by
  intro w hw hfront
  obtain ⟨name, hname, rfl⟩ := mem_sigilName_iff.1 hw
  obtain ⟨rfl, hrest⟩ := List.cons_prefix_cons.1 hfront
  rw [if_pos rfl] at h
  cases rest with
  | nil =>
    rw [List.prefix_nil.1 hrest] at hname
    cases hname
  | cons d rest =>
    cases name with
    | nil => cases hname
    | cons e name =>
      obtain ⟨rfl, -⟩ := List.cons_prefix_cons.1 hrest
      rw [isName, Bool.and_eq_true] at hname
      rw [nameAt?, if_pos hname.1] at h
      cases h

/-- The search finds every sigil that has a name behind it. -/
theorem finds_placed (k : Nat) (text : List Char) :
    sigilName.Finds k text ((placed k text).map fun x => (x.1, '$' :: x.2)) := by
  induction hn : text.length using Nat.strong_induction_on generalizing k text with
  | _ n ih =>
    subst hn
    cases text with
    | nil =>
      refine .done fun w hw hinfix => ?_
      obtain ⟨name, -, rfl⟩ := mem_sigilName_iff.1 hw
      cases List.infix_nil.1 hinfix
    | cons c rest =>
      rw [placed]
      cases hfront : (if c = '$' then nameAt? rest else none) with
      | none =>
        exact (ih rest.length (Nat.lt_succ_self _) (k + 1) rest rfl).cons
          (not_isPrefix_of_mem_sigilName hfront)
      | some name =>
        split_ifs at hfront with hc
        subst hc
        obtain ⟨hname, after, rfl, hafter⟩ := nameAt?_eq_some_iff.1 hfront
        -- The name is passed over: the next sigil stands behind it.
        rw [placed_append (sigil_notMem_of_isName hname)]
        refine .next (nextMatch_sigilName hname hafter) ?_
        have hplace : k + ([] : List Char).length + ('$' :: name).length = k + 1 + name.length := by
          rw [List.length_nil, List.length_cons]
          omega
        rw [hplace]
        refine ih after.length ?_ _ after rfl
        rw [List.length_cons, List.length_append]
        omega

/-! ## First places -/

/-- Of values with places, each value that is kept stands somewhere before all the places of those
kept behind it. -/
theorem pairwise_eraseDups {l : List (Nat × String)} (h : l.Pairwise fun x y => x.1 < y.1) :
    (l.map (·.2)).eraseDups.Pairwise fun a b => ∃ i, (i, a) ∈ l ∧ ∀ j, (j, b) ∈ l → i < j := by
  induction hn : l.length using Nat.strong_induction_on generalizing l with
  | _ n ih =>
    subst hn
    cases l with
    | nil => exact .nil
    | cons x l =>
      obtain ⟨i, a⟩ := x
      obtain ⟨hfirst, hl⟩ := List.pairwise_cons.1 h
      have hfilter : (l.map (·.2)).filter (fun b => !b == a) =
          (l.filter fun x => !x.2 == a).map (·.2) := List.filter_map
      have hne {b : String} (hb : b ∈ ((l.filter fun x => !x.2 == a).map (·.2)).eraseDups) :
          b ≠ a := by
        obtain ⟨y, hy, rfl⟩ := List.mem_map.1 (List.mem_eraseDups.1 hb)
        simpa using (List.mem_filter.1 hy).2
      have hrest := ih _ (Nat.lt_succ_of_le (List.length_filter_le (fun x => !x.2 == a) l))
        (hl.filter _) rfl
      rw [List.map_cons, List.eraseDups_cons, hfilter]
      refine List.pairwise_cons.2 ⟨fun b hb => ⟨i, List.mem_cons_self, fun j hj => ?_⟩, ?_⟩
      · rcases List.mem_cons.1 hj with heq | hj
        · cases heq
          exact absurd rfl (hne hb)
        · exact hfirst _ hj
      · refine hrest.imp_of_mem fun {b c} _ hc hbc => ?_
        obtain ⟨j, hj, hbefore⟩ := hbc
        refine ⟨j, List.mem_cons_of_mem _ (List.mem_of_mem_filter hj), fun m hm => ?_⟩
        rcases List.mem_cons.1 hm with heq | hm
        · cases heq
          exact absurd rfl (hne hc)
        · exact hbefore m (List.mem_filter.2 ⟨hm, by simpa using hne hc⟩)

/-- The parameters of a body as texts, with their places. -/
def placedTexts (body : String) : List (Nat × String) :=
  (placed 0 body.toList).map fun x => (x.1, String.ofList x.2)

theorem params_eq_eraseDups (body : String) :
    params body = ((placedTexts body).map (·.2)).eraseDups := by
  rw [params, ← map_snd_placed 0, placedTexts, List.map_map, List.map_map]
  rfl

theorem mem_placed_iff_occursAt {body name : String} :
    (k, name.toList) ∈ placed 0 body.toList ↔ OccursAt body name k := by
  have hend (after : List Char) : (∀ c ∈ after.head?, [c] ∉ Token.wordCharacter.language) ↔
      after.head?.any Token.isNameChar = false := by
    cases after <;> simp [mem_wordCharacter_iff]
  rw [mem_placed_iff, OccursAt, mem_namePattern_iff]
  simp only [nameAt?_eq_some_iff, hend, Nat.zero_add]
  constructor
  · rintro ⟨before, rest, hbody, ⟨hname, after, rfl, hafter⟩, hplace⟩
    exact ⟨hname, before, after, hbody, hplace, hafter⟩
  · rintro ⟨hname, before, after, hbody, hplace, hafter⟩
    exact ⟨before, _, hbody, ⟨hname, after, rfl, hafter⟩, hplace⟩

theorem mem_placedTexts_iff {body name : String} :
    (k, name) ∈ placedTexts body ↔ OccursAt body name k := by
  rw [← mem_placed_iff_occursAt, placedTexts, List.mem_map]
  constructor
  · rintro ⟨⟨i, text⟩, hmem, heq⟩
    cases heq
    rwa [String.toList_ofList]
  · intro h
    exact ⟨_, h, by rw [String.ofList_toList]⟩

theorem mem_params_iff {body name : String} :
    name ∈ params body ↔ ∃ k, OccursAt body name k := by
  rw [params_eq_eraseDups, List.mem_eraseDups, List.mem_map]
  constructor
  · rintro ⟨⟨k, text⟩, hmem, rfl⟩
    exact ⟨k, mem_placedTexts_iff.1 hmem⟩
  · rintro ⟨k, hk⟩
    exact ⟨(k, name), mem_placedTexts_iff.2 hk, rfl⟩

/-- A parameter stands somewhere before all the places of the parameters behind it. -/
theorem pairwise_params (body : String) :
    (params body).Pairwise fun m n : String =>
      ∃ i, OccursAt body m i ∧ ∀ j, OccursAt body n j → i < j := by
  have hsorted : (placedTexts body).Pairwise fun x y => x.1 < y.1 :=
    List.pairwise_map.2 (pairwise_placed 0 body.toList)
  have horder := pairwise_eraseDups hsorted
  simp only [mem_placedTexts_iff] at horder
  rwa [params_eq_eraseDups]

theorem nodup_params (body : String) : (params body).Nodup := by
  refine (pairwise_params body).imp fun {m n} hmn => ?_
  rintro rfl
  obtain ⟨i, hi, hbefore⟩ := hmn
  exact absurd (hbefore i hi) (Nat.lt_irrefl i)

/-- The parameters come in the order of their first places. -/
theorem pairwise_firstAt (body : String) :
    (params body).Pairwise fun m n : String =>
      ∀ i j, FirstAt body m i → FirstAt body n j → i < j := by
  refine (pairwise_params body).imp fun {m n} hmn i j hi hj => ?_
  obtain ⟨l, hl, hbefore⟩ := hmn
  have hle : i ≤ l := Nat.le_of_not_lt fun hlt => hi.2 l hlt hl
  exact Nat.lt_of_le_of_lt hle (hbefore j hj.1)

/-- What the search finds in a body. -/
def found (body : String) : List (Nat × List Char) :=
  (placed 0 body.toList).map fun x => (x.1, '$' :: x.2)

theorem mem_found_iff {body name : String} :
    (k, '$' :: name.toList) ∈ found body ↔ OccursAt body name k := by
  rw [← mem_placed_iff_occursAt, found, List.mem_map]
  constructor
  · rintro ⟨⟨i, text⟩, hmem, heq⟩
    cases heq
    exact hmem
  · intro h
    exact ⟨_, h, rfl⟩

/-- The parameters of a body have no duplicates, and are the names that stand behind a sigil
somewhere and do not go on there, in the order of their first places. A search from left to right
that goes on behind each match finds all those places and nothing else, and the parameters are what
it finds, each name once. -/
theorem params_exact (body : String) :
    (params body).Nodup ∧
    (∀ name, name ∈ params body ↔ ∃ k, OccursAt body name k) ∧
    ((params body).Pairwise fun m n : String =>
      ∀ i j, FirstAt body m i → FirstAt body n j → i < j) ∧
    ∃ found : List (Nat × List Char),
      (∀ found', sigilName.Finds 0 body.toList found' ↔ found' = found) ∧
      (∀ k (name : String), (k, '$' :: name.toList) ∈ found ↔ OccursAt body name k) ∧
      params body = (found.map fun x => String.ofList x.2.tail).eraseDups := by
  have hfinds := finds_placed 0 body.toList
  refine ⟨nodup_params body, fun _ => mem_params_iff, pairwise_firstAt body, found body,
    fun found' => ⟨fun h => h.unique hfinds, ?_⟩, fun _ _ => mem_found_iff, ?_⟩
  · rintro rfl
    exact hfinds
  · rw [params_eq_eraseDups, placedTexts, found, List.map_map, List.map_map]
    rfl

example : params "$$id $1 $id1, $id" = ["id", "id1"] := by decide

end QueryBody

end QuerySuite
