import Mathlib.Data.List.Induction
import Mathlib.Logic.ExistsUnique
import Mathlib.Tactic.SplitIfs
import QuerySuite.Suite.Attach

/-!
# What comments speak of

Given the places of nodes in some order, a comment trails the first of them that ends on its
line, before it. A comment that trails none leads the closest of those that start after it, the
first of several. Places may occur more than once; the index of the first is meant.

Results:

* `pointsAt_trailing`, `pointsAt_leading`: the places that are found are those at these indices.
* `PointsAt.iff_eq_some`: the index is told by the place and by its being the first with that place.
* `isSome_trailingTarget`, `isSome_openTarget`: which comments trail a place, and which lead one.
-/

namespace QuerySuite

/-! ## Places around a comment -/

namespace Span

/-- The place ends on the line of the comment, at its start or before it. -/
def EndsBefore (p : Span) (c : Trivia) : Prop :=
  p.stop.line = c.span.start.line ∧ p.stop.offset ≤ c.span.start.offset

instance (p : Span) (c : Trivia) : Decidable (p.EndsBefore c) :=
  inferInstanceAs (Decidable (_ ∧ _))

/-- The place starts where the comment ends or behind it. -/
def StartsAfter (p : Span) (c : Trivia) : Prop := c.span.stop.offset ≤ p.start.offset

instance (p : Span) (c : Trivia) : Decidable (p.StartsAfter c) :=
  inferInstanceAs (Decidable (_ ≤ _))

end Span

/-- The comment trails the place at the index `i`: the first that ends on its line, before it. -/
def Trails (places : List Span) (i : Nat) (c : Trivia) : Prop :=
  (∃ p ∈ places[i]?, p.EndsBefore c) ∧ ∀ q ∈ places.take i, ¬ q.EndsBefore c

instance (places : List Span) (i : Nat) (c : Trivia) : Decidable (Trails places i c) :=
  inferInstanceAs (Decidable (_ ∧ _))

/-- Of the places that start after the comment, none starts before `p`, and those before the index
`i` start behind it. -/
structure ClosestAt (places : List Span) (i : Nat) (c : Trivia) (p : Span) : Prop where
  after : p.StartsAfter c
  least : ∀ q ∈ places, q.StartsAfter c → p.start.offset ≤ q.start.offset
  first : ∀ q ∈ places.take i, q.StartsAfter c → p.start.offset < q.start.offset

instance (places : List Span) (i : Nat) (c : Trivia) (p : Span) :
    Decidable (ClosestAt places i c p) :=
  decidable_of_iff (p.StartsAfter c ∧
      (∀ q ∈ places, q.StartsAfter c → p.start.offset ≤ q.start.offset) ∧
      ∀ q ∈ places.take i, q.StartsAfter c → p.start.offset < q.start.offset)
    ⟨fun h => ⟨h.1, h.2.1, h.2.2⟩, fun h => ⟨h.after, h.least, h.first⟩⟩

/-- The comment leads the place at the index `i`: it trails no place, and of those that start after
it this is the closest, the first of several. -/
def Leads (places : List Span) (i : Nat) (c : Trivia) : Prop :=
  (∀ q ∈ places, ¬ q.EndsBefore c) ∧ ∃ p ∈ places[i]?, ClosestAt places i c p

instance (places : List Span) (i : Nat) (c : Trivia) : Decidable (Leads places i c) :=
  inferInstanceAs (Decidable (_ ∧ _))

/-! ## Places and indices -/

/-- The place `target` stands for the index that `Q` holds of, the first with this place. -/
structure PointsAt (places : List Span) (target : Option Span) (Q : Nat → Prop) : Prop where
  found : ∀ p, target = some p → ∃ i, Q i ∧ places[i]? = some p
  missed : target = none → ∀ i, ¬ Q i
  inside : ∀ i, Q i → ∃ p, places[i]? = some p
  first : ∀ i j, Q i → Q j → i ≤ j
  fresh : ∀ i p, Q i → places[i]? = some p → p ∉ places.take i

theorem le_of_not_mem_take {places : List Span} {i j : Nat} {p : Span} (hi : places[i]? = some p)
    (hj : p ∉ places.take j) : j ≤ i := by
  by_contra hlt
  have hget : (places.take j)[i]? = some p := by
    rw [List.getElem?_take_of_lt (by omega), hi]
  exact hj (List.mem_of_getElem? hget)

theorem PointsAt.unique {places : List Span} {target : Option Span} {Q : Nat → Prop}
    (h : PointsAt places target Q) {i j : Nat} (hi : Q i) (hj : Q j) : i = j :=
  Nat.le_antisymm (h.first i j hi hj) (h.first j i hj hi)

/-- The index is told by the place and by its being the first with that place. -/
theorem PointsAt.iff_eq_some {places : List Span} {target : Option Span} {Q : Nat → Prop}
    (h : PointsAt places target Q) {i : Nat} {p : Span} (hi : places[i]? = some p) :
    Q i ↔ target = some p ∧ p ∉ places.take i := by
  constructor
  · intro hq
    refine ⟨?_, h.fresh i p hq hi⟩
    cases target with
    | none => exact absurd hq (h.missed rfl i)
    | some q =>
      obtain ⟨j, hj, hplace⟩ := h.found q rfl
      obtain rfl := h.unique hq hj
      exact hplace.symm.trans hi
  · rintro ⟨htarget, hfresh⟩
    obtain ⟨j, hj, hplace⟩ := h.found p htarget
    have hij := le_of_not_mem_take hplace hfresh
    have hji := le_of_not_mem_take hi (h.fresh j p hj hplace)
    obtain rfl : i = j := by omega
    exact hj

theorem PointsAt.existsUnique {places : List Span} {target : Option Span} {Q : Nat → Prop}
    (h : PointsAt places target Q) (htarget : target.isSome = true) : ∃! i, Q i := by
  obtain ⟨p, hp⟩ := Option.isSome_iff_exists.1 htarget
  obtain ⟨i, hi, -⟩ := h.found p hp
  exact ⟨i, hi, fun j hj => h.unique hj hi⟩

section Comment

variable (places : List Span) (c : Trivia)

/-! ## Trailing comments -/

theorem trailingTarget_eq :
    trailingTarget places c = places.find? fun p => decide (p.EndsBefore c) := by
  refine congrArg (places.find? ·) (funext fun p => ?_)
  rw [Bool.eq_iff_iff, Bool.and_eq_true, beq_iff_eq, decide_eq_true_iff, decide_eq_true_iff]
  rfl

theorem isSome_trailingTarget :
    (trailingTarget places c).isSome = true ↔ ∃ p ∈ places, p.EndsBefore c := by
  simp [trailingTarget_eq]

/-- The place that a comment trails is the one at the index it trails. -/
theorem pointsAt_trailing : PointsAt places (trailingTarget places c) (Trails places · c) := by
  refine ⟨?_, ?_, ?_, ?_, ?_⟩
  · intro p hp
    rw [trailingTarget_eq] at hp
    obtain ⟨hends, before, after, rfl, hbefore⟩ := List.find?_eq_some_iff_append.1 hp
    refine ⟨before.length, ⟨⟨p, by simp, of_decide_eq_true hends⟩, ?_⟩, by simp⟩
    rw [List.take_left]
    intro q hq
    simpa using hbefore q hq
  · intro hnone i htrails
    obtain ⟨⟨p, hp, hends⟩, -⟩ := htrails
    have hsome := (isSome_trailingTarget places c).2 ⟨p, List.mem_of_getElem? hp, hends⟩
    rw [hnone] at hsome
    cases hsome
  · rintro i ⟨⟨p, hp, -⟩, -⟩
    exact ⟨p, hp⟩
  · rintro i j ⟨-, hfirst⟩ ⟨⟨p, hp, hends⟩, -⟩
    exact le_of_not_mem_take hp fun hmem => hfirst p hmem hends
  · rintro i p ⟨⟨q, hq, hends⟩, hfirst⟩ hp hmem
    obtain rfl : q = p := Option.some_inj.1 (hq.symm.trans hp)
    exact hfirst q hmem hends

/-! ## Leading comments -/

variable {places c}

/-- One more place that is no closer changes nothing. -/
theorem ClosestAt.concat {i : Nat} {p q : Span} (h : ClosestAt places i c p)
    (hi : places[i]? = some p) (hq : q.StartsAfter c → p.start.offset ≤ q.start.offset) :
    ClosestAt (places ++ [q]) i c p := by
  have hlt : i < places.length := (List.getElem?_eq_some_iff.1 hi).1
  refine ⟨h.after, ?_, ?_⟩
  · rw [List.forall_mem_append]
    exact ⟨h.least, List.forall_mem_singleton.2 hq⟩
  · rw [List.take_append_of_le_length (Nat.le_of_lt hlt)]
    exact h.first

/-- One more place that is closer than all before it is the closest. -/
theorem ClosestAt.last {q : Span} (hafter : q.StartsAfter c)
    (h : ∀ p ∈ places, p.StartsAfter c → q.start.offset < p.start.offset) :
    ClosestAt (places ++ [q]) places.length c q := by
  refine ⟨hafter, ?_, ?_⟩
  · rw [List.forall_mem_append]
    exact ⟨fun p hp hp' => Nat.le_of_lt (h p hp hp'),
      List.forall_mem_singleton.2 fun _ => Nat.le_refl _⟩
  · rw [List.take_left]
    exact h

variable (places c)

/-- The loop over the places finds the closest of those that start after the comment. -/
theorem leadingTarget_spec :
    (leadingTarget places c = none → ∀ p ∈ places, ¬ p.StartsAfter c) ∧
      ∀ p, leadingTarget places c = some p → ∃ i, places[i]? = some p ∧ ClosestAt places i c p := by
  induction places using List.reverseRecOn with
  | nil => exact ⟨by simp, by simp [leadingTarget]⟩
  | append_singleton places q ih =>
    obtain ⟨hnone, hsome⟩ := ih
    have hstep : leadingTarget (places ++ [q]) c = closer c (leadingTarget places c) q := by
      rw [leadingTarget, leadingTarget, List.foldl_append, List.foldl_cons, List.foldl_nil]
    have hlast : (places ++ [q])[places.length]? = some q := by simp
    have hkeep {i : Nat} {p : Span} (hi : places[i]? = some p) :
        (places ++ [q])[i]? = some p := by
      rw [List.getElem?_append_left (List.getElem?_eq_some_iff.1 hi).1, hi]
    rw [hstep]
    unfold closer
    split_ifs with hq
    · -- The place starts before the comment ends.
      have hq : ¬ q.StartsAfter c := by
        unfold Span.StartsAfter
        omega
      refine ⟨fun h => ?_, fun p hp => ?_⟩
      · rw [List.forall_mem_append]
        exact ⟨hnone h, List.forall_mem_singleton.2 hq⟩
      · obtain ⟨i, hi, hclosest⟩ := hsome p hp
        exact ⟨i, hkeep hi, hclosest.concat hi fun h => absurd h hq⟩
    · have hq : q.StartsAfter c := Nat.le_of_not_lt hq
      cases hbest : leadingTarget places c with
      | none =>
        refine ⟨by simp, fun p hp => ?_⟩
        obtain rfl : q = p := Option.some_inj.1 hp
        exact ⟨_, hlast, .last hq fun p hp hp' => absurd hp' (hnone hbest p hp)⟩
      | some b =>
        obtain ⟨i, hi, hclosest⟩ := hsome b hbest
        dsimp only
        split_ifs with hle
        · refine ⟨by simp, fun p hp => ?_⟩
          obtain rfl : b = p := Option.some_inj.1 hp
          exact ⟨i, hkeep hi, hclosest.concat hi fun _ => hle⟩
        · refine ⟨by simp, fun p hp => ?_⟩
          obtain rfl : q = p := Option.some_inj.1 hp
          refine ⟨_, hlast, .last hq fun p hp hp' => ?_⟩
          have hleast := hclosest.least p hp hp'
          omega

/-- The place that a comment leads, if it trails none. -/
def openTarget : Option Span :=
  if (trailingTarget places c).isSome then none else leadingTarget places c

theorem isSome_openTarget : (openTarget places c).isSome = true ↔
    (∀ p ∈ places, ¬ p.EndsBefore c) ∧ ∃ p ∈ places, p.StartsAfter c := by
  have hends := isSome_trailingTarget places c
  obtain ⟨hnone, hsome⟩ := leadingTarget_spec places c
  unfold openTarget
  split_ifs with h
  · obtain ⟨p, hp, hp'⟩ := hends.1 h
    refine iff_of_false (by simp) fun hopen => hopen.1 p hp hp'
  · have hopen : ∀ p ∈ places, ¬ p.EndsBefore c := fun p hp hp' => h (hends.2 ⟨p, hp, hp'⟩)
    constructor
    · intro hlead
      obtain ⟨p, hp⟩ := Option.isSome_iff_exists.1 hlead
      obtain ⟨i, hi, hclosest⟩ := hsome p hp
      exact ⟨hopen, p, List.mem_of_getElem? hi, hclosest.after⟩
    · rintro ⟨-, p, hp, hafter⟩
      by_contra hlead
      exact hnone (Option.not_isSome_iff_eq_none.1 hlead) p hp hafter

/-- The place that a comment leads is the one at the index it leads. -/
theorem pointsAt_leading : PointsAt places (openTarget places c) (Leads places · c) := by
  refine ⟨?_, ?_, ?_, ?_, ?_⟩
  · intro p hp
    obtain ⟨hopen, -⟩ := (isSome_openTarget places c).1 (by rw [hp]; rfl)
    unfold openTarget at hp
    split_ifs at hp
    obtain ⟨i, hi, hclosest⟩ := (leadingTarget_spec places c).2 p hp
    exact ⟨i, ⟨hopen, p, hi, hclosest⟩, hi⟩
  · rintro hnone i ⟨hopen, p, hp, hclosest⟩
    have hsome := (isSome_openTarget places c).2
      ⟨hopen, p, List.mem_of_getElem? hp, hclosest.after⟩
    rw [hnone] at hsome
    cases hsome
  · rintro i ⟨-, p, hp, -⟩
    exact ⟨p, hp⟩
  · rintro i j ⟨-, p, hp, hi⟩ ⟨-, q, hq, hj⟩
    refine le_of_not_mem_take hq fun hmem => ?_
    have hlt := hi.first q hmem hj.after
    have hle := hj.least p (List.mem_of_getElem? hp) hi.after
    omega
  · rintro i p ⟨-, q, hq, hi⟩ hp hmem
    obtain rfl : q = p := Option.some_inj.1 (hq.symm.trans hp)
    exact Nat.lt_irrefl _ (hi.first q hmem hi.after)

end Comment

end QuerySuite
