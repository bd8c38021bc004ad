import Mathlib
import QuerySuite.QueryBody

/-!
# Items outside of brackets

A clause is cut at the commas at depth zero, where every kind of bracket counts alike. Cutting loses
nothing. In a clause that closes no bracket before it opened one, and in the end all of them, the
depth is zero at every cut, so the items are clauses of that kind again, none of them holds a comma
outside of its brackets, and there is no other way to cut the clause like this.

The items can be found in one pass over the encoded text, with the depth in a word of 32 bits: if
the brackets are fewer than 2³¹, the depth does not overflow, and the ranges of bytes that are noted
begin and end between characters.

Results:

* `QueryBody.splitTop_settles`: the items of a clause that settles, from any depth on.
* `QueryBody.length_splitTop`: one item more than commas at depth zero.
* `QueryBody.splitTop_intercalate_of_settles`: items without commas outside of brackets are found
  again.
* `QueryBody.Cutter.run_spec`: the pass over the bytes finds the items.
* `QueryBody.items_respect_brackets`: all of this for whole clauses.
-/

namespace QuerySuite.QueryBody

/-! ## Depth -/

/-- The depth behind a text, if it is `depth` before it. -/
def depthAfter (depth : Int) : List Char → Int
  | [] => depth
  | c :: text => depthAfter (depth + depthChange c) text

/-- From `depth` on, the text never closes below zero, and it ends at zero. -/
structure Settles (depth : Int) (text : List Char) : Prop where
  nonneg : ∀ front, front <+: text → 0 ≤ depthAfter depth front
  ends : depthAfter depth text = 0

/-- Where in the text, which begins at `depth`, commas stand outside of brackets. -/
def topCommas (depth : Int) (text : List Char) : List Nat :=
  (List.range text.length).filter fun i => text[i]? = some ',' ∧ depthAfter depth (text.take i) = 0

theorem depthChange_comma : depthChange ',' = 0 := by decide

theorem settles_nil_iff {depth : Int} : Settles depth [] ↔ depth = 0 := by
  refine ⟨fun h => h.ends, fun h => ⟨fun front hfront => ?_, h⟩⟩
  rw [List.prefix_nil.1 hfront, depthAfter, h]

theorem settles_cons_iff {depth : Int} {c : Char} {text : List Char} :
    Settles depth (c :: text) ↔ 0 ≤ depth ∧ Settles (depth + depthChange c) text := by
  constructor
  · intro h
    refine ⟨h.nonneg [] List.nil_prefix, fun front hfront => ?_, h.ends⟩
    exact h.nonneg (c :: front) (List.cons_prefix_cons.2 ⟨rfl, hfront⟩)
  · rintro ⟨hdepth, h⟩
    refine ⟨fun front hfront => ?_, h.ends⟩
    rcases List.prefix_cons_iff.1 hfront with rfl | ⟨front', rfl, hfront'⟩
    · exact hdepth
    · exact h.nonneg front' hfront'

instance decidableSettles : (depth : Int) → (text : List Char) → Decidable (Settles depth text)
  | _, [] => decidable_of_iff _ settles_nil_iff.symm
  | depth, c :: text =>
    have := decidableSettles (depth + depthChange c) text
    decidable_of_iff _ settles_cons_iff.symm

theorem topCommas_cons (depth : Int) (c : Char) (text : List Char) :
    topCommas depth (c :: text) =
      (if c = ',' ∧ depth = 0 then [0] else []) ++
        (topCommas (depth + depthChange c) text).map (· + 1) := by
  have hrest : (List.range text.length).filter ((fun i => decide ((c :: text)[i]? = some ',' ∧
        depthAfter depth ((c :: text).take i) = 0)) ∘ (· + 1)) =
      topCommas (depth + depthChange c) text := by
    refine List.filter_congr fun i _ => ?_
    simp only [Function.comp_apply, List.getElem?_cons_succ, List.take_succ_cons, depthAfter]
  rw [topCommas, List.length_cons, List.range_succ_eq_map, List.filter_cons, List.filter_map, hrest]
  simp only [List.getElem?_cons_zero, Option.some_inj, List.take_zero, depthAfter,
    decide_eq_true_eq]
  split_ifs <;> rfl

/-! ## Cutting -/

/-- Puts a text before the first of some items. -/
def prepend (text : List Char) : List (List Char) → List (List Char)
  | [] => [text]
  | item :: items => (text ++ item) :: items

theorem prepend_nil {items : List (List Char)} (h : items ≠ []) : prepend [] items = items := by
  cases items with
  | nil => exact absurd rfl h
  | cons item items => rfl

theorem prepend_append (u v : List Char) (items : List (List Char)) :
    prepend (u ++ v) items = prepend u (prepend v items) := by
  cases items with
  | nil => rfl
  | cons item items => rw [prepend, prepend, prepend, List.append_assoc]

theorem splitTop_comma (text : List Char) : splitTop 0 (',' :: text) = [] :: splitTop 0 text := by
  rw [splitTop, if_pos ⟨rfl, rfl⟩]

theorem splitTop_cons {depth : Int} {c : Char} (h : ¬(c = ',' ∧ depth = 0)) (text : List Char) :
    splitTop depth (c :: text) = prepend [c] (splitTop (depth + depthChange c) text) := by
  rw [splitTop, if_neg h]
  cases splitTop (depth + depthChange c) text <;> rfl

/-- There is one item more than there are commas at depth zero. -/
theorem length_splitTop (depth : Int) (text : List Char) :
    (splitTop depth text).length = (topCommas depth text).length + 1 := by
  induction text generalizing depth with
  | nil => rfl
  | cons c text ih =>
    rw [topCommas_cons, List.length_append, List.length_map]
    by_cases hcut : c = ',' ∧ depth = 0
    · obtain ⟨rfl, rfl⟩ := hcut
      rw [splitTop_comma, List.length_cons, ih, if_pos ⟨rfl, rfl⟩, depthChange_comma, Int.add_zero,
        List.length_singleton, Nat.add_comm 1]
    · have hprepend (items : List (List Char)) (h : items ≠ []) :
          (prepend [c] items).length = items.length := by
        cases items with
        | nil => exact absurd rfl h
        | cons item items => rfl
      rw [splitTop_cons hcut, hprepend _ (splitTop_ne_nil _ text), ih, if_neg hcut,
        List.length_nil, Nat.zero_add]

/-- The items of a text that settles. The first goes on at the depth at which the text begins; the
others begin at zero. -/
theorem splitTop_settles {depth : Int} {text : List Char} (h : Settles depth text) :
    ∃ first rest, splitTop depth text = first :: rest ∧
      (Settles depth first ∧ topCommas depth first = []) ∧
      ∀ item ∈ rest, Settles 0 item ∧ topCommas 0 item = [] := by
  induction text generalizing depth with
  | nil => exact ⟨[], [], rfl, ⟨h, rfl⟩, by simp⟩
  | cons c text ih =>
    obtain ⟨hdepth, htext⟩ := settles_cons_iff.1 h
    obtain ⟨first, rest, hsplit, hfirst, hrest⟩ := ih htext
    by_cases hcut : c = ',' ∧ depth = 0
    · obtain ⟨rfl, rfl⟩ := hcut
      rw [depthChange_comma, Int.add_zero] at hsplit hfirst
      refine ⟨[], first :: rest, by rw [splitTop_comma, hsplit], ⟨settles_nil_iff.2 rfl, rfl⟩, ?_⟩
      exact List.forall_mem_cons.2 ⟨hfirst, hrest⟩
    · refine ⟨c :: first, rest, by rw [splitTop_cons hcut, hsplit]; rfl, ⟨?_, ?_⟩, hrest⟩
      · exact settles_cons_iff.2 ⟨hdepth, hfirst.1⟩
      · rw [topCommas_cons, if_neg hcut, hfirst.2]
        rfl

/-- A text that settles and has no comma outside of brackets is not cut; the comma behind it is
where it ends. -/
theorem splitTop_append {depth : Int} {item : List Char} (h : Settles depth item)
    (hcommas : topCommas depth item = []) (text : List Char) :
    splitTop depth (item ++ ',' :: text) = item :: splitTop 0 text := by
  induction item generalizing depth with
  | nil =>
    obtain rfl := settles_nil_iff.1 h
    exact splitTop_comma text
  | cons c item ih =>
    rw [topCommas_cons, List.append_eq_nil_iff, List.map_eq_nil_iff] at hcommas
    have hcut : ¬(c = ',' ∧ depth = 0) := fun hcut => by simp [hcut] at hcommas
    rw [List.cons_append, splitTop_cons hcut, ih (settles_cons_iff.1 h).2 hcommas.2]
    rfl

theorem splitTop_of_settles {depth : Int} {item : List Char} (h : Settles depth item)
    (hcommas : topCommas depth item = []) : splitTop depth item = [item] := by
  obtain ⟨first, rest, hsplit, -, -⟩ := splitTop_settles h
  have hlength := length_splitTop depth item
  rw [hcommas, hsplit] at hlength
  obtain rfl : rest = [] := List.eq_nil_of_length_eq_zero (by simpa using hlength)
  have hjoin := intercalate_splitTop depth item
  rw [hsplit] at hjoin
  rw [hsplit, ← hjoin, List.intercalate_singleton]

/-- Items that settle and have no commas outside of brackets are found again. -/
theorem splitTop_intercalate_of_settles {items : List (List Char)} (hne : items ≠ [])
    (h : ∀ item ∈ items, Settles 0 item ∧ topCommas 0 item = []) :
    splitTop 0 ([','].intercalate items) = items := by
  induction items with
  | nil => exact absurd rfl hne
  | cons item items ih =>
    obtain ⟨⟨hsettles, hcommas⟩, hitems⟩ := List.forall_mem_cons.1 h
    by_cases hnil : items = []
    · rw [hnil, List.intercalate_singleton]
      exact splitTop_of_settles hsettles hcommas
    · rw [Text.intercalate_cons ',' item hnil, splitTop_append hsettles hcommas, ih hnil hitems]

/-- A text without brackets and commas settles, and has no comma outside of brackets. -/
theorem settles_of_plain {item : List Char} (h : ∀ c ∈ item, depthChange c = 0 ∧ c ≠ ',') :
    Settles 0 item ∧ topCommas 0 item = [] := by
  induction item with
  | nil => exact ⟨settles_nil_iff.2 rfl, rfl⟩
  | cons c item ih =>
    obtain ⟨⟨hdepth, hcomma⟩, hitem⟩ := List.forall_mem_cons.1 h
    obtain ⟨hsettles, hcommas⟩ := ih hitem
    rw [settles_cons_iff, topCommas_cons, hdepth, Int.add_zero, hcommas,
      if_neg fun hcut => hcomma hcut.1]
    exact ⟨⟨le_rfl, hsettles⟩, rfl⟩

/-! ## One pass over the bytes -/

/-- A bracket of any kind. -/
def isBracket (c : Char) : Bool := depthChange c != 0

/-- The bytes of a text. -/
def byteSize (text : List Char) : Nat := (String.ofList text).utf8ByteSize

/-- The range of bytes of `text` begins and ends between characters, and holds `part`. -/
def IsSlice (text : List Char) (range : Nat × Nat) (part : List Char) : Prop :=
  ∃ before after, text = before ++ (part ++ after) ∧
    range = (byteSize before, byteSize before + byteSize part)

theorem byteSize_append (u v : List Char) : byteSize (u ++ v) = byteSize u + byteSize v := by
  rw [byteSize, String.ofList_append, String.utf8ByteSize_append]
  rfl

theorem byteSize_singleton (c : Char) : byteSize [c] = c.utf8Size := by
  rw [byteSize, ← String.singleton_eq_ofList, String.utf8ByteSize_singleton]

theorem natAbs_depthChange (c : Char) :
    (depthChange c).natAbs = if isBracket c then 1 else 0 := by
  unfold isBracket depthChange
  split_ifs <;> simp_all

/-- What is known while the characters of a text are passed: the ranges of the items that are
complete, the depth, where the next item starts, and where the next character stands. -/
structure Cutter where
  ranges : List (Nat × Nat)
  depth : Int32
  start : Nat
  index : Nat

namespace Cutter

/-- The depth behind a character, unless it overflows. -/
def deepen? (depth : Int32) (c : Char) : Option Int32 :=
  let sum := depth.toInt + depthChange c
  if -2 ^ 31 ≤ sum ∧ sum < 2 ^ 31 then some (Int32.ofInt sum) else none

/-- Passes one character. A comma takes up a single byte. -/
def step? (s : Cutter) (c : Char) : Option Cutter :=
  if c = ',' ∧ s.depth = 0 then
    some { s with
      ranges := s.ranges ++ [(s.start, s.index)], start := s.index + 1,
      index := s.index + c.utf8Size }
  else (deepen? s.depth c).map fun depth => { s with depth, index := s.index + c.utf8Size }

/-- The ranges in the end: the last item reaches to the end of the text. -/
def finish (s : Cutter) : List (Nat × Nat) := s.ranges ++ [(s.start, s.index)]

/-- The ranges of the items of a text. There are none if the depth overflows on the way. -/
def run? (text : List Char) : Option (List (Nat × Nat)) :=
  (text.foldlM step? ⟨[], 0, 0, 0⟩).map finish

/-- The depth behind a character does not overflow if the brackets that are left are few enough. -/
theorem deepen?_eq {depth : Int32} {c : Char} {text : List Char}
    (h : depth.toInt.natAbs + (c :: text).countP isBracket < 2 ^ 31) :
    ∃ next, deepen? depth c = some next ∧ next.toInt = depth.toInt + depthChange c ∧
      next.toInt.natAbs + text.countP isBracket < 2 ^ 31 := by
  rw [List.countP_cons, ← natAbs_depthChange] at h
  have hlow : -2 ^ 31 ≤ depth.toInt + depthChange c := by omega
  have hhigh : depth.toInt + depthChange c < 2 ^ 31 := by omega
  have hnext := Int32.toInt_ofInt_of_le hlow hhigh
  exact ⟨_, if_pos ⟨hlow, hhigh⟩, hnext, by omega⟩

/-- Where the pass stands in a text: `done` are the items that are complete, `current` is what was
read of the next one, and `rest` is still to be read. -/
structure At (s : Cutter) (text : List Char) (done : List (List Char))
    (before current rest : List Char) : Prop where
  text_eq : text = before ++ (current ++ rest)
  slices : List.Forall₂ (IsSlice text) s.ranges done
  start : s.start = byteSize before
  index : s.index = byteSize before + byteSize current

variable {s : Cutter} {text before current rest : List Char} {done : List (List Char)}

/-- The range up to the next character holds what was read of the item. -/
theorem At.slices_finish (h : s.At text done before current rest) :
    List.Forall₂ (IsSlice text) (s.ranges ++ [(s.start, s.index)]) (done ++ [current]) := by
  refine List.rel_append h.slices (.cons ⟨before, rest, h.text_eq, ?_⟩ .nil)
  rw [h.start, h.index]

/-- One character: a comma at depth zero completes the item, any other character belongs to it. -/
theorem At.step {c : Char} (h : s.At text done before current (c :: rest))
    (hsmall : s.depth.toInt.natAbs + (c :: rest).countP isBracket < 2 ^ 31) :
    ∃ s' done' before' current', s.step? c = some s' ∧ s'.At text done' before' current' rest ∧
      s'.depth.toInt.natAbs + rest.countP isBracket < 2 ^ 31 ∧
      done' ++ prepend current' (splitTop s'.depth.toInt rest) =
        done ++ prepend current (splitTop s.depth.toInt (c :: rest)) := by
  have hzero : s.depth = 0 ↔ s.depth.toInt = 0 := by rw [← Int32.toInt_inj, Int32.toInt_zero]
  by_cases hcut : c = ',' ∧ s.depth = 0
  · obtain ⟨rfl, hdepth⟩ := hcut
    refine ⟨_, done ++ [current], before ++ (current ++ [',']), [], if_pos ⟨rfl, hdepth⟩,
      ⟨?_, h.slices_finish, ?_, ?_⟩, ?_, ?_⟩
    · rw [h.text_eq, List.append_assoc, List.append_assoc]
      rfl
    · rw [byteSize_append, byteSize_append, byteSize_singleton, ← Nat.add_assoc, ← h.index]
      rfl
    · rw [byteSize_append, byteSize_append, byteSize_singleton, ← Nat.add_assoc, ← h.index]
      rfl
    · rw [List.countP_cons] at hsmall
      exact Nat.lt_of_le_of_lt (Nat.add_le_add_left (Nat.le_add_right _ _) _) hsmall
    · dsimp only
      rw [hzero.1 hdepth, splitTop_comma, prepend_nil (splitTop_ne_nil _ rest), prepend,
        List.append_nil, List.append_assoc]
      rfl
  · obtain ⟨next, hdeepen, hnext, hsmall'⟩ := deepen?_eq hsmall
    refine ⟨{ s with depth := next, index := s.index + c.utf8Size }, done, before, current ++ [c],
      ?_, ⟨?_, h.slices, h.start, ?_⟩, hsmall', ?_⟩
    · rw [step?, if_neg hcut, hdeepen]
      rfl
    · rw [h.text_eq, List.append_assoc]
      rfl
    · rw [byteSize_append, byteSize_singleton, ← Nat.add_assoc, ← h.index]
    · rw [hzero] at hcut
      dsimp only
      rw [splitTop_cons hcut, prepend_append, hnext]

/-- From any place on, the pass goes on to the end of the text and finds the items. -/
theorem At.run (h : s.At text done before current rest)
    (hsmall : s.depth.toInt.natAbs + rest.countP isBracket < 2 ^ 31) :
    ∃ ranges, (rest.foldlM step? s).map finish = some ranges ∧
      List.Forall₂ (IsSlice text) ranges
        (done ++ prepend current (splitTop s.depth.toInt rest)) := by
  induction rest generalizing s done before current with
  | nil =>
    refine ⟨s.finish, rfl, ?_⟩
    have hslices := h.slices_finish
    rwa [← List.append_nil current] at hslices
  | cons c rest ih =>
    obtain ⟨s', done', before', current', hstep, hat, hsmall', hitems⟩ := h.step hsmall
    obtain ⟨ranges, hrun, hslices⟩ := ih hat hsmall'
    rw [hitems] at hslices
    refine ⟨ranges, ?_, hslices⟩
    rw [List.foldlM_cons, hstep]
    exact hrun

/-- The pass over the bytes finds the items, if the brackets are fewer than 2³¹. -/
theorem run_spec (h : text.countP isBracket < 2 ^ 31) :
    ∃ ranges, run? text = some ranges ∧ List.Forall₂ (IsSlice text) ranges (splitTop 0 text) := by
  have hat : (⟨[], 0, 0, 0⟩ : Cutter).At text [] [] [] text := ⟨rfl, .nil, rfl, rfl⟩
  obtain ⟨ranges, hrun, hslices⟩ := hat.run (by simpa using h)
  refine ⟨ranges, hrun, ?_⟩
  rwa [List.nil_append, prepend_nil (splitTop_ne_nil _ text)] at hslices

end Cutter

/-- Cutting a clause into items loses nothing, and with fewer than 2³¹ brackets the items are found
in one pass over the bytes. If the brackets of the clause are never closed below depth zero and end
at zero, the same is true of every item, and no item holds a comma at depth zero; there is one item
more than commas outside of brackets, and no other way to cut the clause. -/
theorem items_respect_brackets (text : List Char) :
    [','].intercalate (splitTop 0 text) = text ∧
      (text.countP isBracket < 2 ^ 31 → ∃ ranges, Cutter.run? text = some ranges ∧
        List.Forall₂ (IsSlice text) ranges (splitTop 0 text)) ∧
      (Settles 0 text →
        (∀ item ∈ splitTop 0 text, Settles 0 item ∧ topCommas 0 item = []) ∧
        (splitTop 0 text).length = (topCommas 0 text).length + 1 ∧
        ∀ items ≠ [], [','].intercalate items = text →
          (∀ item ∈ items, Settles 0 item ∧ topCommas 0 item = []) → items = splitTop 0 text) := by
  refine ⟨intercalate_splitTop 0 text, Cutter.run_spec, fun h => ⟨?_, length_splitTop 0 text, ?_⟩⟩
  · obtain ⟨first, rest, hsplit, hfirst, hrest⟩ := splitTop_settles h
    rw [hsplit]
    exact List.forall_mem_cons.2 ⟨hfirst, hrest⟩
  · rintro items hne rfl hitems
    exact (splitTop_intercalate_of_settles hne hitems).symm

example : Settles 0 "f(b, [c]), d".toList ∧
    splitTop 0 "f(b, [c]), d".toList = ["f(b, [c])".toList, " d".toList] := by decide

-- A bracket that is closed before it is opened is left in an item that does not settle.
example : splitTop 0 "a)(,b".toList = ["a)(".toList, "b".toList] ∧ ¬Settles 0 "a)(".toList := by
  decide

end QuerySuite.QueryBody
