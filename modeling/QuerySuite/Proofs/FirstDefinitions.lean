import Mathlib.Data.List.Induction
import Mathlib.Data.List.Nodup
import Mathlib.Tactic.SplitIfs
import QuerySuite.Validation

/-!
# First definitions

Of several definitions of one name the first counts. Tables leave out the others, validation tells
of them, and a lookup in the list of all definitions stops at the first. All three agree on which
one that is: the member of the list whose key no member before it has.

Results:

* `Symbol.keepFirst_eq_firsts`: what a table keeps.
* `Validator.repeated_eq_repeats`: what validation tells of.
* `Symbol.find?_firsts`: what a lookup finds.
* `Symbol.exists_repeats_iff`: where members can be told apart by a mark, a member is a repetition
  if and only if the first one with its key has another mark.
-/

namespace QuerySuite

namespace Symbol

variable {α β : Type}

/-- The members that `p` holds of, given the members before them. -/
def pick (p : List α → α → Bool) (l : List α) : List α :=
  (l.zipIdx.filter fun x => p (l.take x.2) x.1).map (·.1)

/-- Whether a member is picked does not depend on those behind it. -/
theorem pick_concat (p : List α → α → Bool) (l : List α) (a : α) :
    pick p (l ++ [a]) = pick p l ++ if p l a then [a] else [] := by
  have hfront : l.zipIdx.filter (fun x => p ((l ++ [a]).take x.2) x.1) =
      l.zipIdx.filter fun x => p (l.take x.2) x.1 := by
    refine List.filter_congr fun x hx => ?_
    have hlt : x.2 < l.length := by
      have h := List.snd_lt_add_of_mem_zipIdx hx
      omega
    rw [List.take_append_of_le_length (Nat.le_of_lt hlt)]
  have hlast : (l ++ [a]).take (0 + l.length) = l := by simp
  unfold pick
  rw [List.zipIdx_append, List.filter_append, List.map_append, hfront, List.zipIdx_singleton,
    List.filter_cons, List.filter_nil, hlast]
  cases p l a <;> rfl

theorem mem_pick {p : List α → α → Bool} {l : List α} {a : α} :
    a ∈ pick p l ↔ ∃ before after, l = before ++ a :: after ∧ p before a = true := by
  induction l using List.reverseRecOn with
  | nil => simp [pick]
  | append_singleton l b ih =>
    rw [pick_concat, List.mem_append, ih]
    constructor
    · rintro (⟨before, after, rfl, hp⟩ | hb)
      · exact ⟨before, after ++ [b], by simp, hp⟩
      · split_ifs at hb with hp
        · obtain rfl := List.mem_singleton.1 hb
          exact ⟨l, [], rfl, hp⟩
        · cases hb
    · rintro ⟨before, after, heq, hp⟩
      rcases List.eq_nil_or_concat after with rfl | ⟨after, c, rfl⟩
      · obtain ⟨rfl, hb⟩ := List.append_inj' heq rfl
        obtain rfl := List.singleton_inj.1 hb
        exact .inr (by simp [hp])
      · rw [List.concat_eq_append, ← List.cons_append, ← List.append_assoc] at heq
        exact .inl ⟨before, after, (List.append_inj' heq rfl).1, hp⟩

/-- What is picked for a stronger reason is picked for a weaker one. -/
theorem pick_sublist {p q : List α → α → Bool} {l : List α}
    (h : ∀ before a after, l = before ++ a :: after → p before a = true → q before a = true) :
    (pick p l).Sublist (pick q l) := by
  induction l using List.reverseRecOn with
  | nil => exact List.Sublist.refl _
  | append_singleton l b ih =>
    have hfront := ih fun before a after heq => h before a (after ++ [b]) (by simp [heq])
    rw [pick_concat, pick_concat]
    refine hfront.append ?_
    split_ifs with hp hq hq
    · exact List.Sublist.refl _
    · exact absurd (h l b [] rfl hp) hq
    · exact List.nil_sublist _
    · exact List.Sublist.refl _

theorem mem_map_of_finer {γ : Type} {key : α → β} {finer : α → γ} {l : List α}
    (h : ∀ a ∈ l, ∀ b ∈ l, finer a = finer b → key a = key b) {before after : List α} {a : α}
    (hl : l = before ++ a :: after) (ha : finer a ∈ before.map finer) :
    key a ∈ before.map key := by
  obtain ⟨b, hb, heq⟩ := List.mem_map.1 ha
  refine List.mem_map.2 ⟨b, hb, h b ?_ a ?_ heq⟩ <;> simp [hl, hb]

variable [DecidableEq β] (key : α → β)

/-- The members whose key no member before them has. -/
def firsts (l : List α) : List α := pick (fun before a => key a ∉ before.map key) l

/-- The members whose key a member before them has. -/
def repeats (l : List α) : List α := pick (fun before a => key a ∈ before.map key) l

theorem firsts_concat (l : List α) (a : α) :
    firsts key (l ++ [a]) = if key a ∈ l.map key then firsts key l else firsts key l ++ [a] := by
  rw [firsts, pick_concat]
  by_cases h : key a ∈ l.map key <;> simp [h, firsts]

theorem repeats_concat (l : List α) (a : α) :
    repeats key (l ++ [a]) = if key a ∈ l.map key then repeats key l ++ [a] else repeats key l := by
  rw [repeats, pick_concat]
  by_cases h : key a ∈ l.map key <;> simp [h, repeats]

/-- No key is lost. -/
theorem mem_map_firsts {l : List α} {k : β} : k ∈ (firsts key l).map key ↔ k ∈ l.map key := by
  induction l using List.reverseRecOn with
  | nil => rfl
  | append_singleton l a ih =>
    rw [firsts_concat, List.map_append, List.mem_append]
    split_ifs with h
    · rw [ih]
      refine ⟨.inl, fun hk => hk.elim id fun hk => ?_⟩
      rwa [List.mem_singleton.1 hk]
    · rw [List.map_append, List.mem_append, ih]

/-- The first member with a key is the same with and without the repetitions. -/
theorem find?_firsts (l : List α) (k : β) :
    (firsts key l).find? (key · == k) = l.find? (key · == k) := by
  induction l using List.reverseRecOn with
  | nil => rfl
  | append_singleton l a ih =>
    rw [firsts_concat, List.find?_append]
    split_ifs with h
    · rw [ih]
      by_cases hk : key a = k
      · obtain ⟨b, hb, hkey⟩ := List.mem_map.1 h
        have hsome : (l.find? (key · == k)).isSome = true :=
          List.find?_isSome.2 ⟨b, hb, by simp [hkey, hk]⟩
        rw [Option.or_of_isSome hsome]
      · simp [hk]
    · rw [List.find?_append, ih]

/-- A change that leaves the keys alone does not matter. -/
theorem map_firsts {γ : Type} (f : γ → α) (l : List γ) :
    (firsts (fun c => key (f c)) l).map f = firsts key (l.map f) := by
  induction l using List.reverseRecOn with
  | nil => rfl
  | append_singleton l c ih =>
    rw [firsts_concat, List.map_append, List.map_singleton, firsts_concat, List.map_map, ← ih]
    simp only [Function.comp_def]
    split_ifs
    · rfl
    · rw [List.map_append, List.map_singleton]

/-- A table keeps the members whose key no member before them has. -/
theorem keepFirst_eq_firsts {α : Type} (key : α → String) (l : List α) :
    keepFirst key l = firsts key l := by
  induction l using List.reverseRecOn with
  | nil => rfl
  | append_singleton l a ih =>
    have hstep : keepFirst key (l ++ [a]) = (insertNew key (keepFirst key l) a).2 := by
      rw [keepFirst, keepFirst, List.foldl_append, List.foldl_cons, List.foldl_nil]
    rw [hstep, ih, firsts_concat]
    split_ifs with h
    · rw [insertNew_of_mem key ((mem_map_firsts key).2 h)]
    · rw [insertNew_of_not_mem key (mt (mem_map_firsts key).1 h)]

/-- Every member is the first with its key or a repetition of one before it. -/
theorem length_firsts_add_length_repeats (l : List α) :
    (firsts key l).length + (repeats key l).length = l.length := by
  induction l using List.reverseRecOn with
  | nil => rfl
  | append_singleton l a ih =>
    rw [firsts_concat, repeats_concat]
    split_ifs <;> simp only [List.length_append, List.length_singleton] <;> omega

variable {key}

section Finer

variable {γ : Type} [DecidableEq γ] {finer : α → γ} {l : List α}

/-- With a key that tells more members apart, more are first. -/
theorem firsts_sublist (h : ∀ a ∈ l, ∀ b ∈ l, finer a = finer b → key a = key b) :
    (firsts key l).Sublist (firsts finer l) := by
  refine pick_sublist fun before a after hl => ?_
  rw [decide_eq_true_iff, decide_eq_true_iff]
  exact mt (mem_map_of_finer h hl)

/-- With a key that tells more members apart, fewer are repetitions. -/
theorem repeats_sublist (h : ∀ a ∈ l, ∀ b ∈ l, finer a = finer b → key a = key b) :
    (repeats finer l).Sublist (repeats key l) := by
  refine pick_sublist fun before a after hl => ?_
  rw [decide_eq_true_iff, decide_eq_true_iff]
  exact mem_map_of_finer h hl

end Finer

/-- Where no key stands twice, a lookup finds the member with the key. -/
theorem find?_eq_some_iff {l : List α} (h : (l.map key).Nodup) {k : β} {a : α} :
    l.find? (key · == k) = some a ↔ a ∈ l ∧ key a = k := by
  constructor
  · intro hfound
    exact ⟨List.mem_of_find?_eq_some hfound, by simpa using List.find?_some hfound⟩
  · rintro ⟨ha, rfl⟩
    obtain ⟨b, hb⟩ := Option.isSome_iff_exists.1
      (List.find?_isSome.2 ⟨a, ha, beq_self_eq_true _⟩ : (l.find? (key · == key a)).isSome = true)
    have hkey : key b = key a := by simpa using List.find?_some hb
    rw [hb, List.inj_on_of_nodup_map h (List.mem_of_find?_eq_some hb) ha hkey]

theorem mem_repeats {l : List α} {a : α} :
    a ∈ repeats key l ↔ ∃ before after, l = before ++ a :: after ∧ key a ∈ before.map key := by
  simp only [repeats, mem_pick, decide_eq_true_eq]

/-- Where members can be told apart by a mark, a member repeats a key if and only if the first
member with that key has another mark. -/
theorem exists_repeats_iff {γ : Type} {mark : α → γ} {l : List α} (hmarks : (l.map mark).Nodup)
    {a : α} (ha : a ∈ l) :
    (∃ b ∈ repeats key l, mark b = mark a) ↔
      ∃ b, l.find? (key · == key a) = some b ∧ mark b ≠ mark a := by
  have hinj := List.inj_on_of_nodup_map hmarks
  constructor
  · rintro ⟨b, hb, hmark⟩
    obtain ⟨before, after, rfl, hkey⟩ := mem_repeats.1 hb
    obtain rfl : b = a := hinj (by simp) ha hmark
    obtain ⟨c, hc, hck⟩ := List.mem_map.1 hkey
    obtain ⟨d, hd⟩ := Option.isSome_iff_exists.1
      (List.find?_isSome.2 ⟨c, hc, beq_iff_eq.2 hck⟩ : (before.find? (key · == key b)).isSome)
    refine ⟨d, by rw [List.find?_append, hd]; rfl, fun hsame => ?_⟩
    rw [List.map_append, List.nodup_append] at hmarks
    exact hmarks.2.2 _ (List.mem_map_of_mem (List.mem_of_find?_eq_some hd)) _
      (List.mem_map_of_mem List.mem_cons_self) hsame
  · rintro ⟨b, hb, hmark⟩
    obtain ⟨before, after, rfl⟩ := List.append_of_mem ha
    refine ⟨a, mem_repeats.2 ⟨before, after, rfl, ?_⟩, rfl⟩
    by_contra hnew
    have hnone : before.find? (key · == key a) = none := by
      rw [List.find?_eq_none]
      intro c hc hck
      exact hnew (List.mem_map.2 ⟨c, hc, beq_iff_eq.1 hck⟩)
    rw [List.find?_append, hnone, Option.none_or, List.find?_cons_of_pos (by simp)] at hb
    obtain rfl := Option.some.inj hb
    exact hmark rfl

end Symbol

/-! ## Repetitions in a run -/

namespace Validator

variable {α : Type} (key : α → String)

/-- The keys that have stood before, when the members have been gone through. -/
def seenAfter (seen : List String) : List α → List String
  | [] => seen
  | a :: rest =>
    if seen.contains (key a) then seenAfter seen rest else seenAfter (key a :: seen) rest

theorem seenAfter_append (seen : List String) (l m : List α) :
    seenAfter key seen (l ++ m) = seenAfter key (seenAfter key seen l) m := by
  induction l generalizing seen with
  | nil => rfl
  | cons a l ih =>
    rw [List.cons_append, seenAfter, seenAfter]
    split_ifs
    · exact ih seen
    · exact ih (key a :: seen)

theorem repeated_append (seen : List String) (l m : List α) :
    repeated key seen (l ++ m) = repeated key seen l ++ repeated key (seenAfter key seen l) m := by
  induction l generalizing seen with
  | nil => rfl
  | cons a l ih =>
    rw [List.cons_append, repeated, repeated, seenAfter]
    split_ifs
    · rw [ih, List.cons_append]
    · exact ih (key a :: seen)

theorem mem_seenAfter {seen : List String} {l : List α} {k : String} :
    k ∈ seenAfter key seen l ↔ k ∈ seen ∨ k ∈ l.map key := by
  induction l generalizing seen with
  | nil => simp [seenAfter]
  | cons a l ih =>
    rw [seenAfter, List.map_cons, List.mem_cons]
    split_ifs with h
    · rw [ih]
      have ha : key a ∈ seen := List.contains_iff_mem.1 h
      refine ⟨fun hk => hk.imp_right .inr, ?_⟩
      rintro (hk | rfl | hk)
      · exact .inl hk
      · exact .inl ha
      · exact .inr hk
    · rw [ih, List.mem_cons]
      tauto

/-- What is gone through from the start is told to be repeated where a member before has the same
key. -/
theorem repeated_eq_repeats (l : List α) :
    repeated key [] l = (Symbol.repeats key l).map fun a => (key a, a) := by
  induction l using List.reverseRecOn with
  | nil => rfl
  | append_singleton l a ih =>
    rw [repeated_append, ih, Symbol.repeats_concat, repeated]
    have hseen : (seenAfter key [] l).contains (key a) = true ↔ key a ∈ l.map key := by
      rw [List.contains_iff_mem, mem_seenAfter]
      simp
    by_cases h : key a ∈ l.map key
    · rw [if_pos h, if_pos (hseen.2 h), List.map_append]
      rfl
    · rw [if_neg h, if_neg (mt hseen.1 h), repeated, List.append_nil]

end Validator

end QuerySuite
