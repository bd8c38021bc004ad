import Mathlib
import QuerySuite.Proofs.DeepestSite

/-!
# Records of recovery with open fields

A record of recovery can be kept as four fields that are set freely: where the skipped stretch
starts, if there is one, where reading went on, what was skipped, and the records absorbed later.
Nothing in such a record keeps the absorbed ones from having absorbed records of their own, or a
record that skipped nothing from holding tokens; a region in either place would be lost to every
question about the record.

Absorbing never makes such a record. Those that are built from clean ones and single regions by
absorbing, in any order, are the forms of a `Recovery`, and every question about the open record has
the answer that `Recovery` gives. There absorbing puts regions one after another.

Results:

* `OpenRecord.built_iff`: the open records that absorbing can build.
* `Recovery.opened_absorb`: absorbing agrees on both.
* `Recovery.tells_opened`: so do the regions, their tokens and the region at a place.
* `Recovery.absorb_concatenates`: absorbing puts regions one after another.
-/

namespace QuerySuite

/-! ## Open records -/

/-- A record of recovery with open fields. -/
structure OpenRecord where
  start : Option Position
  resumed : Option Position
  skipped : List Token
  absorbed : List OpenRecord

namespace OpenRecord

/-- Nothing was skipped. -/
def clean : OpenRecord := ⟨none, none, [], []⟩

/-- The record of a single region. -/
def ofRegion (r : Region) : OpenRecord := ⟨some r.start, r.resumed, r.skipped, []⟩

/-- Something was skipped. -/
def wasRecovered (o : OpenRecord) : Bool := o.start.isSome

/-- The region that the record itself tells of, without those absorbed. -/
def region? (o : OpenRecord) : Option Region :=
  o.start.map fun start => ⟨start, o.resumed, o.skipped⟩

/-- `p` lies in the region that the record itself tells of. -/
def holds (o : OpenRecord) (p : Position) : Bool := o.region?.any (·.holds p)

/-- The record and the ones absorbed, as far as they tell of a region. Absorbed records are not
searched for others. -/
def regions (o : OpenRecord) : List OpenRecord := (o :: o.absorbed).filter (·.wasRecovered)

/-- Some region of the record holds `p`. -/
def contains (o : OpenRecord) (p : Position) : Bool := o.regions.any (·.holds p)

/-- Takes a record in place of the one found before if it skipped tokens of the grammar, or if none
was found. -/
def prefer (found : Option OpenRecord) (o : OpenRecord) : Option OpenRecord :=
  if o.skipped.any (!·.isTrivia) || found.isNone then some o else found

/-- The record of the region that holds `p`. -/
def regionAt (o : OpenRecord) (p : Position) : Option OpenRecord :=
  (o.regions.filter (·.holds p)).foldl prefer none

/-- The skipped tokens that the grammar would have seen. -/
def significant (o : OpenRecord) : List Token :=
  Token.significant (o.skipped ++ o.absorbed.flatMap (·.skipped))

/-- Adds a later record. If it tells of no region it is ignored, and if `o` tells of none it takes
the place of `o`; else it is put behind those absorbed before, and what it absorbed itself after
it. -/
def absorb (o other : OpenRecord) : OpenRecord :=
  if !other.wasRecovered then o
  else if !o.wasRecovered then other
  else { o with absorbed := o.absorbed ++ { other with absorbed := [] } :: other.absorbed }

/-- The record is built from clean ones and single regions by absorbing, in any order. -/
inductive Built : OpenRecord → Prop where
  | clean : Built clean
  | region (r : Region) : Built (ofRegion r)
  | absorb {o other : OpenRecord} (ho : Built o) (hother : Built other) : Built (o.absorb other)

end OpenRecord

namespace Recovery

/-- The record with its fields open: the first region is kept in the record itself. -/
def opened : Recovery → OpenRecord
  | clean => .clean
  | recovered first absorbed =>
    { OpenRecord.ofRegion first with absorbed := absorbed.map .ofRegion }

/-! ## Building records -/

theorem wasRecovered_opened (r : Recovery) : r.opened.wasRecovered = r.wasRecovered := by
  cases r <;> rfl

theorem opened_absorb (r other : Recovery) :
    (r.absorb other).opened = r.opened.absorb other.opened := by
  cases other with
  | clean => rw [absorb_clean]; rfl
  | recovered next more =>
    cases r with
    | clean => rfl
    | recovered first absorbed =>
      -- The region of `other` goes behind the absorbed ones, with its own absorbed ones after it.
      simp only [absorb, opened, List.map_append, List.map_cons]
      rfl

/-- Every record can be built, region by region. -/
theorem built_opened (r : Recovery) : r.opened.Built := by
  cases r with
  | clean => exact .clean
  | recovered first absorbed =>
    induction absorbed using List.reverseRecOn with
    | nil => exact .region first
    | append_singleton absorbed last ih =>
      have hlast : recovered first (absorbed ++ [last]) =
          (recovered first absorbed).absorb (ofRegion last) := rfl
      rw [hlast, opened_absorb]
      exact ih.absorb (.region last)

end Recovery

/-- Absorbing builds the open forms of records, and nothing else. -/
theorem OpenRecord.built_iff {o : OpenRecord} : o.Built ↔ ∃ r : Recovery, r.opened = o := by
  constructor
  · intro h
    induction h with
    | clean => exact ⟨.clean, rfl⟩
    | region r => exact ⟨.ofRegion r, rfl⟩
    | absorb _ _ ho hother =>
      obtain ⟨r, rfl⟩ := ho
      obtain ⟨other, rfl⟩ := hother
      exact ⟨r.absorb other, r.opened_absorb other⟩
  · rintro ⟨r, rfl⟩
    exact r.built_opened

/-! ## Questions about records -/

/-- Both records give the same answers, and no region is kept where `o` is not asked for it. -/
structure OpenRecord.Tells (o : OpenRecord) (r : Recovery) : Prop where
  /-- The absorbed records have a region each and nothing absorbed. -/
  flat : ∀ x ∈ o.absorbed, x.wasRecovered = true ∧ x.absorbed = []
  /-- Without a region there is nothing else either. -/
  unrecovered : o.wasRecovered = false → o = .clean ∧ r = .clean
  regions : o.regions.map region? = r.regions.map some
  significant : o.significant = r.significant
  contains : ∀ p, o.contains p = r.contains p
  regionAt : ∀ p, o.regionAt p = (r.partAt p).map (·.2.opened)

/-- The loop over the records keeps the last one that skipped tokens of the grammar, and without
such a one what was found first. -/
theorem OpenRecord.foldl_prefer (found : Option OpenRecord) (os : List OpenRecord) :
    os.foldl prefer found =
      (os.reverse.find? fun o => o.skipped.any (!·.isTrivia)).or (found.or os.head?) := by
  induction os generalizing found with
  | nil => simp
  | cons o os ih =>
    rw [List.foldl_cons, ih, List.reverse_cons, List.find?_append, prefer, List.head?_cons]
    cases hskipped : o.skipped.any (!·.isTrivia) <;> cases found <;>
      simp [hskipped]

namespace Recovery

/-- A part of a record is the record of its region. -/
theorem region?_opened_of_mem {r : Recovery} {part : Region × Recovery} (h : part ∈ r.parts) :
    part.2.opened.region? = some part.1 := by
  cases r with
  | clean => cases h
  | recovered first absorbed =>
    rcases List.mem_cons.1 h with rfl | h
    · rfl
    · obtain ⟨region, -, rfl⟩ := List.mem_map.1 h
      rfl

theorem skipped_opened_of_mem {r : Recovery} {part : Region × Recovery} (h : part ∈ r.parts) :
    part.2.opened.skipped = part.1.skipped := by
  obtain ⟨start, -, hregion⟩ := Option.map_eq_some_iff.1 (region?_opened_of_mem h)
  rw [← hregion]

theorem regions_opened (r : Recovery) : r.opened.regions = r.parts.map (·.2.opened) := by
  cases r with
  | clean => rfl
  | recovered first absorbed =>
    have habsorbed : (absorbed.map OpenRecord.ofRegion).filter (·.wasRecovered) =
        absorbed.map OpenRecord.ofRegion := by
      refine List.filter_eq_self.2 fun x hx => ?_
      obtain ⟨region, -, rfl⟩ := List.mem_map.1 hx
      rfl
    rw [OpenRecord.regions, List.filter_cons_of_pos rfl, parts, List.map_cons, List.map_map]
    exact congrArg (List.cons _) habsorbed

theorem map_region?_regions_opened (r : Recovery) :
    r.opened.regions.map OpenRecord.region? = r.regions.map some := by
  rw [regions_opened, List.map_map, ← map_fst_parts, List.map_map]
  exact List.map_congr_left fun part hpart => region?_opened_of_mem hpart

theorem significant_opened (r : Recovery) : r.opened.significant = r.significant := by
  cases r with
  | clean => rfl
  | recovered first absorbed =>
    rw [OpenRecord.significant, Token.significant, List.filter_append, List.filter_flatMap]
    simp only [opened, List.flatMap_map, significant, regions_recovered, List.flatMap_cons]
    rfl

theorem contains_opened (r : Recovery) (p : Position) : r.opened.contains p = r.contains p :=
  calc r.opened.contains p
      = (r.opened.regions.map OpenRecord.region?).any (·.any (·.holds p)) := List.any_map.symm
    _ = (r.regions.map some).any (·.any (·.holds p)) := by rw [map_region?_regions_opened]
    _ = r.contains p := List.any_map

/-- The loop over the open records finds the part of the record at a place. -/
theorem regionAt_opened (r : Recovery) (p : Position) :
    r.opened.regionAt p = (r.partAt p).map (·.2.opened) := by
  have hholding : r.opened.regions.filter (·.holds p) =
      (r.parts.filter (·.1.holds p)).map (·.2.opened) := by
    rw [regions_opened, List.filter_map]
    refine congrArg (List.map _) (List.filter_congr fun part hpart => ?_)
    rw [Function.comp_apply, OpenRecord.holds, region?_opened_of_mem hpart, Option.any_some]
  have hfind : (r.parts.filter (·.1.holds p)).reverse.find?
        ((fun o => o.skipped.any (!·.isTrivia)) ∘ (·.2.opened)) =
      (r.parts.filter (·.1.holds p)).reverse.find? (!·.1.significant.isEmpty) := by
    refine List.find?_congr fun part hpart => ?_
    have hmem := (List.mem_filter.1 (List.mem_reverse.1 hpart)).1
    rw [Function.comp_apply, skipped_opened_of_mem hmem, Region.significant, Token.significant,
      Bool.eq_iff_iff]
    simp
  rw [OpenRecord.regionAt, hholding, OpenRecord.foldl_prefer, ← List.map_reverse, List.find?_map,
    hfind, List.head?_map, Option.none_or]
  unfold partAt
  dsimp only
  cases (r.parts.filter (·.1.holds p)).reverse.find? (!·.1.significant.isEmpty) <;> rfl

/-- An open form gives the answers of its record. -/
theorem tells_opened (r : Recovery) : r.opened.Tells r where
  flat x hx := by
    cases r with
    | clean => cases hx
    | recovered first absorbed =>
      obtain ⟨region, -, rfl⟩ := List.mem_map.1 hx
      exact ⟨rfl, rfl⟩
  unrecovered h := by
    rw [wasRecovered_opened] at h
    cases r with
    | clean => exact ⟨rfl, rfl⟩
    | recovered first absorbed => cases h
  regions := r.map_region?_regions_opened
  significant := r.significant_opened
  contains := r.contains_opened
  regionAt := r.regionAt_opened

/-! ## Absorbing -/

theorem significant_absorb (r other : Recovery) :
    (r.absorb other).significant = r.significant ++ other.significant := by
  rw [significant, regions_absorb, List.flatMap_append]
  rfl

theorem contains_absorb (r other : Recovery) (p : Position) :
    (r.absorb other).contains p = (r.contains p || other.contains p) := by
  rw [contains, regions_absorb, List.any_append]
  rfl

/-- Absorbing puts recoveries one after another. The open records that it builds, in any order of
steps, are the open forms of records, absorb as these do and give the same answers; in particular
their absorbed records have nothing absorbed, and those without a region are clean. The regions
after absorbing are those of the first record and then those of the second, and so are the tokens;
the order of steps does not matter, and a place is in some region if and only if there is a region
at the place. -/
theorem absorb_concatenates :
    (∀ o : OpenRecord, o.Built ↔ ∃ r : Recovery, r.opened = o) ∧
      (∀ r : Recovery, r.opened.Tells r) ∧
      (∀ r other : Recovery, (r.absorb other).opened = r.opened.absorb other.opened) ∧
      ∀ a b c : Recovery,
        (a.absorb b).regions = a.regions ++ b.regions ∧
        (a.absorb b).significant = a.significant ++ b.significant ∧
        (∀ p, (a.absorb b).contains p = true ↔ a.contains p = true ∨ b.contains p = true) ∧
        (a.absorb b).absorb c = a.absorb (b.absorb c) ∧
        a.absorb clean = a ∧ clean.absorb a = a ∧
        ∀ p, (a.partAt p).isSome = true ↔ a.contains p = true := by
  refine ⟨fun o => OpenRecord.built_iff, tells_opened, opened_absorb, fun a b c => ?_⟩
  refine ⟨regions_absorb a b, significant_absorb a b, fun p => ?_, absorb_assoc a b c,
    absorb_clean a, clean_absorb a, fun p => ?_⟩
  · rw [contains_absorb, Bool.or_eq_true]
  · rw [isSome_partAt]

end Recovery

end QuerySuite
