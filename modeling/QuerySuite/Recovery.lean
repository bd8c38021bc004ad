import QuerySuite.Token

/-!
# Recovery records

When a member of a body cannot be read, the stretch of tokens that was skipped is kept as a
`Region` on the node it belongs to. A node that recovers more than once keeps its regions apart, in
source order, so that clean text between two failures is never inside its recovery.

Results:

* `Recovery.regions_absorb`: absorbing puts the regions of the second record after the first's.
* `Recovery.contains_iff`: a record holds a position if and only if one of its regions does.
* `Recovery.map_fst_parts`: there is one part for each region.
* `Recovery.absorb_assoc`, `Recovery.absorb_clean`, `Recovery.clean_absorb`.
-/

namespace QuerySuite

/-- A skipped stretch of a document: where it starts, where reading went on, and the tokens in
between, trivia included. Without a resumption the stretch reaches to the end of the document. -/
structure Region where
  start : Position
  resumed : Option Position
  skipped : List Token
  deriving DecidableEq

namespace Region

/-- `p` lies in the region: from its start up to, and without, the resumption. -/
def holds (r : Region) (p : Position) : Bool :=
  !p.isBefore r.start && r.resumed.all p.isBefore

/-- The skipped tokens that the grammar would have seen. -/
def significant (r : Region) : List Token := Token.significant r.skipped

end Region

/-- What reading a node had to skip: nothing, or a first region and those absorbed after it. -/
inductive Recovery where
  | clean
  | recovered (first : Region) (absorbed : List Region)
  deriving DecidableEq

namespace Recovery

instance : Inhabited Recovery := ⟨clean⟩

/-- The record of a single region. -/
def ofRegion (r : Region) : Recovery := recovered r []

/-- Every region of the record, in the order of their recording. -/
def regions : Recovery → List Region
  | clean => []
  | recovered first absorbed => first :: absorbed

/-- Something was skipped. -/
def wasRecovered : Recovery → Bool
  | clean => false
  | recovered _ _ => true

/-- Adds the regions of a later record after those of `r`. -/
def absorb : (r other : Recovery) → Recovery
  | clean, other => other
  | r, clean => r
  | recovered first absorbed, recovered next more => recovered first (absorbed ++ next :: more)

/-- Some region of the record holds `p`. -/
def contains (r : Recovery) (p : Position) : Bool := r.regions.any (·.holds p)

/-- Each region with the record that goes by it: the first region stands for the whole record, an
absorbed one for itself alone. -/
def parts : Recovery → List (Region × Recovery)
  | clean => []
  | recovered first absorbed =>
    (first, recovered first absorbed) :: absorbed.map fun r => (r, ofRegion r)

/-- The part of the record that holds `p`. Regions without a resumption can overlap: the last one
that skipped tokens of the grammar wins, and without such a one the first. -/
def partAt (r : Recovery) (p : Position) : Option (Region × Recovery) :=
  let holding := r.parts.filter (·.1.holds p)
  match holding.reverse.find? (!·.1.significant.isEmpty) with
  | some part => some part
  | none => holding.head?

/-- The skipped tokens that the grammar would have seen, over all regions. -/
def significant (r : Recovery) : List Token := r.regions.flatMap (·.significant)

/-- The extent of the skipped tokens that the grammar would have seen. -/
def coveredSpan (r : Recovery) : Option Span :=
  match r.significant.head?, r.significant.getLast? with
  | some first, some last => some ⟨first.start, last.stop⟩
  | _, _ => none

@[simp]
theorem regions_clean : clean.regions = [] := rfl

@[simp]
theorem regions_recovered (first : Region) (absorbed : List Region) :
    (recovered first absorbed).regions = first :: absorbed := rfl

@[simp]
theorem regions_ofRegion (r : Region) : (ofRegion r).regions = [r] := rfl

@[simp]
theorem regions_absorb (r other : Recovery) :
    (r.absorb other).regions = r.regions ++ other.regions := by
  cases r <;> cases other <;> simp [absorb]

theorem eq_of_regions_eq {r other : Recovery} (h : r.regions = other.regions) : r = other := by
  cases r <;> cases other <;> simp_all

@[simp]
theorem absorb_clean (r : Recovery) : r.absorb clean = r := by cases r <;> rfl

@[simp]
theorem clean_absorb (r : Recovery) : clean.absorb r = r := by cases r <;> rfl

theorem absorb_assoc (a b c : Recovery) : (a.absorb b).absorb c = a.absorb (b.absorb c) :=
  eq_of_regions_eq (by simp)

theorem wasRecovered_iff (r : Recovery) : r.wasRecovered = true ↔ r.regions ≠ [] := by
  cases r <;> simp [wasRecovered]

theorem map_fst_parts (r : Recovery) : r.parts.map (·.1) = r.regions := by
  cases r with
  | clean => rfl
  | recovered first absorbed => simp [parts, Function.comp_def]

theorem contains_iff (r : Recovery) (p : Position) :
    r.contains p = true ↔ ∃ region ∈ r.regions, region.holds p = true := by
  simp [contains]

end Recovery

end QuerySuite
