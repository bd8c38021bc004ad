/-!
# Numbers

Numbers of the language are binary floating-point numbers of 64 bits: `± mantissa · 2 ^ exponent`
with at most 53 bits of mantissa, the two infinities, and the value that is no number. They are held
by that meaning; `Number.bits` is the interchange form.

A decimal is written as an optional sign, digits with at most one point among or around them, and
an optional power of ten after `e`; the words for infinity and for no number are read in any case
of letters. The number read is the nearest one.

The text of a finite number has the fewest digits that still read back as the same number, and of
the decimals with that many digits the nearest, the upper one of two that are equally near. It is
always positional: there is no power of ten, a whole number has no point, and zero keeps its sign.
A number `m · 2 ^ e` is told apart from its neighbours by the decimals between the two points half
way to them. All tests are made on whole numbers, by putting the four decimals involved over one
denominator.
-/

namespace QuerySuite

/-- A binary floating-point number. -/
inductive Number where
  /-- `± mantissa · 2 ^ exponent`. The mantissa has 53 bits, or fewer at the least exponent. -/
  | finite (negative : Bool) (mantissa : Nat) (exponent : Int)
  | infinite (negative : Bool)
  /-- The result that is no number. -/
  | undefined
  deriving DecidableEq

namespace Number

/-- The least exponent of two. -/
def leastExponent : Int := -1074

/-- The greatest exponent of two. -/
def greatestExponent : Int := 971

/-- Mantissas stay below this bound. -/
def mantissaBound : Nat := Nat.pow 2 53

/-- The number is finite. -/
def isFinite : Number → Bool
  | finite _ _ _ => true
  | _ => false

/-- The sign as the highest of 64 bits. -/
def signBit (negative : Bool) : Nat := if negative then Nat.pow 2 63 else 0

/-- The interchange form: sign, eleven bits of exponent, fifty-two bits of mantissa. -/
def bits : Number → Nat
  | finite negative mantissa exponent =>
    if mantissa < Nat.pow 2 52 then signBit negative + mantissa
    else
      signBit negative + (exponent - leastExponent + 1).toNat * Nat.pow 2 52 +
        (mantissa - Nat.pow 2 52)
  | infinite negative => signBit negative + 2047 * Nat.pow 2 52
  | undefined => 2047 * Nat.pow 2 52 + Nat.pow 2 51

/-! ## Rounding a ratio -/

/-- The quotient, rounded to the nearest whole number, halves to the even one. -/
def divideToEven (a b : Nat) : Nat :=
  let q := a / b
  let twice := 2 * (a % b)
  if b < twice || (twice == b && q % 2 == 1) then q + 1 else q

/-- The exponent of two at which `a / b` has a mantissa of 53 bits, but not below the least one. -/
def ratioExponent (a b : Nat) : Int :=
  let k := (a.log2 : Int) - b.log2
  let reached := if k < 0 then b ≤ a * Nat.pow 2 (-k).toNat else b * Nat.pow 2 k.toNat ≤ a
  max ((if reached then k else k - 1) - 52) leastExponent

/-- The number nearest to `± a / b`, of two equally near ones the one with an even mantissa. -/
def ofRatio (negative : Bool) (a b : Nat) : Number :=
  if a = 0 then finite negative 0 leastExponent
  else
    let e := ratioExponent a b
    let m :=
      if e < 0 then divideToEven (a * Nat.pow 2 (-e).toNat) b
      else divideToEven a (b * Nat.pow 2 e.toNat)
    let (m, e) := if m = mantissaBound then (mantissaBound / 2, e + 1) else (m, e)
    if e > greatestExponent then infinite negative else finite negative m e

end Number

/-! ## Reading decimals -/

/-- `± coefficient · 10 ^ exponent`. -/
structure Decimal where
  negative : Bool
  coefficient : Nat
  exponent : Int
  deriving DecidableEq

namespace Decimal

/-- The value of a digit. -/
def digitValue (c : Char) : Nat := c.toNat - '0'.toNat

/-- The value of a run of digits, the highest first. -/
def digitsValue (digits : List Char) : Nat := digits.foldl (fun n c => 10 * n + digitValue c) 0

/-- Splits off a sign: whether it is a minus, and what follows. -/
def splitSign : List Char → Bool × List Char
  | '-' :: rest => (true, rest)
  | '+' :: rest => (false, rest)
  | text => (false, text)

/-- A whole number with an optional sign, and nothing after it. -/
def wholeNumber? (text : List Char) : Option Int :=
  let (negative, digits) := splitSign text
  if digits.isEmpty || !digits.all Char.isDigit then none
  else some (if negative then -(digitsValue digits : Int) else digitsValue digits)

/-- The power of ten at the end of a decimal: nothing, or `e` and a whole number. -/
def powerOfTen? : List Char → Option Int
  | [] => some 0
  | c :: rest => if c == 'e' || c == 'E' then wholeNumber? rest else none

/-- Digits with a point among them, and the power of ten after them. -/
def unsigned? (negative : Bool) (text : List Char) : Option Decimal :=
  let whole := text.takeWhile Char.isDigit
  let rest := text.dropWhile Char.isDigit
  let (fraction, rest) :=
    match rest with
    | '.' :: more => (more.takeWhile Char.isDigit, more.dropWhile Char.isDigit)
    | _ => ([], rest)
  if whole.isEmpty && fraction.isEmpty then none
  else (powerOfTen? rest).map fun power =>
    ⟨negative, digitsValue (whole ++ fraction), power - fraction.length⟩

/-- Reads a decimal that takes up the whole text. -/
def read? (text : List Char) : Option Decimal :=
  let (negative, rest) := splitSign text
  unsigned? negative rest

end Decimal

namespace Number

/-- The number nearest to a decimal. Magnitudes far outside the range of numbers are told by the
count of digits alone. -/
def ofDecimal (d : Decimal) : Number :=
  if d.coefficient = 0 then finite d.negative 0 leastExponent
  else
    let magnitude := (Nat.toDigits 10 d.coefficient).length + d.exponent
    if magnitude > 310 then infinite d.negative
    else if magnitude < -330 then finite d.negative 0 leastExponent
    else if d.exponent < 0 then ofRatio d.negative d.coefficient (Nat.pow 10 (-d.exponent).toNat)
    else ofRatio d.negative (d.coefficient * Nat.pow 10 d.exponent.toNat) 1

/-- Reads a number that takes up the whole text. -/
def read? (text : String) : Option Number :=
  let (negative, rest) := Decimal.splitSign text.toList
  let word := String.ofList (rest.map Char.toLower)
  if word == "inf" || word == "infinity" then some (infinite negative)
  else if word == "nan" then some undefined
  else (Decimal.read? text.toList).map ofDecimal

end Number

/-! ## Writing in the fewest digits -/

namespace Shortest

/-- A value and the interval of the reals that round to it, over a common denominator. -/
structure Interval where
  value : Nat
  low : Nat
  high : Nat
  /-- The ends of the interval round to the value too. -/
  closed : Bool
  denominator : Nat

/-- The interval of `m · 2 ^ e`: the mantissa below the least one of 53 bits stands closer. -/
def interval (m : Nat) (e : Int) : Interval :=
  let near := m = Nat.pow 2 52 ∧ e > Number.leastExponent
  let scale := if e < 2 then 1 else Nat.pow 2 (e - 2).toNat
  { value := 4 * m * scale
    low := (if near then 4 * m - 1 else 4 * m - 2) * scale
    high := (4 * m + 2) * scale
    closed := m % 2 == 0
    denominator := if e < 2 then Nat.pow 2 (2 - e).toNat else 1 }

/-- `c · u / d` lies in the interval. -/
def Interval.holds (i : Interval) (c u d : Nat) : Bool :=
  let x := c * u * i.denominator
  let low := i.low * d
  let high := i.high * d
  (low < x && x < high) || (i.closed && (x == low || x == high))

/-- The place of the point: the least `k` with a value below `10 ^ k`, which is not positive when
zeros follow the point. -/
def pointPlace (i : Interval) : Int :=
  if i.denominator ≤ i.value then (Nat.toDigits 10 (i.value / i.denominator)).length
  else
    let n := (Nat.toDigits 10 (i.denominator / i.value)).length
    if i.value * Nat.pow 10 (n - 1) < i.denominator then 1 - (n : Int) else 2 - (n : Int)

/-- The decimal with `n` digits nearest to the value, if one of that length lies in the interval:
its digits as a whole number. `k` is the place of the point; of two equally near decimals the upper
one is taken. -/
def candidate? (i : Interval) (k : Int) (n : Nat) : Option Nat :=
  -- One unit of the last digit is `u / d`.
  let p := k - n
  let u := if p < 0 then 1 else Nat.pow 10 p.toNat
  let d := if p < 0 then Nat.pow 10 (-p).toNat else 1
  let step := u * i.denominator
  let below := i.value * d / step
  let above := below + 1
  let belowHolds := i.holds below u d
  let aboveHolds := i.holds above u d
  if belowHolds && aboveHolds then
    some (if 2 * (i.value * d - below * step) < step then below else above)
  else if belowHolds then some below
  else if aboveHolds then some above
  else none

/-- The first count of digits, from `n` on, at which a decimal lies in the interval. -/
def search (i : Interval) (k : Int) : (fuel n : Nat) → Nat × Nat
  | 0, n => (0, n)
  | fuel + 1, n =>
    match candidate? i k n with
    | some digits => (digits, n)
    | none => search i k fuel (n + 1)

/-- The digits `0.d₁d₂… · 10 ^ k` written with a point where it belongs. -/
def positional (digits : List Char) (k : Int) : List Char :=
  if k ≤ 0 then '0' :: '.' :: (List.replicate (-k).toNat '0' ++ digits)
  else if digits.length ≤ k.toNat then digits ++ List.replicate (k.toNat - digits.length) '0'
  else digits.take k.toNat ++ '.' :: digits.drop k.toNat

/-- The text of `m · 2 ^ e`. Seventeen digits always suffice. -/
def text (m : Nat) (e : Int) : List Char :=
  if m = 0 then ['0']
  else
    let i := interval m e
    let k := pointPlace i
    let (value, n) := search i k 17 1
    let digits := Nat.toDigits 10 value
    -- The nearest decimal above can have one digit more, which moves the point.
    positional (digits.reverse.dropWhile (· == '0')).reverse (k + (digits.length - n))

end Shortest

/-- The text of a number: the fewest digits that read back, never a power of ten. -/
def Number.display : Number → String
  | .finite negative m e => String.ofList ((if negative then ['-'] else []) ++ Shortest.text m e)
  | .infinite negative => if negative then "-inf" else "inf"
  | .undefined => "NaN"

end QuerySuite
