/-
Double precision numbers, by exact arithmetic on natural numbers.

A number is its sixty-four bits: a sign, an exponent and a fraction.  Reading a
decimal rounds a quotient of natural numbers to the nearest value, a half to the even
neighbour.  Writing finds the shortest decimal that reads back: of all grids of
multiples of a power of ten, the coarsest one with a point among the reals that round
to the number, and on that grid the nearer of the number's two neighbours.
-/
import ProtoSchema.Number.Decimal

namespace ProtoSchema

/-- A number in the binary64 format, given by its bits. -/
structure Binary64 where
  bits : UInt64
deriving DecidableEq, Repr, Inhabited

namespace Binary64

/-! ### The parts of a number

A finite number is `significand * 2 ^ scale` with its sign.  Exponent zero holds the
numbers below the smallest normal one, which lack the leading one bit; the largest
exponent holds infinity and what is not a number.
-/

/-- The leading bit of a normal number, which is not stored. -/
def hiddenBit : Nat := 4503599627370496

/-- Whether the sign bit is set. -/
def isNegative (x : Binary64) : Bool := 0x8000000000000000 ≤ x.bits.toNat

/-- The exponent as stored. -/
def exponent (x : Binary64) : Nat := x.bits.toNat / hiddenBit % 2048

/-- The fraction as stored. -/
def fraction (x : Binary64) : Nat := x.bits.toNat % hiddenBit

def isFinite (x : Binary64) : Bool := x.exponent < 2047

def isNaN (x : Binary64) : Bool := x.exponent = 2047 && x.fraction ≠ 0

/-- The integer that the power of two multiplies. -/
def significand (x : Binary64) : Nat :=
  if x.exponent = 0 then x.fraction else hiddenBit + x.fraction

/-- The power of two of a finite number. -/
def scale (x : Binary64) : Int :=
  if x.exponent = 0 then -1074 else (x.exponent : Int) - 1075

/-- The number with the other sign. -/
def neg (x : Binary64) : Binary64 := ⟨x.bits ^^^ 0x8000000000000000⟩

def infinity : Binary64 := ⟨0x7FF0000000000000⟩

def nan : Binary64 := ⟨0x7FF8000000000000⟩

/-! ### Reading -/

/-- The integer nearest to `num / den`, a half going to the even one. -/
def roundHalfEven (num den : Nat) : Nat :=
  let floor := num / den
  let twice := 2 * (num % den)
  if twice < den then floor
  else if den < twice then floor + 1
  else floor + floor % 2

/-- A quotient divided by a power of two. -/
def scaledDown (num den : Nat) (scale : Int) : Nat × Nat :=
  if 0 ≤ scale then (num, den * Nat.pow 2 scale.toNat) else (num * Nat.pow 2 (-scale).toNat, den)

/--
The number nearest to `num / den`.  The scale makes the quotient an integer of
fifty-three bits, unless it is too small for that.  Exponent and significand are added
and not put side by side, so a significand that rounds up to the next power of two
carries into the exponent, and past the largest exponent stands infinity.
-/
def ofRatio (num den : Nat) : Binary64 :=
  if num = 0 then ⟨0⟩
  else
    let guess : Int := (num.log2 : Int) - den.log2 - 53
    let (a, b) := scaledDown num den guess
    let scale := max (-1074) (if a / b < 2 * hiddenBit then guess else guess + 1)
    let (a, b) := scaledDown num den scale
    let bits := (scale + 1074).toNat * hiddenBit + roundHalfEven a b
    ⟨UInt64.ofNat (min bits infinity.bits.toNat)⟩

/--
The number nearest to a decimal.  A power of ten far beyond the range settles the
result at once, so no more work is done than the digits ask for.
-/
def ofDecimal (d : Decimal) : Binary64 :=
  if d.coefficient = 0 then ⟨0⟩
  else if 400 < d.exponent then infinity
  else if d.exponent < -(400 + (d.coefficient.log2 : Int)) then ⟨0⟩
  else if 0 ≤ d.exponent then ofRatio (d.coefficient * Nat.pow 10 d.exponent.toNat) 1
  else ofRatio d.coefficient (Nat.pow 10 (-d.exponent).toNat)

/-! ### Writing -/

/--
The multiple of `10 ^ grid` that reads back as a positive finite number, if there is
one.  The reals that round to the number reach half way to its neighbours, the lower
one being closer at a power of two; the ends count if the significand is even.  Of two
multiples that both read back the nearer one is taken, and the upper one if they are
equally near.
-/
def gridPoint? (x : Binary64) (grid : Int) : Option Nat :=
  let m := x.significand
  let unit := x.scale - 2
  let up := Nat.pow 2 unit.toNat * Nat.pow 10 (-grid).toNat
  let step := Nat.pow 2 (-unit).toNat * Nat.pow 10 grid.toNat
  let value := 4 * m * up
  let low := (4 * m - (if x.fraction = 0 ∧ 1 < x.exponent then 1 else 2)) * up
  let high := (4 * m + 2) * up
  let below := value / step
  let above := below + 1
  let ends := m % 2 = 0
  let reachesBelow := if ends then low ≤ below * step else low < below * step
  let reachesAbove := if ends then above * step ≤ high else above * step < high
  if reachesBelow then
    if reachesAbove ∧ above * step - value ≤ value - below * step then some above else some below
  else if reachesAbove then some above
  else none

/-- The decimal on the coarsest of some grids, tried from the coarse end. -/
def shortestFrom (x : Binary64) : Nat → Int → Decimal
  | 0, grid => ⟨0, grid⟩
  | tries + 1, grid =>
    match x.gridPoint? grid with
    | some n => ⟨n, grid⟩
    | none => shortestFrom x tries (grid - 1)

/--
The shortest decimal that reads back as a positive finite number.  The first grid is
at least as coarse as the number is large, and seventeen digits always suffice.
-/
def shortest (x : Binary64) : Decimal :=
  let bound : Int := (x.significand.log2 : Int) + 2 + x.scale
  shortestFrom x 24 (bound * 30103 / 100000 + 1)

/-- The sign as it is written. -/
def signText (x : Binary64) : String := if x.isNegative then "-" else ""

/-- The shortest text that reads back, without an exponent. -/
def text (x : Binary64) : String :=
  if x.isNaN then "NaN"
  else if !x.isFinite then x.signText ++ "inf"
  else if x.significand = 0 then x.signText ++ "0"
  else x.signText ++ x.shortest.text

/-- The integer value of a finite number, if it has one, apart from its sign. -/
def wholeValue? (x : Binary64) : Option Nat :=
  if !x.isFinite then none
  else if 0 ≤ x.scale then some (x.significand * Nat.pow 2 x.scale.toNat)
  else
    let unit := Nat.pow 2 (-x.scale).toNat
    if x.significand % unit = 0 then some (x.significand / unit) else none

/-- The text of a literal: an integer keeps all its digits and gets one decimal place. -/
def literalText (x : Binary64) : String :=
  match x.wholeValue? with
  | some n => x.signText ++ toString n ++ ".0"
  | none => x.text

end Binary64

end ProtoSchema
