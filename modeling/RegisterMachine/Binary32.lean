import RegisterMachine.Decimal

namespace RegisterMachine.Binary32

/-- The bits of positive infinity. -/
def infinity : Nat := 0x7F800000

/-- Two to the power `n`, or 1 for a negative `n`. -/
def twoTo (n : Int) : Nat := Nat.pow 2 n.toNat

/-- Ten to the power `n`, or 1 for a negative `n`. -/
def tenTo (n : Int) : Nat := Nat.pow 10 n.toNat

/-- The quotient rounded to the nearest integer, a half to the even one. -/
def roundHalfEven (num den : Nat) : Nat :=
  let quotient := num / den
  let rest := 2 * (num % den)
  if rest < den then quotient
  else if den < rest then quotient + 1
  else quotient + quotient % 2

/-- The power of two of the last place in which `num / den` is kept: 24 places from its leading
one, and none below `-149`. -/
def lastPlace (num den : Nat) : Int :=
  let guess : Int := (num.log2 : Int) - den.log2
  let leading :=
    if num * twoTo (-guess) < den * twoTo guess then guess - 1 else guess
  max (-149) (leading - 23)

/-- The bits of the float nearest to `num / den`. -/
def ofRatio (num den : Nat) : Nat :=
  if num = 0 then 0
  else
    let place := lastPlace num den
    let significand := roundHalfEven (num * twoTo (-place)) (den * twoTo place)
    min infinity ((place + 149).toNat * 0x800000 + significand)

/-- The bits of the float nearest to a decimal. A decimal below half of the least float, or with
an exponent beyond the greatest, is settled without its powers of ten. -/
def ofDecimal (d : Decimal) : BitVec 32 :=
  if d.digits = 0 ∨ 3 * d.exponent + d.digits.log2 + 1 ≤ -150 then 0
  else if 39 < d.exponent then BitVec.ofNat 32 infinity
  else
    BitVec.ofNat 32 (ofRatio (d.digits * tenTo d.exponent) (tenTo (-d.exponent)))

def ofLiteral? (literal : List Char) : Option (BitVec 32) :=
  (Decimal.ofLiteral? literal).map ofDecimal

/-- A finite float without its sign: the value `significand · 2 ^ place`. -/
structure Magnitude where
  significand : Nat
  place : Int
  /-- Whether the next float below is only half as far away as the one above. -/
  narrowBelow : Bool

/-- The magnitude of a float whose exponent field is not all ones. -/
def magnitude (bits : BitVec 32) : Magnitude :=
  let exponent := (bits.extractLsb' 23 8).toNat
  let fraction := (bits.extractLsb' 0 23).toNat
  if exponent = 0 then ⟨fraction, -149, false⟩
  else ⟨0x800000 + fraction, (exponent : Int) - 150, fraction = 0 && 1 < exponent⟩

/-- The point of the grid of multiples of `10 ^ grid` that stands for the magnitude: one of the
two around it that lies in the rounding interval, the nearer if both do, at a tie the upper. -/
def gridPoint? (m : Magnitude) (grid : Int) : Option Nat :=
  let unit := twoTo (m.place - 2) * tenTo (-grid)
  let spacing := twoTo (2 - m.place) * tenTo grid
  let value := 4 * m.significand * unit
  let low := (4 * m.significand - if m.narrowBelow then 1 else 2) * unit
  let high := (4 * m.significand + 2) * unit
  let inside (x : Nat) : Bool :=
    if m.significand % 2 = 0 then low ≤ x && x ≤ high else low < x && x < high
  let below := value / spacing
  match inside (below * spacing), inside ((below + 1) * spacing) with
  | true, true => some (if 2 * (value % spacing) < spacing then below else below + 1)
  | true, false => some below
  | false, true => some (below + 1)
  | false, false => none

/-- Tries `count` grids from `10 ^ grid` down. The grid after them is not tried: on it the
magnitude is cut off. -/
def shortest (m : Magnitude) : Nat → Int → Decimal
  | 0, grid =>
    ⟨m.significand * twoTo m.place * tenTo (-grid) / (twoTo (-m.place) * tenTo grid), grid⟩
  | count + 1, grid =>
    match gridPoint? m grid with
    | some point => ⟨point, grid⟩
    | none => shortest m count (grid - 1)

/-- From `10 ^ 38`, which no float reaches ten times, to `10 ^ -149`, on which every float lies. -/
def Magnitude.toDecimal (m : Magnitude) : Decimal :=
  if m.significand = 0 then ⟨0, 0⟩ else shortest m 187 38

def text (bits : BitVec 32) : String :=
  let sign := if bits.msb then "-" else ""
  if bits.extractLsb' 23 8 = 0xFF then
    if bits.extractLsb' 0 23 = 0 then sign ++ "inf" else "NaN"
  else sign ++ (magnitude bits).toDecimal.text

end RegisterMachine.Binary32
