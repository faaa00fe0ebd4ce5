import Chiptune.Decimal.Basic

/-!
# The arithmetic of sound

Everything from a note's length to the sample that is written is computed in a type with the
operations of `Scalar`. Programs compute in `Float`; a statement about exact arithmetic takes
another instance of the same definitions.
-/

namespace Chiptune

/-- The largest sample index and sample count, `2 ^ 64 - 1`. Counts that would exceed it stay
at it. -/
def maxCount : Nat := 18446744073709551615

/-- Numbers that sound can be computed in. -/
class Scalar (α : Type) extends Add α, Sub α, Mul α, Div α, Neg α, LT α, LE α where
  /-- Whether one number is below another. -/
  decideLT : (x y : α) → Decidable (x < y)
  /-- Whether one number is at most another. -/
  decideLE : (x y : α) → Decidable (x ≤ y)
  /-- The number nearest to a natural number. -/
  ofNat : Nat → α
  /-- The number nearest to a numeral. -/
  ofDecimal : Decimal → α
  /-- Half the circumference of the unit circle. -/
  pi : α
  /-- The square root of one half. -/
  sqrtHalf : α
  /-- The sine of an angle in radians. -/
  sin : α → α
  /-- The cosine of an angle in radians. -/
  cos : α → α
  /-- The angle between zero and `pi` with a given cosine. -/
  arccos : α → α
  /-- A base raised to a power. -/
  pow : α → α → α
  /-- The remainder modulo one, from zero up to one. -/
  fract : α → α
  /-- The whole part as a count: zero for a negative number, at most `maxCount`. -/
  toCount : α → Nat

namespace Scalar

variable {α : Type} [Scalar α]

instance (x y : α) : Decidable (x < y) := decideLT x y

instance (x y : α) : Decidable (x ≤ y) := decideLE x y

instance (priority := low) (n : Nat) : OfNat α n := ⟨ofNat n⟩

/-- A literal such as `0.05` is the number nearest to its numeral. -/
instance (priority := low) : OfScientific α where
  ofScientific m negative e :=
    if negative then ofDecimal ⟨m, e⟩ else ofNat (m * Nat.pow 10 e)

/-- The smaller of two numbers; where one of them is not a number, the other. -/
def least (x y : α) : α := if x < y then x else if y ≤ y then y else x

/-- The larger of two numbers; where one of them is not a number, the other. -/
def greatest (x y : α) : α := if y < x then x else if y ≤ y then y else x

/-- The nearest number between `-1` and `1`. -/
def clampUnit (x : α) : α := if x < -1 then -1 else if 1 < x then 1 else x

/-- The greatest whole number that is not above `x`; zero where `x` is not a number. -/
def floor (x : α) : Int :=
  if 0 ≤ x then toCount x
  else
    let n := toCount (-x)
    if ofNat n < -x then -(n + 1) else -n

/-- `base` multiplied by itself `n` times, by repeated squaring. -/
def power (base : α) (n : Nat) : α :=
  if n = 0 then 1
  else
    let square := power (base * base) (n / 2)
    if n % 2 = 1 then base * square else square
termination_by n

/-- Two to a whole power; for a negative one the reciprocal of the positive power. -/
def twoPow (n : Int) : α :=
  if n < 0 then 1 / power (2 : α) n.natAbs else power (2 : α) n.natAbs

end Scalar

/-! ## Doubles -/

/-- The remainder of a double modulo one. The whole part of a magnitude below `2 ^ 53` is exact,
and no larger double has a fraction; a negative remainder moves up by one. -/
def fractDouble (x : Float) : Float :=
  let magnitude := x.abs
  let r :=
    if magnitude < 9007199254740992 then
      let part := magnitude - magnitude.toUInt64.toFloat
      if x < 0 then -part else part
    else x - x
  if r < 0 then r + 1 else r

instance : Scalar Float where
  decideLT x y := inferInstanceAs (Decidable (x < y))
  decideLE x y := inferInstanceAs (Decidable (x ≤ y))
  ofNat := Float.ofNat
  ofDecimal d := Float.ofScientific d.digits true d.places
  pi := 3.141592653589793
  sqrtHalf := 0.7071067811865476
  sin := Float.sin
  cos := Float.cos
  arccos := Float.acos
  pow := Float.pow
  fract := fractDouble
  toCount x := x.toUInt64.toNat

end Chiptune
