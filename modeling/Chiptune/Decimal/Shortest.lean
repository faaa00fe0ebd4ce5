/-!
# Doubles in decimal

A double is written with the fewest digits that read back as the same double. `Double.ofFloat`
splits it into sign, mantissa and binary exponent; `shortest` looks for a decimal among the
reals that round to it, grid by grid from one digit on, in whole-number arithmetic. Only the two
grid points beside the value can be the nearest, so only they are tried. `NumberStyle.text` then
lays the digits out.
-/

namespace Chiptune

/-- A double taken apart. A finite one is worth `mantissa * 2 ^ exponent`. -/
inductive Double where
  | nan
  | infinite (negative : Bool)
  | finite (negative : Bool) (mantissa : Nat) (exponent : Int)

/-- The parts of a double, from its bits. -/
def Double.ofFloat (x : Float) : Double :=
  let bits : Nat := x.toBits.toNat
  let negative := bits / Nat.pow 2 63 = 1
  let field : Nat := bits / Nat.pow 2 52 % 2048
  let fraction : Nat := bits % Nat.pow 2 52
  if field = 2047 then
    if fraction = 0 then .infinite negative else .nan
  else if field = 0 then .finite negative fraction (-1074)
  else .finite negative (fraction + Nat.pow 2 52) (field - 1075)

namespace Decimal

/-- `mantissa * 2 ^ exponent` as a quotient. -/
def ratio (mantissa : Nat) (exponent : Int) : Nat × Nat :=
  if 0 ≤ exponent then (mantissa * Nat.pow 2 exponent.toNat, 1)
  else (mantissa, Nat.pow 2 (-exponent).toNat)

/-- The number of decimal digits of a positive number. -/
def digitCount (n : Nat) : Nat := (Nat.toDigits 10 n).length

/-- The place of the leading digit of a positive quotient: the `p` with
`10 ^ p ≤ num / den < 10 ^ (p + 1)`. -/
def leadingPlace (num den : Nat) : Int :=
  if den ≤ num then (digitCount (num / den) : Int) - 1
  else -(digitCount ((den - 1) / num) : Int)

/-- `num / den` divided by `10 ^ place`, again as a quotient. -/
def shiftPlace (num den : Nat) (place : Int) : Nat × Nat :=
  if 0 ≤ place then (num, den * Nat.pow 10 place.toNat)
  else (num * Nat.pow 10 (-place).toNat, den)

/-- Whether `digits * 10 ^ place` rounds to the double `mantissa * 2 ^ exponent`. In quarters of
the last binary place the reals that do so reach two up and two down, but only one down from a
power of two, below which doubles lie closer. Both ends belong to an even mantissa. -/
def roundsTo (mantissa : Nat) (exponent : Int) (digits : Nat) (place : Int) : Bool :=
  let below := if mantissa = Nat.pow 2 52 ∧ -1074 < exponent then 1 else 2
  let (unitNum, unitDen) := ratio 1 (exponent - 2)
  let (num, den) := shiftPlace unitNum unitDen place
  let low := (4 * mantissa - below) * num
  let high := (4 * mantissa + 2) * num
  let value := digits * den
  if mantissa % 2 = 0 then low ≤ value && value ≤ high else low < value && value < high

/-- Which of two decimals is taken that are equally near. -/
inductive Tie where
  /-- The one whose last digit is even. -/
  | toEven
  /-- The larger one. -/
  | up

/-- The whole number nearest to `num / den`. -/
def nearest (tie : Tie) (num den : Nat) : Nat :=
  let floor := num / den
  let twice := 2 * (num % den)
  if twice < den then floor
  else if den < twice then floor + 1
  else
    match tie with
    | .toEven => floor + floor % 2
    | .up => floor + 1

/-- The decimal with `count` significant digits that rounds to the double, the nearer one if
there are two. -/
def withDigits? (tie : Tie) (mantissa : Nat) (exponent : Int) (count : Nat) :
    Option (Nat × Int) :=
  let (num, den) := ratio mantissa exponent
  let place := leadingPlace num den - count + 1
  let (num, den) := shiftPlace num den place
  let floor := num / den
  let lower := roundsTo mantissa exponent floor place
  let upper := roundsTo mantissa exponent (floor + 1) place
  if lower && upper then some (nearest tie num den, place)
  else if lower then some (floor, place)
  else if upper then some (floor + 1, place)
  else none

/-- A decimal without the zeros at its end. -/
def stripZeros (digits : Nat) (place : Int) : Nat × Int :=
  if h : digits ≠ 0 ∧ digits % 10 = 0 then stripZeros (digits / 10) (place + 1)
  else (digits, place)
termination_by digits
decreasing_by omega

/-- The digits and their place for a positive double: the fewest that read back as it. Seventeen
always do. -/
def shortest (tie : Tie) (mantissa : Nat) (exponent : Int) : Nat × Int :=
  match (List.range 17).findSome? fun n => withDigits? tie mantissa exponent (n + 1) with
  | some (digits, place) => stripZeros digits place
  | none => (mantissa, exponent)

end Decimal

/-- How doubles are written. -/
structure NumberStyle where
  /-- Which of two equally near decimals is written. -/
  tie : Decimal.Tie
  /-- Leading digits from this place on are written with a plain point … -/
  positionalFrom : Int
  /-- … up to and without this one; others have an exponent. -/
  positionalBelow : Int
  nan : String
  infinity : String

namespace NumberStyle

/-- A positive decimal, with at least one digit after a plain point. -/
def decimalText (style : NumberStyle) (digits : Nat) (place : Int) : String :=
  let ds := Nat.toDigits 10 digits
  let leading := place + ds.length - 1
  if style.positionalFrom ≤ leading ∧ leading < style.positionalBelow then
    if leading < 0 then
      "0." ++ String.ofList (List.replicate (-leading - 1).toNat '0' ++ ds)
    else
      let before := leading.toNat + 1
      let after := ds.drop before
      String.ofList (ds.take before ++ List.replicate (before - ds.length) '0') ++ "." ++
        (if after.isEmpty then "0" else String.ofList after)
  else
    let after := ds.drop 1
    String.ofList (ds.take 1) ++ (if after.isEmpty then "" else "." ++ String.ofList after) ++
      "e" ++ toString leading

/-- A double in a style. -/
def text (style : NumberStyle) (x : Float) : String :=
  let sign (negative : Bool) := if negative then "-" else ""
  match Double.ofFloat x with
  | .nan => style.nan
  | .infinite negative => sign negative ++ style.infinity
  | .finite negative 0 _ => sign negative ++ "0.0"
  | .finite negative mantissa exponent =>
    let (digits, place) := Decimal.shortest style.tie mantissa exponent
    sign negative ++ style.decimalText digits place

end NumberStyle

end Chiptune
