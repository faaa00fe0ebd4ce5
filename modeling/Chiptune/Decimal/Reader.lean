import Chiptune.Scalar
import Chiptune.Decimal.Shortest

/-!
# Reading numbers

Whole numbers and doubles as settings files write them. A whole number may have a plus sign and
be hexadecimal, octal or binary behind `0x`, `0o` or `0b`; a decimal one does not begin with a
zero that counts for nothing. A double may have a point, an exponent, or be one of the words for
infinity and for what is not a number.
-/

namespace Chiptune.Decimal

/-- The value of a digit in a base of at most sixteen. -/
def digitValue? (base : Nat) (c : Char) : Option Nat :=
  let value? :=
    if c.isDigit then some (c.toNat - '0'.toNat)
    else if 'a' ≤ c ∧ c ≤ 'f' then some (c.toNat - 'a'.toNat + 10)
    else if 'A' ≤ c ∧ c ≤ 'F' then some (c.toNat - 'A'.toNat + 10)
    else none
  value?.filter (· < base)

/-- The number that digits of a base write after `total`. -/
def digitsFrom? (base total : Nat) : List Char → Option Nat
  | [] => some total
  | c :: cs =>
    match digitValue? base c with
    | some d => digitsFrom? base (base * total + d) cs
    | none => none

/-- The number that one or more digits of a base write, if it is at most `limit`. -/
def inBase? (base limit : Nat) (cs : List Char) : Option Nat :=
  if cs.isEmpty then none else (digitsFrom? base 0 cs).filter (· ≤ limit)

/-- Whether a text is a run of digits with a needless zero in front. -/
def hasLeadingZero : List Char → Bool
  | '0' :: d :: ds => (d :: ds).all Char.isDigit
  | _ => false

/-- A text without a plus sign in front. -/
def withoutPlus : List Char → List Char
  | '+' :: cs => cs
  | cs => cs

/-- The whole number that a text without a sign writes, if it is at most `limit`. -/
def magnitudeWithin? (limit : Nat) (cs : List Char) : Option Nat :=
  let digits? := if hasLeadingZero cs then none else inBase? 10 limit cs
  match cs with
  | '0' :: 'x' :: ds => (inBase? 16 limit ds).or digits?
  | '0' :: 'o' :: ds => (inBase? 8 limit ds).or digits?
  | '0' :: 'b' :: ds => (inBase? 2 limit ds).or digits?
  | _ => digits?

/-- The whole number that a text writes, if it is at most `limit`. It has no minus sign, not even
before zero. -/
def unsigned? (limit : Nat) (text : List Char) : Option Nat :=
  magnitudeWithin? limit (withoutPlus text)

/-- The double nearest to `digits * 10 ^ exponent`. A value far out of the range of doubles is
infinite or zero without being computed. -/
def toDouble (digits : Nat) (exponent : Int) : Float :=
  let leading := exponent + digitCount digits
  if digits = 0 ∨ leading < -400 then 0
  else if 400 < leading then 1 / 0
  else Float.ofScientific digits (exponent < 0) exponent.natAbs

/-- A whole number with an optional sign. -/
def signed? (cs : List Char) : Option Int :=
  let magnitude? (ds : List Char) := if ds.isEmpty || !ds.all Char.isDigit then none else some (whole ds)
  match cs with
  | '-' :: ds => (magnitude? ds).map fun n => -(n : Int)
  | '+' :: ds => (magnitude? ds).map fun n => (n : Int)
  | ds => (magnitude? ds).map fun n => (n : Int)

/-- A double without a sign: digits with a point before, among or behind them, or without one,
and perhaps an exponent. -/
def magnitude? (cs : List Char) : Option Float :=
  let before := cs.takeWhile Char.isDigit
  let rest := cs.drop before.length
  let (after, rest) :=
    match rest with
    | '.' :: tail =>
      let after := tail.takeWhile Char.isDigit
      (after, tail.drop after.length)
    | _ => ([], rest)
  let digits := before ++ after
  if digits.isEmpty then none
  else
    let exponent? :=
      match rest with
      | [] => some 0
      | c :: ds => if c = 'e' || c = 'E' then signed? ds else none
    exponent?.map fun exponent => toDouble (whole digits) (exponent - after.length)

/-- The double that a text writes. A number too large for a double is none. -/
def double? (text : List Char) : Option Float :=
  let word := String.ofList text
  if [".inf", ".Inf", ".INF", "+.inf", "+.Inf", "+.INF"].contains word then some (1 / 0)
  else if ["-.inf", "-.Inf", "-.INF"].contains word then some (-1 / 0)
  else if [".nan", ".NaN", ".NAN"].contains word then some (0 / 0)
  else
    let value? :=
      match text with
      | '-' :: cs => (magnitude? cs).map (- ·)
      | cs => magnitude? (withoutPlus cs)
    value?.filter Float.isFinite

end Chiptune.Decimal
