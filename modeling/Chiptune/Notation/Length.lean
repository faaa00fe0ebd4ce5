import Chiptune.Scalar

/-!
# Note lengths

A length such as `4.&16` reads "a dotted quarter tied to a sixteenth". A part with denominator
`d` lasts `240 / tempo / d` seconds (a whole note is four beats), a dot makes it half as long
again, and tied parts add up. A `Length` has at least one part and no denominator of zero:
`Length.ofParts?` is the only way in, and it drops what does not count.
-/

namespace Chiptune

/-- The largest number that digits of the notation stand for where a whole number is read,
`2 ^ 32 - 1`; longer runs of digits stay at it. -/
def maxWhole : Nat := 4294967295

/-- One part of a length: a denominator, perhaps dotted. -/
structure NoteValue where
  denominator : Nat
  dotted : Bool
deriving DecidableEq

/-- Tied note values. -/
structure Length where
  parts : List NoteValue
  nonempty : parts ≠ []
  positive : ∀ v ∈ parts, 0 < v.denominator
deriving DecidableEq

variable {α : Type} [Scalar α]

/-- How many seconds a note value lasts at `tempo` beats per minute. -/
def NoteValue.seconds (tempo : α) (v : NoteValue) : α :=
  let plain := 240 / tempo / Scalar.ofNat v.denominator
  if v.dotted then plain * 1.5 else plain

namespace Length

/-- The length of the parts with a non-zero denominator; there is none without such a part. -/
def ofParts? (parts : List NoteValue) : Option Length :=
  let kept := parts.filter (0 < ·.denominator)
  if h : kept = [] then none
  else some ⟨kept, h, fun v hv => by simpa using (List.mem_filter.mp hv).2⟩

/-- One part without a dot. -/
def single? (denominator : Nat) : Option Length := ofParts? [⟨denominator, false⟩]

/-- The eighth note, which notes have where nothing else is said. -/
def eighth : Length := ⟨[⟨8, false⟩], by simp, by simp⟩

/-- The seconds of all parts, added from left to right. -/
def seconds (tempo : α) (length : Length) : α :=
  length.parts.foldl (fun total v => total + v.seconds tempo) 0

/-- The whole samples that fit into a length at `rate` samples per second. -/
def samples (tempo : α) (rate : Nat) (length : Length) : Nat :=
  Scalar.toCount (length.seconds tempo * Scalar.ofNat rate)

/-- The parts of a built length are those with a denominator. -/
theorem parts_of_ofParts? {parts : List NoteValue} {l : Length} (h : ofParts? parts = some l) :
    l.parts = parts.filter (0 < ·.denominator) := by
  simp only [ofParts?] at h
  split at h
  · cases h
  · cases h; rfl

/-! ## Lengths written by themselves -/

/-- The text between ties. -/
def splitTies : List Char → List (List Char)
  | [] => [[]]
  | '&' :: cs => [] :: splitTies cs
  | c :: cs =>
    match splitTies cs with
    | [] => [[c]]
    | first :: others => (c :: first) :: others

/-- A denominator: digits, perhaps after a plus sign, that write at most `maxWhole`. -/
def denominator? (cs : List Char) : Option Nat :=
  let ds := match cs with
    | '+' :: rest => rest
    | _ => cs
  if ds ≠ [] ∧ ds.all Char.isDigit ∧ Decimal.whole ds ≤ maxWhole then some (Decimal.whole ds)
  else none

/-- A denominator and at most one dot after it. -/
def part? (cs : List Char) : Option NoteValue :=
  if cs.getLast? = some '.' then (denominator? cs.dropLast).map (⟨·, true⟩)
  else (denominator? cs).map (⟨·, false⟩)

/-- The length that a text such as `4.&16` writes. Parts that are not of this form are passed
over. -/
def parse? (text : List Char) : Option Length :=
  ofParts? ((splitTies text).filterMap part?)

end Length

end Chiptune
