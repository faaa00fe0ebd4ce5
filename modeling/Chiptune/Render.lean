import Chiptune.Pcm
import Chiptune.Notation.Scanner
import Chiptune.Performance.Basic

/-!
# Rendering

From source text to samples. Rendering never fails: text that says nothing is silent for no time
at all, and so is every text at a rate of zero.
-/

namespace Chiptune

/-- The rate of a rendering where nothing else is said. -/
def defaultRate : Nat := 44100

/-- How a source is rendered. -/
structure Rendering where
  /-- Samples per second. -/
  rate : Nat
  /-- The seed of the noise. -/
  seed : UInt64
  /-- The most samples to render. -/
  limit : Option Nat

namespace Rendering

/-- What the source says, in order. -/
def score (source : List Char) : List Directive := (tokenize source).map (·.directive)

/-- The setup of the performance. -/
def setup (r : Rendering) : Setup := ⟨r.rate, r.limit⟩

/-- The finished performance of a source. -/
def performance {α : Type} [Scalar α] (r : Rendering) (source : List Char) : Performance α :=
  (Performance.start (.ofSeed r.seed)).run r.setup (score source)

/-- The samples of a source, no more than the limit. -/
def samples {α : Type} [Scalar α] (r : Rendering) (source : List Char) : Array α :=
  if r.rate = 0 then #[]
  else
    let samples := (r.performance source).timeline.samples
    match r.limit with
    | none => samples
    | some limit => samples.take limit

/-- The samples of a source as 16-bit levels. -/
def levels (r : Rendering) (source : List Char) : List Int16 :=
  (r.samples source : Array Float).toList.map Pcm.level

/-- The bytes of those levels. -/
def bytes (r : Rendering) (source : List Char) : List UInt8 := Pcm.bytes (r.levels source)

end Rendering

end Chiptune
