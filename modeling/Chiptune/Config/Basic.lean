import Chiptune.Error
import Chiptune.Render

/-!
# Configuration

The settings that hold for every rendering: rate, seed and two limits.
-/

namespace Chiptune

/-- Settings of all renderings. -/
structure Config where
  /-- Samples per second. -/
  sampleRate : Nat
  /-- The seed of the noise; without one, each rendering has its own. -/
  seed : Option Nat
  /-- The most characters of a source. -/
  maxSourceLength : Option Nat
  /-- The most seconds to render. -/
  maxDuration : Option Float
deriving BEq

namespace Config

/-- The usual rate and no limits. -/
def default : Config := ⟨defaultRate, none, none, none⟩

/-- The longest duration in samples. A negative duration, and one that is not a number, is
none at all. -/
def maxSamples (c : Config) : Option Nat :=
  c.maxDuration.map fun seconds =>
    Scalar.toCount (Scalar.greatest seconds 0 * Scalar.ofNat c.sampleRate)

/-- Refuses a source that is too long. -/
def checkSource (c : Config) (source : List Char) : Except Error Unit :=
  match c.maxSourceLength with
  | none => .ok ()
  | some limit =>
    if limit < source.length then .error (.sourceTooLong source.length limit) else .ok ()

/-- The rendering that the settings ask for; `freshSeed` serves where they name no seed. -/
def rendering (c : Config) (freshSeed : UInt64) : Rendering :=
  { rate := c.sampleRate
    seed := (c.seed.map UInt64.ofNat).getD freshSeed
    limit := c.maxSamples }

end Config

end Chiptune
