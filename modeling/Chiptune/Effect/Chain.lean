import Chiptune.Effect.Filter
import Chiptune.Effect.Echo
import Chiptune.Tone.Envelope

/-!
# Effect chains

The effects of a piece stand in the order in which they were added, and every sample passes
through all of them. Stages are only ever added at the end.
-/

namespace Chiptune

/-- One stage of a chain. -/
inductive Effect (α : Type) where
  | filter (f : Filter α)
  | echo (e : Echo α)

/-- Stages in the order of the signal. -/
abbrev Chain (α : Type) := List (Effect α)

variable {α : Type} [Scalar α]

namespace Effect

/-- A filter with its resonance in percent: at zero the response is flat up to the cutoff. -/
def ofResonance (band : Band) (cutoff resonance : α) (rate : Nat) : Effect α :=
  .filter (.fresh band cutoff (resonance / 100 + Scalar.sqrtHalf) rate)

/-- An echo with its feedback in percent and its delay in seconds. -/
def ofDelay (feedback seconds : α) (rate : Nat) : Effect α :=
  .echo (.fresh (feedback / 100) (samplesIn seconds rate))

/-- The effect that a letter of the notation names, if it is given the two parameters it needs.
Further parameters count for nothing. -/
def ofLetter? (letter : Char) (params : List α) (rate : Nat) : Option (Effect α) :=
  match letter, params with
  | 'l', cutoff :: resonance :: _ => some (ofResonance .lowPass cutoff resonance rate)
  | 'h', cutoff :: resonance :: _ => some (ofResonance .highPass cutoff resonance rate)
  | 'e', feedback :: delay :: _ => some (ofDelay feedback delay rate)
  | _, _ => none

/-- Runs one sample through a stage. -/
def apply (effect : Effect α) (x : α) : α × Effect α :=
  match effect with
  | filter f => let (y, f) := f.apply x; (y, filter f)
  | echo e => let (y, e) := e.apply x; (y, echo e)

end Effect

/-- Runs one sample through all stages. -/
def Chain.apply (chain : Chain α) (x : α) : α × Chain α :=
  match chain with
  | [] => (x, [])
  | effect :: effects =>
    let (y, effect) := effect.apply x
    let (z, effects) := Chain.apply effects y
    (z, effect :: effects)

/-- A stage never goes away. -/
@[simp] theorem Chain.length_apply (chain : Chain α) (x : α) :
    (chain.apply x).2.length = chain.length := by
  induction chain generalizing x with
  | nil => rfl
  | cons effect effects ih => simp [Chain.apply, ih]

end Chiptune
