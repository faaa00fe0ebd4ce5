import Chiptune.Notation.Length
import Chiptune.Notation.Pitch

/-!
# Tokens

What the notation can say, one constructor for each kind of token, and where in the text it was
said.
-/

namespace Chiptune

/-- What one token of the notation says. -/
inductive Directive where
  /-- Play a pitch; without a length, for the default length. -/
  | note (pitch : Pitch) (length : Option Length)
  /-- Be silent; without a length, for the default length. -/
  | rest (length : Option Length)
  | octaveUp
  | octaveDown
  /-- Beats per minute. -/
  | tempo (value : Decimal)
  /-- Volume in percent. -/
  | volume (value : Decimal)
  | defaultLength (length : Length)
  /-- Select a waveform by its index. -/
  | waveform (index : Nat)
  /-- Attack, decay, sustain and release in percent. -/
  | envelope (params : List Decimal)
  /-- Weights of the partials in percent. -/
  | harmony (weights : List Decimal)
  /-- A number of voices and their detuning. -/
  | unison (params : List Decimal)
  /-- Append an effect, named by a letter. -/
  | effect (letter : Char) (params : List Decimal)
  | repeatStart
  /-- Close a repeat that is played `count` times. -/
  | repeatEnd (count : Option Nat)
  /-- Begin a new voice at the start of the piece. -/
  | voiceReset
deriving DecidableEq

/-- A directive and the index of its first character in the source. -/
structure Token where
  directive : Directive
  offset : Nat
deriving DecidableEq

/-- The name of a directive's kind. -/
def Directive.label : Directive → String
  | note .. => "note"
  | rest _ => "rest"
  | octaveUp => "octave-up"
  | octaveDown => "octave-down"
  | tempo _ => "tempo"
  | volume _ => "volume"
  | defaultLength _ => "default-length"
  | waveform _ => "waveform"
  | envelope _ => "envelope"
  | harmony _ => "harmony"
  | unison _ => "unison"
  | effect .. => "effect"
  | repeatStart => "repeat-start"
  | repeatEnd _ => "repeat-end"
  | voiceReset => "voice-reset"

end Chiptune
