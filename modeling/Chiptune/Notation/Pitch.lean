import Chiptune.Scalar

/-!
# Pitches

A pitch is one of seven letters, perhaps sharp or flat. Frequencies are equally tempered, with
the `a` above middle `c` at 440 Hz; the reference `c` of the notation is the one above it, note
72 of the MIDI numbering.
-/

namespace Chiptune

/-- The letters of the scale. -/
inductive Letter where
  | a | b | c | d | e | f | g
deriving DecidableEq

/-- Sharp, flat or neither. -/
inductive Accidental where
  | flat | natural | sharp
deriving DecidableEq

/-- A letter with its accidental. -/
structure Pitch where
  letter : Letter
  accidental : Accidental
deriving DecidableEq

namespace Letter

/-- The letter that a character writes. -/
def ofChar? : Char → Option Letter
  | 'a' => some a
  | 'b' => some b
  | 'c' => some c
  | 'd' => some d
  | 'e' => some e
  | 'f' => some f
  | 'g' => some g
  | _ => none

/-- The character that writes a letter. -/
def toChar : Letter → Char
  | a => 'a'
  | b => 'b'
  | c => 'c'
  | d => 'd'
  | e => 'e'
  | f => 'f'
  | g => 'g'

/-- Semitones above the reference `c`. -/
def semitone : Letter → Int
  | c => 0
  | d => 2
  | e => 4
  | f => 5
  | g => 7
  | a => 9
  | b => 11

@[simp] theorem ofChar?_toChar (l : Letter) : ofChar? l.toChar = some l := by
  cases l <;> rfl

end Letter

namespace Accidental

/-- The accidental that a character writes; a natural has no character. -/
def ofChar? : Char → Option Accidental
  | '+' => some sharp
  | '-' => some flat
  | _ => none

/-- Semitones that an accidental adds. -/
def shift : Accidental → Int
  | flat => -1
  | natural => 0
  | sharp => 1

end Accidental

section Frequency

variable {α : Type} [Scalar α]

/-- The frequency of a MIDI note number, whole or not: 440 Hz at 69, doubling every twelve. -/
def midiFrequency (note : α) : α := 440 * Scalar.pow 2 ((note - 69) / 12)

/-- Semitones above the reference `c`, from `-1` to `12`. -/
def Pitch.semitone (p : Pitch) : Int := p.letter.semitone + p.accidental.shift

/-- The frequency in Hz, `octave` octaves above the notation's own. -/
def Pitch.frequency (octave : Int) (p : Pitch) : α :=
  midiFrequency (Scalar.ofNat (72 + p.semitone).toNat) * Scalar.twoPow octave

end Frequency

end Chiptune
