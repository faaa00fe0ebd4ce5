import Chiptune.Decimal.Shortest
import Chiptune.Notation.Scanner

/-!
# The token listing

One line for each token: its offset, its kind and what it says, in columns.
-/

namespace Chiptune.Listing

/-- Numbers are written with a plain point from `10 ^ -4` up to `10 ^ 16`. -/
def numberStyle : NumberStyle :=
  { tie := .up, positionalFrom := -4, positionalBelow := 16, nan := "NaN", infinity := "inf" }

/-- A numeral as the double that it stands for. -/
def number (d : Decimal) : String := numberStyle.text (Scalar.ofDecimal d)

/-- Items in brackets. -/
def list (items : List String) : String := "[" ++ ", ".intercalate items ++ "]"

/-- A value that may be absent. -/
def optional : Option String → String
  | none => "None"
  | some text => "Some(" ++ text ++ ")"

/-- Named fields in braces after the name of what has them. -/
def record (name : String) (fields : List (String × String)) : String :=
  name ++ " \x7b " ++ ", ".intercalate (fields.map fun (field, text) => field ++ ": " ++ text) ++
    " \x7d"

/-- An accidental's name. -/
def accidental : Accidental → String
  | .flat => "Flat"
  | .natural => "Natural"
  | .sharp => "Sharp"

/-- A character in quotes. -/
def quoted (c : Char) : String := "'" ++ c.toString ++ "'"

/-- A pitch. -/
def pitch (p : Pitch) : String :=
  record "Pitch" [("letter", quoted p.letter.toChar), ("accidental", accidental p.accidental)]

/-- One part of a length. -/
def noteValue (v : NoteValue) : String :=
  record "LengthPart"
    [("denominator", toString v.denominator), ("dotted", if v.dotted then "true" else "false")]

/-- A length. -/
def length (l : Length) : String := record "LengthSpec" [("parts", list (l.parts.map noteValue))]

/-- What a directive says. -/
def directive : Directive → String
  | .note p l => record "Note" [("pitch", pitch p), ("length", optional (l.map length))]
  | .rest l => "Rest(" ++ optional (l.map length) ++ ")"
  | .octaveUp => "OctaveUp"
  | .octaveDown => "OctaveDown"
  | .tempo value => "Tempo(" ++ number value ++ ")"
  | .volume value => "Volume(" ++ number value ++ ")"
  | .defaultLength l => "DefaultLength(" ++ length l ++ ")"
  | .waveform index => "WaveformSelect(" ++ toString index ++ ")"
  | .envelope params => "Envelope(" ++ list (params.map number) ++ ")"
  | .harmony weights => "Harmony(" ++ list (weights.map number) ++ ")"
  | .unison params => "Unison(" ++ list (params.map number) ++ ")"
  | .effect letter params =>
    record "Effect" [("kind", quoted letter), ("params", list (params.map number))]
  | .repeatStart => "RepeatStart"
  | .repeatEnd count => "RepeatEnd(" ++ optional (count.map toString) ++ ")"
  | .voiceReset => "VoiceReset"

/-- Spaces in front of a text that is shorter than `width`. -/
def alignRight (width : Nat) (text : String) : String :=
  String.ofList (text.toList.leftpad width ' ')

/-- Spaces behind a text that is shorter than `width`. -/
def alignLeft (width : Nat) (text : String) : String :=
  String.ofList (text.toList.rightpad width ' ')

/-- The line of a token. -/
def line (t : Token) : String :=
  alignRight 6 (toString t.offset) ++ "  " ++ alignLeft 14 t.directive.label ++ " " ++
    directive t.directive

/-- The listing of a source. -/
def lines (source : List Char) : List String := (tokenize source).map line

end Chiptune.Listing
