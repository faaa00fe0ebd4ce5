import Chiptune.Notation.Token

/-!
# Scanning the notation

The scanner never fails: a character that begins no token is passed over, and so is a directive
letter without the argument it needs. Each reader below looks at the characters from its
position on and answers what it read together with its *width*, the number of characters that
belong to it; what follows is `cs.drop width`.
-/

namespace Chiptune.Scanner

/-- The digits in front. -/
def digits (cs : List Char) : List Char := cs.takeWhile Char.isDigit

/-- The whole number that digits write, at most `maxWhole`. -/
def whole (ds : List Char) : Nat := min (Decimal.whole ds) maxWhole

/-- Digits, if there are any, as a whole number. -/
def whole? (cs : List Char) : Option Nat × Nat :=
  match digits cs with
  | [] => (none, 0)
  | ds => (some (whole ds), ds.length)

/-- Digits, then perhaps a point and further digits. A point without a digit after it is not
part of the number. -/
def number? (cs : List Char) : Option (Decimal × Nat) :=
  match digits cs with
  | [] => none
  | before =>
    match cs.drop before.length with
    | '.' :: tail =>
      match digits tail with
      | [] => some (.ofParts before [], before.length)
      | after => some (.ofParts before after, before.length + 1 + after.length)
    | _ => some (.ofParts before [], before.length)

/-- Numbers that each follow a comma. A comma without a digit after it is not taken. -/
def furtherNumbers (cs : List Char) : List Decimal × Nat :=
  match cs with
  | ',' :: tail =>
    match number? tail with
    | none => ([], 0)
    | some (value, width) =>
      let (values, more) := furtherNumbers (tail.drop width)
      (value :: values, 1 + width + more)
  | _ => ([], 0)
termination_by cs.length
decreasing_by simp only [List.length_drop, List.length_cons]; omega

/-- Numbers with commas between them, perhaps none. -/
def numbers (cs : List Char) : List Decimal × Nat :=
  match number? cs with
  | none => ([], 0)
  | some (value, width) =>
    let (values, more) := furtherNumbers (cs.drop width)
    (value :: values, width + more)

/-- Tied parts, each of digits and a dot that may both be absent. A part without digits leaves
no note value. -/
def noteValues (cs : List Char) : List NoteValue × Nat :=
  let ds := digits cs
  let dotted := (cs.drop ds.length).head? == some '.'
  let width := ds.length + dotted.toNat
  let value := if ds.isEmpty then [] else [⟨whole ds, dotted⟩]
  match _h : cs.drop width with
  | '&' :: tail =>
    let (values, more) := noteValues tail
    (value ++ values, width + 1 + more)
  | _ => (value, width)
termination_by cs.length
decreasing_by
  have := congrArg List.length _h
  simp only [List.length_drop, List.length_cons] at this
  omega

/-- A length, if a part of it has a denominator. -/
def length? (cs : List Char) : Option Length × Nat :=
  let (values, width) := noteValues cs
  (Length.ofParts? values, width)

/-- What follows a pitch letter: perhaps an accidental, then perhaps a length. -/
def note (letter : Letter) (cs : List Char) : Directive × Nat :=
  match cs.head?.bind Accidental.ofChar? with
  | some accidental =>
    let (length, width) := length? cs.tail
    (.note ⟨letter, accidental⟩ length, 1 + width)
  | none =>
    let (length, width) := length? cs
    (.note ⟨letter, .natural⟩ length, width)

/-- What follows an `@`: a waveform's index, or a letter and its numbers. -/
def atDirective (cs : List Char) : Option Directive × Nat :=
  match cs with
  | 'e' :: tail => let (values, width) := numbers tail; (some (.envelope values), 1 + width)
  | 'h' :: tail => let (values, width) := numbers tail; (some (.harmony values), 1 + width)
  | 'u' :: tail => let (values, width) := numbers tail; (some (.unison values), 1 + width)
  | _ => let (index, width) := whole? cs; (index.map .waveform, width)

/-- What follows a `#`: a lower-case letter and its numbers. -/
def effect (cs : List Char) : Option Directive × Nat :=
  match cs with
  | letter :: tail =>
    if letter.isLower then
      let (values, width) := numbers tail
      (some (.effect letter values), 1 + width)
    else (none, 0)
  | [] => (none, 0)

/-- A number that a directive letter needs. -/
def withNumber (directive : Decimal → Directive) (cs : List Char) : Option Directive × Nat :=
  match number? cs with
  | some (value, width) => (some (directive value), width)
  | none => (none, 0)

/-- The directive that begins with the character `c` and goes on with `cs`, and how many
characters of `cs` belong to it. -/
def lexeme (c : Char) (cs : List Char) : Option Directive × Nat :=
  match Letter.ofChar? c with
  | some letter => let (directive, width) := note letter cs; (some directive, width)
  | none =>
    match c with
    | 'r' => let (length, width) := length? cs; (some (.rest length), width)
    | 'l' => let (length, width) := length? cs; (length.map .defaultLength, width)
    | 't' => withNumber .tempo cs
    | 'v' => withNumber .volume cs
    | '<' => (some .octaveUp, 0)
    | '>' => (some .octaveDown, 0)
    | '[' => (some .repeatStart, 0)
    | ']' => let (count, width) := whole? cs; (some (.repeatEnd count), width)
    | ';' => (some .voiceReset, 0)
    | '@' => atDirective cs
    | '#' => effect cs
    | _ => (none, 0)

/-- The tokens of a text whose first character has the index `offset`. -/
def tokensFrom (offset : Nat) : List Char → List Token
  | [] => []
  | c :: cs =>
    let (directive, width) := lexeme c cs
    let others := tokensFrom (offset + 1 + width) (cs.drop width)
    match directive with
    | some directive => ⟨directive, offset⟩ :: others
    | none => others
termination_by cs => cs.length
decreasing_by simp only [List.length_drop, List.length_cons]; omega

end Chiptune.Scanner

/-- The tokens of a source text. -/
def Chiptune.tokenize (source : List Char) : List Chiptune.Token :=
  Chiptune.Scanner.tokensFrom 0 source
