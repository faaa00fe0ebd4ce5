import Chiptune.Decimal.Reader
import Chiptune.Yaml.Text

/-!
# The content of scalars

A scalar is plain, in quotes, or a block of lines. Where a plain or quoted scalar goes on over
several lines, its lines are folded: one end of a line becomes a space, of several the first is
dropped. Each reader below answers the content and what follows it, or nothing where the text
breaks a rule.
-/

namespace Chiptune.Yaml

/-! ## Folding -/

/-- What stands between two words of a scalar. -/
structure Gap where
  /-- Blanks, while no line has ended. -/
  blanks : List Char
  /-- The ends of lines. -/
  breaks : List Char
  /-- Whether a backslash stands before the first end of a line. -/
  escaped : Bool

namespace Gap

/-- Nothing between two characters of a word. -/
def nothing : Gap := ⟨[], [], false⟩

/-- Whether a line has ended. -/
def spansLines (gap : Gap) : Bool := gap.escaped || !gap.breaks.isEmpty

/-- Whether there is anything. -/
def isSomething (gap : Gap) : Bool := gap.spansLines || !gap.blanks.isEmpty

/-- A gap with a further blank. Blanks at the start of a line count for nothing. -/
def addBlank (c : Char) (gap : Gap) : Gap :=
  if gap.spansLines then gap else { gap with blanks := gap.blanks ++ [c] }

/-- A gap with a further end of a line. Blanks at the end of a line count for nothing. -/
def addBreak (c : Char) (gap : Gap) : Gap := { gap with blanks := [], breaks := gap.breaks ++ [c] }

/-- What a gap adds to the content. -/
def content (gap : Gap) : List Char :=
  if gap.escaped then gap.breaks
  else
    match gap.breaks with
    | [] => gap.blanks
    | first :: others =>
      if first = '\n' then if others.isEmpty then [' '] else others else first :: others

end Gap

/-! ## Plain scalars -/

/-- What is left of a plain scalar, with the gap before it. It ends at a colon behind a word, before
a comment, where a line does not reach the margin, and within brackets also at one of their signs.
The flag tells whether its last line had ended. -/
def plain (inFlow : Bool) (margin : Nat) (gap : Gap) : Text → Option (List Char × Bool × Text)
  | [] => some ([], gap.spansLines, [])
  | g :: rest =>
    if isBlank g.char then
      if gap.spansLines && g.column < margin && g.char = '\t' then none
      else plain inFlow margin (gap.addBlank g.char) rest
    else if isBreak g.char then plain inFlow margin (gap.addBreak g.char) rest
    else if gap.isSomething &&
        (g.char = '#' || atBoundary (g :: rest) || !inFlow && g.column < margin) then
      some ([], gap.spansLines, g :: rest)
    else if inFlow && g.char = ':' && startsWith ",?[]\x7b\x7d" rest then none
    else if g.char = ':' && atGap rest || inFlow && startsWith ",[]\x7b\x7d" (g :: rest) then
      some ([], gap.spansLines, g :: rest)
    else
      (plain inFlow margin .nothing rest).map fun (content, more) =>
        (gap.content ++ g.char :: content, more)

/-! ## Quoted scalars -/

/-- The character that stands for itself or another behind a backslash. -/
def escaped? : Char → Option Char
  | '0' => some '\x00'
  | 'a' => some '\x07'
  | 'b' => some '\x08'
  | 't' => some '\t'
  | '\t' => some '\t'
  | 'n' => some '\n'
  | 'v' => some '\x0b'
  | 'f' => some '\x0c'
  | 'r' => some '\r'
  | 'e' => some '\x1b'
  | ' ' => some ' '
  | '\x22' => some '\x22'
  | '/' => some '/'
  | '\\' => some '\\'
  | 'N' => some '\x85'
  | '_' => some '\xa0'
  | 'L' => some '\u2028'
  | 'P' => some '\u2029'
  | _ => none

/-- How many hexadecimal digits of a character's code follow a letter behind a backslash. -/
def codeWidth? : Char → Option Nat
  | 'x' => some 2
  | 'u' => some 4
  | 'U' => some 8
  | _ => none

/-- The character whose code stands in front in `width` hexadecimal digits. -/
def code? (width : Nat) (text : Text) : Option Char :=
  let digits := (text.take width).map (·.char)
  if digits.length < width then none
  else
    match Decimal.digitsFrom? 16 0 digits with
    | some n => if n < 0xD800 || (0xDFFF < n && n < 0x110000) then some (Char.ofNat n) else none
    | none => none

/-- What is left of a quoted scalar, with the gap before it. Between single quotes two of them
stand for one; between double quotes a backslash escapes. -/
def quoted (double : Bool) (gap : Gap) : Text → Option (List Char × Text)
  | [] => none
  | g :: rest =>
    let goOn (content : List Char) (rest : Option (List Char × Text)) :=
      rest.map fun (more, rest) => (gap.content ++ content ++ more, rest)
    if isBlank g.char then quoted double (gap.addBlank g.char) rest
    else if isBreak g.char then quoted double (gap.addBreak g.char) rest
    else if atBoundary (g :: rest) then none
    else if g.char = (if double then '\x22' else '\x27') then
      if !double && startsWith "\x27" rest then
        goOn ['\x27'] (quoted double .nothing (rest.drop 1))
      else some (gap.content, rest)
    else if double && g.char = '\\' then
      match rest with
      | [] => none
      | h :: rest =>
        if isBreak h.char then goOn [] (quoted double ⟨[], [], true⟩ rest)
        else
          match escaped? h.char, codeWidth? h.char with
          | some c, _ => goOn [c] (quoted double .nothing rest)
          | none, some width =>
            match code? width rest with
            | some c => goOn [c] (quoted double .nothing (rest.drop width))
            | none => none
          | none, none => none
    else goOn [g.char] (quoted double .nothing rest)
termination_by text => text.length
decreasing_by all_goals simp only [List.length_cons, List.length_drop]; omega

/-! ## Block scalars -/

/-- What becomes of the ends of lines behind the last line of a block. -/
inductive Chomping where
  /-- They are dropped. -/
  | strip
  /-- The first one stays. -/
  | clip
  /-- They stay. -/
  | keep

/-- The chomping that a sign asks for. -/
def Chomping.ofChar? : Char → Option Chomping
  | '+' => some .keep
  | '-' => some .strip
  | _ => none

/-- What stands behind the sign of a block on its line: in either order, a sign for the chomping
and a digit by which the block is indented. Without a digit the indentation is zero. -/
def blockHeader? (text : Text) : Option (Chomping × Nat × Text) :=
  let chomping (text : Text) : Option Chomping × Text :=
    match text with
    | g :: rest =>
      match Chomping.ofChar? g.char with
      | some c => (some c, rest)
      | none => (none, text)
    | [] => (none, [])
  let indentation (text : Text) : Option (Nat × Text) :=
    match text with
    | g :: rest =>
      if g.char = '0' then none
      else if g.char.isDigit then some (g.char.toNat - '0'.toNat, rest)
      else some (0, text)
    | [] => some (0, [])
  do
    let (first, text) := chomping text
    let (indent, text) ← indentation text
    let (second, text) := if first.isSome || indent = 0 then (none, text) else chomping text
    let text ← restOfLine? text
    return ((first.or second).getD .clip, indent, text)

/-- The empty lines in front of a block: their ends, and the widest indentation among them and the
first other line. An indentation of zero is not known yet. -/
def emptyLines (indent widest : Nat) : Text → Option (List Char × Nat × Text)
  | [] => some ([], widest, [])
  | g :: rest =>
    if (indent = 0 || g.column < indent) && g.char = ' ' then
      emptyLines indent (max widest (g.column + 1)) rest
    else if (indent = 0 || g.column < indent) && g.char = '\t' then none
    else if isBreak g.char then
      (emptyLines indent widest rest).map fun (breaks, more) => (g.char :: breaks, more)
    else some ([], widest, g :: rest)

/-- Where the reading of a block stands. -/
structure BlockPlace where
  /-- Whether a line of the block has begun. -/
  inLine : Bool
  /-- Whether the line before, or this one, begins with a blank. -/
  blank : Bool
  /-- The end of the line before. -/
  ending : Option Char
  /-- The ends of the empty lines after it. -/
  empty : List Char

/-- What stands between the lines of a block. In a folded block one end of a line between lines
that do not begin with a blank is dropped, or becomes a space where there is no empty line. -/
def BlockPlace.between (literal blank : Bool) (p : BlockPlace) : List Char :=
  if !literal && p.ending == some '\n' && !p.blank && !blank then
    if p.empty.isEmpty then [' '] else p.empty
  else p.ending.toList ++ p.empty

/-- What stays behind the last line. -/
def BlockPlace.tail (chomping : Chomping) (p : BlockPlace) : List Char :=
  match chomping with
  | .strip => []
  | .clip => p.ending.toList
  | .keep => p.ending.toList ++ p.empty

/-- The lines of a block that are indented by `indent`. -/
def blockLines (literal : Bool) (chomping : Chomping) (indent : Nat) (p : BlockPlace) :
    Text → Option (List Char × Text)
  | [] => some (p.tail chomping, [])
  | g :: rest =>
    if p.inLine then
      if isBreak g.char then
        blockLines literal chomping indent ⟨false, p.blank, some g.char, []⟩ rest
      else
        (blockLines literal chomping indent p rest).map fun (content, more) =>
          (g.char :: content, more)
    else if g.column < indent && g.char = ' ' then blockLines literal chomping indent p rest
    else if g.column < indent && g.char = '\t' then none
    else if isBreak g.char then
      blockLines literal chomping indent { p with empty := p.empty ++ [g.char] } rest
    else if g.column = indent then
      let blank := isBlank g.char
      (blockLines literal chomping indent ⟨true, blank, none, []⟩ rest).map
        fun (content, more) => (p.between literal blank ++ g.char :: content, more)
    else some (p.tail chomping, g :: rest)

/-- A block scalar behind its sign. Without a digit its first line that is not empty, and no
narrower empty line before it, gives the indentation, which reaches the margin at least. -/
def block (literal : Bool) (margin : Nat) (text : Text) : Option (List Char × Text) := do
  let (chomping, increment, text) ← blockHeader? text
  let given := if increment = 0 then 0 else margin - 1 + increment
  let (breaks, widest, text) ← emptyLines given 0 text
  let indent := if given = 0 then max (max widest margin) 1 else given
  blockLines literal chomping indent ⟨false, false, none, breaks⟩ text

end Chiptune.Yaml
