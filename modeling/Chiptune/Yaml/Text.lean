/-!
# The text of a YAML document

A document is read as a list of glyphs: its characters together with where they stand. Lines and
columns decide what belongs together, so they are worked out once, here. The characters that end
a line are made one.
-/

namespace Chiptune.Yaml

/-- A character and its place: the bytes and the lines before it, and the characters before it on
its own line. -/
structure Glyph where
  char : Char
  index : Nat
  line : Nat
  column : Nat

/-- A document, or what is left of it. -/
abbrev Text := List Glyph

/-! ## Classes of characters -/

/-- The characters that may stand in a document. -/
def isAllowed (c : Char) : Bool :=
  let n := c.toNat
  n = 0x09 || n = 0x0A || n = 0x0D || (0x20 ≤ n && n ≤ 0x7E) || n = 0x85 ||
    (0xA0 ≤ n && n ≤ 0xFFFD) || 0x10000 ≤ n

/-- Blanks within a line. -/
def isBlank (c : Char) : Bool := c = ' ' || c = '\t'

/-- Line and paragraph separators, which end a line and stay what they are. -/
def isSeparator (c : Char) : Bool := c = '\u2028' || c = '\u2029'

/-- The characters that end a line. -/
def endsLine (c : Char) : Bool := c = '\n' || c = '\r' || c = '\x85' || isSeparator c

/-- The characters that end a line once they have been made one. -/
def isBreak (c : Char) : Bool := c = '\n' || isSeparator c

/-- The characters of names. -/
def isWord (c : Char) : Bool := c.isAlphanum || c = '_' || c = '-'

/-! ## Glyphs -/

/-- The glyphs of characters that begin at a place. A carriage return and a line feed after it end
one line together. -/
def glyphsFrom (index line column : Nat) : List Char → Text
  | [] => []
  | '\r' :: '\n' :: cs => ⟨'\n', index, line, column⟩ :: glyphsFrom (index + 2) (line + 1) 0 cs
  | c :: cs =>
    if endsLine c then
      ⟨if isSeparator c then c else '\n', index, line, column⟩ ::
        glyphsFrom (index + c.utf8Size) (line + 1) 0 cs
    else ⟨c, index, line, column⟩ :: glyphsFrom (index + c.utf8Size) line (column + 1) cs

/-- The glyphs of a document. -/
def glyphs (document : List Char) : Text := glyphsFrom 0 0 0 document

/-- Whether the next character is one of `cs`. -/
def startsWith (cs : String) : Text → Bool
  | g :: _ => cs.toList.contains g.char
  | [] => false

/-- Whether a word ends here: at a blank, at the end of a line or at the end of the document. -/
def atGap : Text → Bool
  | g :: _ => isBlank g.char || isBreak g.char
  | [] => true

/-- Whether a line begins here with three times the character `c` and nothing right behind. -/
def atMarker (c : Char) (text : Text) : Bool :=
  (text.head?.map (·.column)) == some 0 && (text.take 3).map (·.char) == [c, c, c] &&
    atGap (text.drop 3)

/-- Whether a document begins or ends here. -/
def atBoundary (text : Text) : Bool := atMarker '-' text || atMarker '.' text

/-- The characters in front that satisfy a condition, and what follows them. -/
def spanChars (p : Char → Bool) (text : Text) : List Char × Text :=
  ((text.takeWhile (p ·.char)).map (·.char), text.dropWhile (p ·.char))

/-- A text without the blanks in front. -/
def skipBlanks (text : Text) : Text := text.dropWhile (isBlank ·.char)

/-- What follows this line if nothing but a comment is left of it. -/
def restOfLine? (text : Text) : Option Text :=
  let text := skipBlanks text
  let text := if startsWith "#" text then text.dropWhile (!isBreak ·.char) else text
  match text with
  | [] => some []
  | g :: rest => if isBreak g.char then some rest else none

/-- What comes before the next token: blanks, comments and ends of lines. A tab is blank only
where no key can begin; whether one can, is true after a line of a block. A byte order mark at the
start of a line is passed over too. -/
def skipToToken (inFlow keyAllowed inComment : Bool) : Text → Bool × Text
  | [] => (keyAllowed, [])
  | g :: rest =>
    if isBreak g.char then skipToToken inFlow (keyAllowed || !inFlow) false rest
    else if inComment then skipToToken inFlow keyAllowed true rest
    else if g.column = 0 && g.char = '\uFEFF' then skipToToken inFlow keyAllowed false rest
    else if g.char = ' ' || g.char = '\t' && (inFlow || !keyAllowed) then
      skipToToken inFlow keyAllowed false rest
    else if g.char = '#' then skipToToken inFlow keyAllowed true rest
    else (keyAllowed, g :: rest)

end Chiptune.Yaml
