import Chiptune.Error
import Chiptune.Yaml.Content

/-!
# The tokens of a YAML document

Blocks have no signs of their own in the text: they open where a token stands further to the right
than the block around it, and close where one stands further to the left. `Scan` keeps the margins
of the open blocks. That a token was a key shows only at the colon behind it, so `Scan` also keeps,
for each level of brackets, the last place where a key may have begun. Such a place is given up
behind the end of its line, and after 1024 bytes.
-/

namespace Chiptune.Yaml

/-- How a scalar is written. -/
inductive Style where
  | plain | quoted | literal | folded
deriving DecidableEq

/-- The tokens of a document. Its own beginning and end are those of the list of tokens. -/
inductive Token where
  /-- A directive with the version of the language. -/
  | version (major minor : Nat)
  /-- A directive that makes a handle stand for the beginning of tags. -/
  | shorthand (handle beginning : List Char)
  | documentStart
  | documentEnd
  | blockSequence
  | blockMapping
  | blockEnd
  | openBracket
  | closeBracket
  | openBrace
  | closeBrace
  | comma
  | dash
  | key
  | value
  /-- A name for the node behind it. -/
  | anchor (name : List Char)
  /-- The node with a name. -/
  | reference (name : List Char)
  | tag (handle suffix : List Char)
  | scalar (style : Style) (content : List Char)
deriving DecidableEq

/-! ## Names, tags and directives -/

/-- The name of an anchor. -/
def name? (text : Text) : Option (List Char × Text) :=
  let (name, rest) := spanChars isWord text
  if !name.isEmpty && (atGap rest || startsWith "?:,]\x7d%@\x60" rest) then some (name, rest)
  else none

/-- The characters of a tag; brackets and commas only where the tag stands between angle
brackets. -/
def isTagChar (enclosed : Bool) (c : Char) : Bool :=
  isWord c || ";/?:@&=+$.!~*'()".toList.contains c || enclosed && ",[]".toList.contains c

/-- How many octets follow the first one of a character in UTF-8. -/
def furtherOctets? (octet : Nat) : Option Nat :=
  if octet < 0x80 then some 0
  else if octet / 32 = 6 then some 1
  else if octet / 16 = 14 then some 2
  else if octet / 8 = 30 then some 3
  else none

/-- The characters of a tag in front. A percent sign stands before the two digits of an octet, of
which a character has still `owed` to come. -/
def tagText? (enclosed : Bool) (owed : Nat) : Text → Option (List Char × Text)
  | [] => if owed = 0 then some ([], []) else none
  | g :: rest =>
    let octetBehind (octet owed : Nat) (more : Nat → Option (List Char × Text)) :=
      let next? := if owed = 0 then furtherOctets? octet
        else if octet / 64 = 2 then some (owed - 1) else none
      (next?.bind more).map fun (cs, rest) => (Char.ofNat octet :: cs, rest)
    if g.char = '%' then
      match rest with
      | high :: low :: rest =>
        match Decimal.digitsFrom? 16 0 [high.char, low.char] with
        | some octet => octetBehind octet owed fun owed => tagText? enclosed owed rest
        | none => none
      | _ => none
    else if owed ≠ 0 then none
    else if isTagChar enclosed g.char then
      (tagText? enclosed 0 rest).map fun (cs, rest) => (g.char :: cs, rest)
    else some ([], g :: rest)

/-- What counts of the characters of a tag: those before an octet of zero. -/
def untilZero (cs : List Char) : List Char := cs.takeWhile (· ≠ '\x00')

/-- What counts of the characters of a tag in front, of which there is at least one. -/
def tagPart? (enclosed : Bool) (text : Text) : Option (List Char × Text) :=
  ((tagText? enclosed 0 text).filter fun (cs, _) => !cs.isEmpty).map fun (cs, rest) =>
    (untilZero cs, rest)

/-- A tag behind its exclamation mark: between angle brackets, behind a handle, or by itself. -/
def tag? (text : Text) : Option (Token × Text) :=
  if startsWith "<" text then do
    let (suffix, rest) ← tagPart? true (text.drop 1)
    if startsWith ">" rest then some (.tag [] suffix, rest.drop 1) else none
  else
    let (word, rest) := spanChars isWord text
    if startsWith "!" rest then do
      let (suffix, rest) ← tagPart? false (rest.drop 1)
      return (.tag ('!' :: word ++ ['!']) suffix, rest)
    else do
      let (more, rest) ← tagText? false 0 rest
      let suffix := untilZero (word ++ more)
      return (if suffix.isEmpty then .tag [] ['!'] else .tag ['!'] suffix, rest)

/-- A number of a version, of at most nine digits. -/
def versionNumber? (text : Text) : Option (Nat × Text) :=
  let (digits, rest) := spanChars Char.isDigit text
  if digits.isEmpty || 9 < digits.length then none else some (Decimal.whole digits, rest)

/-- What follows the name of the directive with the version. -/
def version? (text : Text) : Option (Token × Text) := do
  let (major, rest) ← versionNumber? (skipBlanks text)
  if startsWith "." rest then
    let (minor, rest) ← versionNumber? (rest.drop 1)
    return (.version major minor, rest)
  else none

/-- What follows the name of the directive with a handle. -/
def shorthand? (text : Text) : Option (Token × Text) := do
  let text := skipBlanks text
  if startsWith "!" text then
    let (word, rest) := spanChars isWord (text.drop 1)
    let closed := startsWith "!" rest
    let rest := if closed then rest.drop 1 else rest
    if (closed || word.isEmpty) && startsWith " \t" rest then
      let (beginning, rest) ← tagPart? true (skipBlanks rest)
      if atGap rest then
        return (.shorthand ('!' :: word ++ if closed then ['!'] else []) beginning, rest)
      else none
    else none
  else none

/-- A directive behind its percent sign, with its line. -/
def directive? (text : Text) : Option (Token × Text) := do
  let (name, rest) := spanChars isWord text
  let (token, rest) ←
    if !atGap rest then none
    else if name = "YAML".toList then version? rest
    else if name = "TAG".toList then shorthand? rest
    else none
  return (token, ← restOfLine? rest)

/-! ## Scanning -/

/-- A place where a key may have begun. -/
structure KeyPlace where
  /-- How many tokens come before it. -/
  position : Nat
  index : Nat
  line : Nat
  column : Nat
  /-- Whether nothing but a key may stand there. -/
  required : Bool

/-- Where a scan stands. -/
structure Scan where
  /-- The tokens so far. -/
  tokens : Array Token
  /-- The column that what belongs to the innermost block has to reach: one more than that of the
  block itself, and zero outside of all blocks. -/
  margin : Nat
  /-- The margins around it, innermost first. -/
  outerMargins : List Nat
  /-- Whether a key may begin at the next token. -/
  keyAllowed : Bool
  /-- Where a key may have begun. -/
  keyPlace : Option KeyPlace
  /-- The same for each level of brackets around this one, innermost first. -/
  outerKeyPlaces : List (Option KeyPlace)

namespace Scan

/-- The start of a document. -/
def start : Scan :=
  { tokens := #[]
    margin := 0
    outerMargins := []
    keyAllowed := true
    keyPlace := none
    outerKeyPlaces := [] }

/-- Whether a bracket is open. -/
def inFlow (s : Scan) : Bool := !s.outerKeyPlaces.isEmpty

/-- Adds a token. -/
def emit (token : Token) (s : Scan) : Scan := { s with tokens := s.tokens.push token }

/-- Adds a token behind the first `position` tokens. -/
def insert (position : Nat) (token : Token) (s : Scan) : Scan :=
  { s with tokens := s.tokens.insertIdxIfInBounds position token }

/-- Opens a block at a column that reaches the margin. Within brackets there are no blocks. -/
def openBlock (column position : Nat) (token : Token) (s : Scan) : Scan :=
  if !s.inFlow && s.margin ≤ column then
    { s.insert position token with margin := column + 1, outerMargins := s.margin :: s.outerMargins }
  else s

/-- The margins above `margin`, counted, and those that remain. -/
def marginsAbove (margin current : Nat) : List Nat → Nat × Nat × List Nat
  | [] => (0, current, [])
  | outer :: others =>
    if margin < current then
      let (count, remaining) := marginsAbove margin outer others
      (count + 1, remaining)
    else (0, current, outer :: others)

/-- Closes the blocks whose margin is above `margin`. -/
def closeBlocks (margin : Nat) (s : Scan) : Scan :=
  if s.inFlow then s
  else
    let (count, current, outer) := marginsAbove margin s.margin s.outerMargins
    { s with
      tokens := s.tokens ++ Array.replicate count .blockEnd
      margin := current
      outerMargins := outer }

/-- Gives up a place of a key, if none has to be there. -/
def giveUp : Option KeyPlace → Option (Option KeyPlace)
  | some place => if place.required then none else some none
  | none => some none

/-- Gives up the place of a key on this level. -/
def forgetKey (s : Scan) : Option Scan := do
  let keyPlace ← giveUp s.keyPlace
  return { s with keyPlace }

/-- Gives up the places of keys that are too far from `g`. -/
def forgetFarKeys (g : Glyph) (s : Scan) : Option Scan := do
  let check (place? : Option KeyPlace) : Option (Option KeyPlace) :=
    match place? with
    | some place =>
      if place.line < g.line || place.index + 1024 < g.index then giveUp place? else some place?
    | none => some none
  let keyPlace ← check s.keyPlace
  let outerKeyPlaces ← s.outerKeyPlaces.mapM check
  return { s with keyPlace, outerKeyPlaces }

/-- Notes that a key may begin at `g`. -/
def rememberKey (g : Glyph) (s : Scan) : Option Scan :=
  if s.keyAllowed then do
    let s ← s.forgetKey
    let place : KeyPlace :=
      { position := s.tokens.size
        index := g.index
        line := g.line
        column := g.column
        required := !s.inFlow && s.margin == g.column + 1 }
    return { s with keyPlace := some place }
  else some s

/-- Takes an end or beginning of a document, or a directive, in front of which all blocks close. -/
def between (token : Token) (rest : Text) (s : Scan) : Option (Scan × Text) := do
  let s ← (s.closeBlocks 0).forgetKey
  return ({ s.emit token with keyAllowed := false }, rest)

/-- Takes a bracket that opens. -/
def openFlow (token : Token) (g : Glyph) (rest : Text) (s : Scan) : Option (Scan × Text) := do
  let s ← s.rememberKey g
  return ({ s.emit token with
    keyAllowed := true
    keyPlace := none
    outerKeyPlaces := s.keyPlace :: s.outerKeyPlaces }, rest)

/-- Takes a bracket that closes. -/
def closeFlow (token : Token) (rest : Text) (s : Scan) : Option (Scan × Text) := do
  let s ← s.forgetKey
  let s := { s.emit token with keyAllowed := false }
  match s.outerKeyPlaces with
  | keyPlace :: outerKeyPlaces => return ({ s with keyPlace, outerKeyPlaces }, rest)
  | [] => return (s, rest)

/-- Takes a comma. -/
def comma (rest : Text) (s : Scan) : Option (Scan × Text) := do
  let s ← s.forgetKey
  return ({ s.emit .comma with keyAllowed := true }, rest)

/-- Takes the dash of a sequence. -/
def dash (g : Glyph) (rest : Text) (s : Scan) : Option (Scan × Text) :=
  if !s.inFlow && !s.keyAllowed then none
  else do
    let s ← (s.openBlock g.column s.tokens.size .blockSequence).forgetKey
    return ({ s.emit .dash with keyAllowed := true }, rest)

/-- Takes the question mark of a key. -/
def key (g : Glyph) (rest : Text) (s : Scan) : Option (Scan × Text) :=
  if !s.inFlow && !s.keyAllowed then none
  else do
    let s ← (s.openBlock g.column s.tokens.size .blockMapping).forgetKey
    return ({ s.emit .key with keyAllowed := !s.inFlow }, rest)

/-- Takes the colon of a value. What stands at the place of a key turns out to be one. -/
def value (g : Glyph) (rest : Text) (s : Scan) : Option (Scan × Text) :=
  match s.keyPlace with
  | some place =>
    let s := (s.insert place.position .key).openBlock place.column place.position .blockMapping
    some ({ s.emit .value with keyPlace := none, keyAllowed := false }, rest)
  | none =>
    if !s.inFlow && !s.keyAllowed then none
    else
      let s := s.openBlock g.column s.tokens.size .blockMapping
      some ({ s.emit .value with keyAllowed := !s.inFlow }, rest)

/-- Takes a token that a key can begin with. -/
def part (g : Glyph) (found : Option (Token × Text)) (s : Scan) : Option (Scan × Text) := do
  let s ← s.rememberKey g
  let (token, rest) ← found
  return ({ s.emit token with keyAllowed := false }, rest)

/-- Takes a block scalar behind its sign. -/
def blockScalar (literal : Bool) (rest : Text) (s : Scan) : Option (Scan × Text) := do
  let s ← s.forgetKey
  let (content, rest) ← block literal s.margin rest
  return ({ s.emit (.scalar (if literal then .literal else .folded) content) with
    keyAllowed := true }, rest)

/-- Takes a plain scalar. Behind the end of its last line a key may begin. -/
def plainScalar (g : Glyph) (rest : Text) (s : Scan) : Option (Scan × Text) := do
  let s ← s.rememberKey g
  let (content, lineEnded, rest) ← plain s.inFlow s.margin .nothing (g :: rest)
  return ({ s.emit (.scalar .plain content) with keyAllowed := lineEnded }, rest)

/-- Whether a plain scalar can begin with `g`. -/
def beginsPlain (inFlow : Bool) (g : Glyph) (rest : Text) : Bool :=
  !(isBlank g.char || startsWith "-?:,[]\x7b\x7d#&*!|>'\x22%@\x60" (g :: rest)) ||
    g.char = '-' && !startsWith " \t" rest ||
    !inFlow && (g.char = '?' || g.char = ':') && !atGap rest

/-- Takes the token that begins with `g`. -/
def take (g : Glyph) (rest : Text) (s : Scan) : Option (Scan × Text) :=
  let text := g :: rest
  if g.column = 0 && g.char = '%' then do
    let (token, rest) ← directive? rest
    s.between token rest
  else if atMarker '-' text then s.between .documentStart (text.drop 3)
  else if atMarker '.' text then s.between .documentEnd (text.drop 3)
  else if g.char = '[' then s.openFlow .openBracket g rest
  else if g.char = '\x7b' then s.openFlow .openBrace g rest
  else if g.char = ']' then s.closeFlow .closeBracket rest
  else if g.char = '\x7d' then s.closeFlow .closeBrace rest
  else if g.char = ',' then s.comma rest
  else if g.char = '-' && atGap rest then s.dash g rest
  else if g.char = '?' && (s.inFlow || atGap rest) then s.key g rest
  else if g.char = ':' && (s.inFlow || atGap rest) then s.value g rest
  else if g.char = '*' then s.part g ((name? rest).map fun (name, rest) => (.reference name, rest))
  else if g.char = '&' then s.part g ((name? rest).map fun (name, rest) => (.anchor name, rest))
  else if g.char = '!' then
    s.part g ((tag? rest).filter fun (_, rest) =>
      atGap rest || s.inFlow && startsWith "," rest)
  else if g.char = '|' && !s.inFlow then s.blockScalar true rest
  else if g.char = '>' && !s.inFlow then s.blockScalar false rest
  else if g.char = '\x27' || g.char = '\x22' then
    s.part g ((quoted (g.char = '\x22') .nothing rest).map
      fun (content, rest) => (.scalar .quoted content, rest))
  else if beginsPlain s.inFlow g rest then s.plainScalar g rest
  else none

/-- The tokens of what is left of a document. Every token takes a character at least, so as many
steps as there are characters, and one more to find the end, are enough. -/
def run : (steps : Nat) → Scan → Text → Except ConfigError (List Token)
  | 0, _, _ => .error .unstructured
  | steps + 1, s, text =>
    let (keyAllowed, text) := skipToToken s.inFlow s.keyAllowed false text
    let s := { s with keyAllowed }
    match text with
    | [] =>
      match (s.closeBlocks 0).forgetKey with
      | some s => .ok s.tokens.toList
      | none => .error .unstructured
    | g :: rest =>
      let next := do
        let s ← s.forgetFarKeys g
        (s.closeBlocks (g.column + 1)).take g rest
      match next with
      | some (s, rest) => run steps s rest
      | none => .error (.malformed (g.line + 1))

end Scan

/-- The tokens of a document. -/
def tokens (document : List Char) : Except ConfigError (List Token) :=
  if document.all isAllowed then
    let text := glyphs document
    Scan.start.run (text.length + 1) text
  else .error .unstructured

end Chiptune.Yaml
