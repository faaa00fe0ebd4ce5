import Chiptune.Yaml.Token

/-!
# YAML documents

A document is a tree of nodes: scalars, sequences and mappings. `Yaml.read` builds the tree from
the tokens of a text that holds at most one document. A node that is left out is an empty plain
scalar.

Nodes with names are kept in places. A node comes to the place whose number is that of the
different names before it, and takes it over from the node that was there, if there was one. A
reference to a name is one to the place of the last node with that name before it. It means what
the place holds when the document ends.
-/

namespace Chiptune.Yaml

/-- A scalar with its style, its tag and its content. -/
structure Scalar where
  style : Style
  tag : Option (List Char)
  content : List Char
deriving DecidableEq

/-- A node of a document. -/
inductive Node where
  | scalar (s : Scalar)
  | sequence (items : List Node)
  | mapping (entries : List (Node × Node))
  /-- A reference to what a place holds. -/
  | reference (place : Nat)

/-- A node that is left out. -/
def Node.absent : Node := .scalar ⟨.plain, none, []⟩

/-- A document. -/
structure Document where
  root : Node
  /-- What came to places, the last one first: a scalar, or none for a sequence or mapping. -/
  places : List (Nat × Option Scalar)

/-- The scalar that a node is, or to which it refers. -/
def Document.scalar? (d : Document) : Node → Option Scalar
  | .scalar s => some s
  | .reference place => (d.places.lookup place).join
  | _ => none

/-- What the tags of scalars with a common meaning begin with. -/
def commonTag : List Char := "tag:yaml.org,2002:".toList

/-- What is left to be read, and what is known of it. -/
structure Reading where
  tokens : List Token
  /-- The different names so far, with their places. -/
  names : List (List Char × Nat)
  /-- What came to places, the last one first: a scalar, or none for a sequence or mapping. -/
  places : List (Nat × Option Scalar)
  /-- What handles stand for. -/
  handles : List (List Char × List Char)

namespace Reading

/-- A reader of a part of a document. -/
abbrev Reader := StateT Reading Option

/-- The next token. -/
def peek : Reader (Option Token) := fun r => some (r.tokens.head?, r)

/-- Goes past the next token. -/
def advance : Reader Unit := fun r => some ((), { r with tokens := r.tokens.tail })

/-- Whether the next token is one of some tokens. -/
def nextIs (tokens : List Token) : Reader Bool := do
  return (← peek).any tokens.contains

/-- Goes past a token that has to come next. -/
def expect (token : Token) : Reader Unit := do
  if ← nextIs [token] then advance else failure

/-- Puts a node with a name in its place. -/
def bind (name? : Option (List Char)) (scalar? : Option Scalar) : Reader Unit :=
  match name? with
  | some name => modify fun r =>
    let place := r.names.length
    { r with
      names := (name, place) :: r.names.filter (·.1 ≠ name)
      places := (place, scalar?) :: r.places }
  | none => pure ()

/-- A reference to the place of a name. -/
def resolve (name : List Char) : Reader Node := do
  match (← get).names.lookup name with
  | some place => return .reference place
  | none => failure

/-- The full text of a tag. -/
def fullTag (handle suffix : List Char) : Reader (List Char) := do
  if handle.isEmpty then return suffix
  match (← get).handles.lookup handle with
  | some beginning => return beginning ++ suffix
  | none => failure

/-- The name in front of a node, if it has one. -/
def anchor? : Reader (Option (List Char)) := do
  match ← peek with
  | some (.anchor name) => advance; return some name
  | _ => return none

/-- The tag in front of a node, if it has one. -/
def tag? : Reader (Option (List Char)) := do
  match ← peek with
  | some (.tag handle suffix) => advance; return some (← fullTag handle suffix)
  | _ => return none

/-- The name and the tag in front of a node, in either order. -/
def properties : Reader (Option (List Char) × Option (List Char)) := do
  match ← anchor? with
  | some name => return (some name, ← tag?)
  | none =>
    match ← tag? with
    | some tag => return (← anchor?, some tag)
    | none => return (none, none)

/-! ## Nodes

A node in a block may itself be a block. A sequence that is the value of a key need not be indented:
its dashes then stand below the key. No reader makes more than three steps without taking a token,
so three times as many steps as there are tokens are enough. -/

mutual

/-- A node. -/
def node (inBlock besideKey : Bool) : (steps : Nat) → Reader Node
  | 0 => failure
  | steps + 1 => do
    if let some (.reference name) ← peek then
      advance
      return ← resolve name
    let (name, tag) ← properties
    let scalar (s : Scalar) : Reader Node := do
      bind name (some s)
      return .scalar s
    let collection (read : Reader Node) : Reader Node := do
      bind name none
      read
    match ← peek with
    | some (.scalar style content) =>
      advance
      scalar ⟨style, tag, content⟩
    | some .openBracket => advance; collection (.sequence <$> items true steps)
    | some .openBrace => advance; collection (.mapping <$> pairs true steps)
    | next =>
      if besideKey && next == some .dash then
        collection (.sequence <$> flushItems steps)
      else if inBlock && next == some .blockSequence then
        advance
        collection (.sequence <$> blockItems steps)
      else if inBlock && next == some .blockMapping then
        advance
        collection (.mapping <$> blockPairs steps)
      else if name.isSome || tag.isSome then
        scalar ⟨.plain, tag, []⟩
      else failure

/-- A node, unless one of some tokens comes next: then it is left out. -/
def nodeUnless (stops : List Token) (inBlock besideKey : Bool) : (steps : Nat) → Reader Node
  | 0 => failure
  | steps + 1 => do
    if ← nextIs stops then return .absent
    node inBlock besideKey steps

/-- The value of a key, if a colon comes next, unless one of some tokens follows. -/
def valueUnless (stops : List Token) (inBlock : Bool) : (steps : Nat) → Reader Node
  | 0 => failure
  | steps + 1 => do
    if ← nextIs [.value] then
      advance
      nodeUnless stops inBlock inBlock steps
    else return .absent

/-- The items of a sequence that is a block. -/
def blockItems : (steps : Nat) → Reader (List Node)
  | 0 => failure
  | steps + 1 => do
    if ← nextIs [.dash] then
      advance
      let item ← nodeUnless [.dash, .blockEnd] true false steps
      return item :: (← blockItems steps)
    expect .blockEnd
    return []

/-- The items of a sequence that stands flush with its key. -/
def flushItems : (steps : Nat) → Reader (List Node)
  | 0 => failure
  | steps + 1 => do
    if ← nextIs [.dash] then
      advance
      let item ← nodeUnless [.dash, .key, .value, .blockEnd] true false steps
      return item :: (← flushItems steps)
    return []

/-- The entries of a mapping that is a block. -/
def blockPairs : (steps : Nat) → Reader (List (Node × Node))
  | 0 => failure
  | steps + 1 => do
    if ← nextIs [.key] then
      advance
      let stops : List Token := [.key, .value, .blockEnd]
      let key ← nodeUnless stops true true steps
      let value ← valueUnless stops true steps
      return (key, value) :: (← blockPairs steps)
    expect .blockEnd
    return []

/-- The items of a sequence in brackets. An item may be a key with its value. -/
def items (first : Bool) : (steps : Nat) → Reader (List Node)
  | 0 => failure
  | steps + 1 => do
    if ← nextIs [.closeBracket] then
      advance
      return []
    if !first then expect .comma
    if ← nextIs [.closeBracket] then
      advance
      return []
    if ← nextIs [.key] then
      advance
      let key ←
        if ← nextIs [.value, .comma, .closeBracket] then
          advance
          pure .absent
        else node false false steps
      let value ← valueUnless [.comma, .closeBracket] false steps
      return .mapping [(key, value)] :: (← items false steps)
    let item ← node false false steps
    return item :: (← items false steps)

/-- The entries of a mapping in braces. An entry may be a key without a value. -/
def pairs (first : Bool) : (steps : Nat) → Reader (List (Node × Node))
  | 0 => failure
  | steps + 1 => do
    if ← nextIs [.closeBrace] then
      advance
      return []
    if !first then expect .comma
    if ← nextIs [.closeBrace] then
      advance
      return []
    if ← nextIs [.key] then
      advance
      let key ← nodeUnless [.value, .comma, .closeBrace] false false steps
      let value ← valueUnless [.comma, .closeBrace] false steps
      return (key, value) :: (← pairs false steps)
    let key ← node false false steps
    return (key, .absent) :: (← pairs false steps)

end

/-! ## Documents -/

/-- The directives in front of a document: at most one version, which has to be 1.1 or 1.2, and no
handle twice. -/
def directives (versionSeen : Bool) (handles : List (List Char × List Char)) :
    List Token → Option (List (List Char × List Char) × List Token)
  | .version major minor :: tokens =>
    if versionSeen || major ≠ 1 || (minor ≠ 1 && minor ≠ 2) then none
    else directives true handles tokens
  | .shorthand handle beginning :: tokens =>
    if (handles.lookup handle).isSome then none
    else directives versionSeen ((handle, beginning) :: handles) tokens
  | tokens => some (handles, tokens)

/-- The handles that are known without a directive. -/
def knownHandles : List (List Char × List Char) := [(['!'], ['!']), (['!', '!'], commonTag)]

/-- Whether a token stands outside of documents. -/
def isOutside : Token → Bool
  | .version .. => true
  | .shorthand .. => true
  | .documentStart => true
  | .documentEnd => true
  | _ => false

/-- The tokens behind the ends of documents in front. -/
def skipEnds : List Token → List Token
  | .documentEnd :: tokens => skipEnds tokens
  | tokens => tokens

/-- The root of the document that begins with the first token. -/
def root : Reader Node := do
  let steps := 3 * (← get).tokens.length + 3
  match ← peek with
  | some .documentEnd => failure
  | some first =>
    if !isOutside first then node true false steps
    else do
      match directives false [] (← get).tokens with
      | some (handles, tokens) => set (⟨tokens, [], [], handles ++ knownHandles⟩ : Reading)
      | none => failure
      expect .documentStart
      match ← peek with
      | some next => if isOutside next then return .absent else node true false steps
      | none => return .absent
  | none => failure

end Reading

/-- The document of a text, if there is one. A text with more than one document is refused. -/
def read (text : List Char) : Except ConfigError (Option Document) :=
  match tokens text with
  | .error fault => .error fault
  | .ok [] => .ok none
  | .ok tokens =>
    match Reading.root.run ⟨tokens, [], [], Reading.knownHandles⟩ with
    | some (root, rest) =>
      if (Reading.skipEnds rest.tokens).isEmpty then .ok (some ⟨root, rest.places⟩)
      else .error .unstructured
    | none => .error .unstructured

end Chiptune.Yaml
