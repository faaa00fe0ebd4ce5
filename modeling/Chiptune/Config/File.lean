import Chiptune.Config.Basic
import Chiptune.Decimal.Reader
import Chiptune.Yaml.Node

/-!
# Settings files

A settings file is a YAML mapping. It may give each setting once; keys that name no setting are
passed over. `Config.read` reads the text of a file and `Config.text` writes it.
-/

namespace Chiptune

namespace Config

/-- Where the settings file stands in the home directory. -/
def homeFile : String := ".dischord/config.yaml"

/-- The keys of the settings. -/
def sampleRateKey : String := "sample_rate"
def seedKey : String := "seed"
def maxSourceLengthKey : String := "max_source_len"
def maxDurationKey : String := "max_duration_secs"

/-- The keys in the order in which they are written. -/
def keys : List String := [sampleRateKey, seedKey, maxSourceLengthKey, maxDurationKey]

/-- The words for no value. -/
def isNothing (content : List Char) : Bool :=
  ["~", "null", "Null", "NULL"].contains (String.ofList content)

/-- The largest whole number of 32 bits. -/
def maxUInt32 : Nat := 4294967295

/-- The largest whole number of 64 bits. -/
def maxUInt64 : Nat := 18446744073709551615

/-- How the value of a setting is read: the kind of number that it is, as tags name it, and the
numbers of that kind. -/
structure Format (α : Type) where
  kind : String
  read? : List Char → Option α

/-- Whole numbers up to a limit. -/
def wholeNumber (limit : Nat) : Format Nat := ⟨"int", Decimal.unsigned? limit⟩

/-- Doubles. -/
def double : Format Float := ⟨"float", Decimal.double?⟩

/-- The value of a setting that must be given. It is written plainly, whatever its tag, or as a
literal block that is tagged as a number of its kind. -/
def required {α : Type} (format : Format α) (key : String) (s : Yaml.Scalar) :
    Except ConfigError α :=
  let value? :=
    match s.style with
    | .plain => format.read? s.content
    | .literal =>
      if s.tag = some (Yaml.commonTag ++ format.kind.toList) then format.read? s.content else none
    | _ => none
  match value? with
  | some value => .ok value
  | none => .error (.badValue key)

/-- The value of a setting that may be nothing. -/
def optional {α : Type} (format : Format α) (key : String) (s : Yaml.Scalar) :
    Except ConfigError (Option α) :=
  match s with
  | ⟨.plain, none, content⟩ =>
    if content.isEmpty || isNothing content then .ok none else some <$> required format key s
  | ⟨.plain, some tag, content⟩ =>
    if tag = Yaml.commonTag ++ "null".toList then
      if isNothing content then .ok none else .error (.badValue key)
    else some <$> required format key s
  | _ => some <$> required format key s

/-- Takes over one entry. Its value is none where it is a sequence or mapping. -/
def set (c : Config) (key : String) (value? : Option Yaml.Scalar) : Except ConfigError Config :=
  let scalar : Except ConfigError Yaml.Scalar :=
    match value? with
    | some s => .ok s
    | none => .error (.badValue key)
  if key = sampleRateKey then do
    let sampleRate ← required (wholeNumber maxUInt32) key (← scalar)
    return { c with sampleRate }
  else if key = seedKey then do
    let seed ← optional (wholeNumber maxUInt64) key (← scalar)
    return { c with seed }
  else if key = maxSourceLengthKey then do
    let maxSourceLength ← optional (wholeNumber maxUInt64) key (← scalar)
    return { c with maxSourceLength }
  else if key = maxDurationKey then do
    let maxDuration ← optional double key (← scalar)
    return { c with maxDuration }
  else return c

/-- Takes over entries in order; `seen` lists the settings given before. A key is none where it is a
sequence or mapping. -/
def setAll (c : Config) (seen : List String) :
    List (Option Yaml.Scalar × Option Yaml.Scalar) → Except ConfigError Config
  | [] => .ok c
  | (some s, value?) :: entries =>
    let key := String.ofList s.content
    if seen.contains key then .error (.duplicate key)
    else
      match c.set key value? with
      | .ok c => setAll c (if keys.contains key then key :: seen else seen) entries
      | .error e => .error e
  | (none, _) :: _ => .error .notMapping

/-- The configuration that a file gives. A file that holds nothing leaves everything as usual. -/
def read (text : String) : Except ConfigError Config :=
  match Yaml.read text.toList with
  | .error e => .error e
  | .ok none => .ok default
  | .ok (some document) =>
    match document.root with
    | .mapping entries =>
      setAll default [] (entries.map fun (key, value) =>
        (document.scalar? key, document.scalar? value))
    | .scalar ⟨.plain, _, []⟩ => .ok default
    | _ => .error .notMapping

/-- The configuration in a file, or why there is none. -/
def load (content : Except FileError String) : Except Error Config :=
  match content with
  | .error cause => .error (.io cause)
  | .ok text =>
    match read text with
    | .ok config => .ok config
    | .error fault => .error (.config fault)

/-! ## Writing -/

/-- Doubles have a plain point from `10 ^ -5` up to `10 ^ 16`. -/
def numberStyle : NumberStyle :=
  { tie := .toEven, positionalFrom := -5, positionalBelow := 16, nan := ".nan", infinity := ".inf" }

/-- A value, or the word for none. -/
def optionalText {α : Type} (text : α → String) : Option α → String
  | some value => text value
  | none => "null"

/-- The settings as a file, one on each line. -/
def text (c : Config) : String :=
  let line (key value : String) := key ++ ": " ++ value ++ "\n"
  line sampleRateKey (toString c.sampleRate) ++
    line seedKey (optionalText toString c.seed) ++
    line maxSourceLengthKey (optionalText toString c.maxSourceLength) ++
    line maxDurationKey (optionalText numberStyle.text c.maxDuration)

end Config

end Chiptune
