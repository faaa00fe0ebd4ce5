import Chiptune.Config.File
import Chiptune.Notation.Listing
import Chiptune.Wav

/-!
# Commands

What the program does with a command, as functions of what it finds: the contents of the files it
is pointed to, or why they could not be read. `Command.tokens` lists the tokens of a source and
`Command.render` gives the output file; `Command.written?` and `Command.status` are what is left
of a rendering behind the program. Opening, reading and writing are left to the caller.
-/

namespace Chiptune.Command

/-- The text that bytes hold, if they were read and are UTF-8. -/
def decoded : Except FileError ByteArray → Except FileError String
  | .error cause => .error cause
  | .ok bytes =>
    match String.fromUTF8? bytes with
    | some text => .ok text
    | none => .error .notUtf8

/-- Where a source comes from. -/
inductive Origin where
  /-- The command line itself. -/
  | argument
  /-- A file, by its path. -/
  | file (path : String)
  /-- Standard input. -/
  | stdin

/-- A source and what reading it gave. -/
structure Source where
  origin : Origin
  content : Except FileError String

/-- The source that an argument names: itself, or standard input for a dash. -/
def Source.argument (text : String) (stdin : Except FileError String) : Source :=
  if text = "-" then ⟨.stdin, stdin⟩ else ⟨.argument, .ok text⟩

/-- Where the settings come from. -/
inductive Settings where
  /-- A file that the command names. It has to be there and mean something. -/
  | named (path : String) (content : Except FileError String)
  /-- The file in the home directory, which may be missing or mean nothing. -/
  | home (content : Except FileError String)

/-- Why a command failed. -/
inductive Failure where
  /-- The named settings file is no help. -/
  | settings (path : String) (error : Error)
  /-- The source could not be read. -/
  | source (origin : Origin) (cause : FileError)
  /-- The settings do not admit the source. -/
  | refused (error : Error)
  /-- The output could not be written; `raw` tells that it is no WAV file. -/
  | output (path : String) (raw : Bool) (cause : FileError)

/-- A failure in words: what could not be done, and the causes behind it, each one the cause of
the one before. -/
def Failure.account : Failure → String × List String
  | settings path error => ("failed to load config " ++ path, error.message :: error.cause?.toList)
  | source origin cause =>
    let name := match origin with
      | .file path => path
      | _ => "stdin"
    ("failed to read " ++ name, [cause.message])
  | refused error => (error.message, error.cause?.toList)
  | output path raw cause =>
    let causes :=
      if raw then [cause.message] else [(Error.wav cause).message, cause.message]
    ("failed to write " ++ path, causes)

/-- The lines of a report. Several causes are numbered. -/
def Failure.report (failure : Failure) : List String :=
  let (summary, causes) := failure.account
  let causeLines :=
    match causes with
    | [] => []
    | [cause] => ["Caused by:", "    " ++ cause]
    | causes =>
      "Caused by:" :: causes.mapIdx fun i cause =>
        Listing.alignRight 5 (toString i) ++ ": " ++ cause
  ("Error: " ++ summary) :: causeLines

/-- The text of a source. -/
def Source.text (s : Source) : Except Failure (List Char) :=
  match s.content with
  | .ok text => .ok text.toList
  | .error cause => .error (.source s.origin cause)

/-- The configuration that settings give. -/
def Settings.config : Settings → Except Failure Config
  | named path content =>
    match Config.load content with
    | .ok config => .ok config
    | .error e => .error (.settings path e)
  | home content =>
    match Config.load content with
    | .ok config => .ok config
    | .error _ => .ok .default

/-- The lines that list the tokens of a source. -/
def tokens (source : Source) : Except Failure (List String) :=
  match source.text with
  | .ok text => .ok (Listing.lines text)
  | .error failure => .error failure

/-- What a rendering is asked for on the command line, before the settings. -/
structure Options where
  rate : Option Nat
  seed : Option Nat
  /-- Write only the bytes of the samples. -/
  raw : Bool

/-- Settings with those of the command line in their place. -/
def Options.override (o : Options) (config : Config) : Config :=
  { config with
    sampleRate := o.rate.getD config.sampleRate
    seed := o.seed.or config.seed }

/-- What a rendering comes to. -/
structure Output where
  /-- What the output file holds. -/
  file : List UInt8
  /-- Whether that is the whole encoding. A WAV file is begun before its header is made, so it
  stays unfinished where there is no header. -/
  complete : Bool
  /-- Whether the longest duration was reached. -/
  truncated : Bool

/-- The exit status of the program: zero for a complete file. -/
def Output.status (output : Output) : Nat := if output.complete then 0 else 101

/-- Renders a source. The settings are looked at first, then the source; `freshSeed` serves where
no seed is given. -/
def render (settings : Settings) (options : Options) (source : Source) (freshSeed : UInt64) :
    Except Failure Output := do
  let config := options.override (← settings.config)
  let text ← source.text
  match config.checkSource text with
  | .error error => throw (.refused error)
  | .ok () =>
    let levels := (config.rendering freshSeed).levels text
    let truncated :=
      match config.maxSamples with
      | none => false
      | some limit => limit ≤ levels.length
    let encoding :=
      if options.raw then some (Pcm.bytes levels)
      else Wav.encode? config.sampleRate levels
    return { file := encoding.getD Wav.unfinished, complete := encoding.isSome, truncated }

/-- What is written to the output file. A failure writes nothing. -/
def written? : Except Failure Output → Option (List UInt8)
  | .ok output => some output.file
  | .error _ => none

/-- The exit status of a rendering. -/
def status : Except Failure Output → Nat
  | .ok output => output.status
  | .error _ => 1

end Chiptune.Command
