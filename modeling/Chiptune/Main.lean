import Chiptune.Arguments

/-!
# The program

Reads what a command needs, lets `Command` decide, and writes what it answers.
-/

open Chiptune

namespace Chiptune.Program

/-- The cause behind an error of the system. -/
def fileError : IO.Error → FileError
  | .noFileOrDirectory .. => .notFound
  | e => .system (toString e)

/-- A text from bytes that are read somewhere. -/
def textOf (read : IO ByteArray) : IO (Except FileError String) := do
  try
    return Command.decoded (.ok (← read))
  catch e => return Command.decoded (.error (fileError e))

/-- The text of a file. -/
def readFile (path : String) : IO (Except FileError String) := textOf (IO.FS.readBinFile path)

/-- The source that the command line names. -/
def readSource (a : Arguments) : IO Command.Source := do
  let stdin := do (← IO.getStdin).readBinToEnd
  match a.file, a.source with
  | some path, _ => return ⟨.file path, ← readFile path⟩
  | none, some "-" => return .argument "-" (← textOf stdin)
  | none, some text => return .argument text (.ok "")
  | none, none => return ⟨.stdin, ← textOf stdin⟩

/-- The settings that the command line names, or those of the home directory. -/
def readSettings (a : Arguments) : IO Command.Settings := do
  match a.config with
  | some path => return .named path (← readFile path)
  | none =>
    -- A home directory that is set to nothing is none.
    match (← IO.getEnv "HOME").filter fun home => !home.isEmpty with
    | some home => return .home (← readFile (home ++ "/" ++ Config.homeFile))
    | none => return .home (.error .notFound)

/-- Sixty-four random bits. -/
def freshSeed : IO UInt64 := do
  let bytes ← IO.getRandomBytes 8
  return bytes.toList.foldl (fun seed byte => (seed <<< 8) ||| byte.toUInt64) 0

/-- Reports a failure. -/
def report (failure : Command.Failure) : IO Unit := do
  for line in failure.report do IO.eprintln line

/-- Does what the command line asks for and gives the exit status. -/
def perform : Task → IO UInt32
  | .tokens a => do
    match Command.tokens (← readSource a) with
    | .ok lines =>
      for line in lines do IO.println line
      return 0
    | .error failure =>
      report failure
      return 1
  | .render a path => do
    let settings ← readSettings a
    let result := Command.render settings a.options (← readSource a) (← freshSeed)
    match result with
    | .error failure => report failure
    | .ok output =>
      if output.truncated then
        IO.eprintln "warning: render reached the duration limit and was truncated"
    try
      if let some file := Command.written? result then
        IO.FS.writeBinFile path file.toByteArray
    catch e =>
      report (.output path a.options.raw (fileError e))
      return 1
    if let .ok ⟨_, false, _⟩ := result then
      IO.eprintln "error: a WAV file needs a rate above zero"
    return UInt32.ofNat (Command.status result)

end Chiptune.Program

/-- Runs the program on the words of its command line. -/
def main (words : List String) : IO UInt32 := do
  match Task.ofWords? words with
  | some task => Program.perform task
  | none =>
    for line in usage do IO.eprintln line
    return 2
