/-!
# Errors

What can go wrong around a rendering: files, settings and limits. Rendering itself cannot fail.
-/

namespace Chiptune

/-- Why a file or stream could not be read or written. -/
inductive FileError where
  /-- There is no such file or directory. -/
  | notFound
  /-- The bytes are not UTF-8. -/
  | notUtf8
  /-- Another cause, as the system words it. -/
  | system (text : String)
deriving DecidableEq

/-- The wording of the cause. -/
def FileError.message : FileError → String
  | notFound => "No such file or directory (os error 2)"
  | notUtf8 => "stream did not contain valid UTF-8"
  | system text => text

/-- Why a settings file means nothing. -/
inductive ConfigError where
  /-- What stands on a line cannot stand there. -/
  | malformed (line : Nat)
  /-- The parts of the file do not fit together. -/
  | unstructured
  /-- The file holds something, but not keys with values. -/
  | notMapping
  /-- A setting is given twice. -/
  | duplicate (key : String)
  /-- A setting has a value that it cannot take. -/
  | badValue (key : String)
deriving DecidableEq

/-- The wording of the fault. -/
def ConfigError.message : ConfigError → String
  | malformed line => "line " ++ toString line ++ " cannot be understood"
  | unstructured => "the parts of the file do not fit together"
  | notMapping => "expected keys with values"
  | duplicate key => "duplicate field " ++ key
  | badValue key => key ++ ": invalid value"

/-- An error that a caller of the library is told. -/
inductive Error where
  /-- A WAV file could not be written. -/
  | wav (cause : FileError)
  /-- A settings file could not be understood. -/
  | config (fault : ConfigError)
  /-- A source is longer than the settings allow. -/
  | sourceTooLong (length limit : Nat)
  /-- A file could not be read. -/
  | io (cause : FileError)
deriving DecidableEq

/-- The wording of an error. -/
def Error.message : Error → String
  | wav cause => "WAV error: " ++ cause.message
  | config fault => "config error: " ++ fault.message
  | sourceTooLong length limit =>
    "source is " ++ toString length ++ " characters, limit is " ++ toString limit
  | io cause => "IO error: " ++ cause.message

/-- What stands behind an error, in words of its own. -/
def Error.cause? : Error → Option String
  | wav cause => some cause.message
  | config fault => some fault.message
  | sourceTooLong .. => none
  | io cause => some cause.message

end Chiptune
