import Chiptune.Command

/-!
# Command lines

The words of a command line and what they ask for. Options may stand anywhere behind the name of
the command; a word that is no option is the source.
-/

namespace Chiptune

/-- What a command line asks for. -/
structure Arguments where
  /-- The source itself, or a dash for standard input. -/
  source : Option String
  /-- The file that holds the source. -/
  file : Option String
  output : Option String
  config : Option String
  options : Command.Options

/-- What the program is to do. -/
inductive Task where
  | tokens (arguments : Arguments)
  | render (arguments : Arguments) (output : String)

namespace Arguments

/-- Nothing but the name of a command. -/
def none : Arguments := ⟨.none, .none, .none, .none, ⟨.none, .none, false⟩⟩

/-- A whole number in decimal, at most `limit`. -/
def number? (limit : Nat) (word : String) : Option Nat :=
  Decimal.inBase? 10 limit (Decimal.withoutPlus word.toList)

/-- Takes the words behind the name of a command; `rendering` tells whether it renders. -/
def takeWords (rendering : Bool) (a : Arguments) : List String → Option Arguments
  | [] => some a
  | "--raw" :: words =>
    if rendering then takeWords rendering { a with options.raw := true } words else .none
  | "--file" :: path :: words | "-f" :: path :: words =>
    takeWords rendering { a with file := some path } words
  | "--output" :: path :: words | "-o" :: path :: words =>
    if rendering then takeWords rendering { a with output := some path } words else .none
  | "--config" :: path :: words =>
    if rendering then takeWords rendering { a with config := some path } words else .none
  | "--rate" :: word :: words =>
    match number? Config.maxUInt32 word with
    | some rate =>
      if rendering then takeWords rendering { a with options.rate := some rate } words else .none
    | .none => .none
  | "--seed" :: word :: words =>
    match number? Config.maxUInt64 word with
    | some seed =>
      if rendering then takeWords rendering { a with options.seed := some seed } words else .none
    | .none => .none
  | word :: words =>
    if a.source.isSome || (word ≠ "-" && word.startsWith "-") then .none
    else takeWords rendering { a with source := some word } words

/-- Takes the words behind the name of a command. A source is not given twice. -/
def parse? (rendering : Bool) (words : List String) : Option Arguments :=
  (takeWords rendering none words).filter fun a => a.source.isNone || a.file.isNone

end Arguments

/-- The task that a command line sets, if it makes sense. -/
def Task.ofWords? : List String → Option Task
  | "tokens" :: words => (Arguments.parse? false words).map .tokens
  | "render" :: words => do
    let a ← Arguments.parse? true words
    let output ← a.output
    return .render a output
  | _ => none

/-- How the program is called. -/
def usage : List String :=
  ["Usage: tokens [SOURCE] [--file FILE]",
   "       render [SOURCE] [--file FILE] --output FILE [--rate HZ] [--seed N] [--raw]",
   "              [--config FILE]"]

end Chiptune
