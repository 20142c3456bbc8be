import ClassLang.Command.Run

/-! # The command

    The outer layer: it reads the input, hands it to `compile` and writes
    what comes back. -/

namespace ClassLang.Command

/-- The words of the system for an error, and its number. -/
def systemMessage : IO.Error → String
  | .noFileOrDirectory _ code words | .inappropriateType _ code words
  | .permissionDenied _ code words | .resourceExhausted _ code words
  | .invalidArgument _ code words => words ++ " (os error " ++ toString code ++ ")"
  | e => toString e

/-- The source text that the options name, or why it cannot be read. -/
def readInput (o : Options) : IO (Except String String) := do
  try
    let bytes ← match o.input with
      | none | some "-" => (← IO.getStdin).readBinToEnd
      | some path => IO.FS.withFile path .read fun file => file.readBinToEnd
    return (decodeText bytes).mapError SystemError.message
  catch e => return .error (systemMessage e)

/-- Writes the assembly where the options say, and gives the exit status. -/
def writeOutput (o : Options) (text : String) : IO UInt32 := do
  match o.output with
  | none =>
    IO.print text
    return 0
  | some path =>
    try
      IO.FS.writeFile path text
      return 0
    catch e =>
      IO.eprint (cannotWrite path (systemMessage e))
      return 1

/-- Does what the options say, and gives the exit status. -/
def perform (o : Options) : IO UInt32 := do
  match ← readInput o with
  | .error reason =>
    IO.eprint (cannotRead reason)
    return 1
  | .ok source =>
    let compiled := compile .plain o source
    IO.eprint compiled.messages
    match compiled.result with
    | .error status => return status.toUInt32
    | .ok text => writeOutput o text

end ClassLang.Command

def main (args : List String) : IO UInt32 := do
  match ClassLang.Command.Options.parse args with
  | some o => ClassLang.Command.perform o
  | none =>
    IO.eprintln "usage: [-o OUTPUT] [--dump-symbols] [-v]... [INPUT]"
    return 2
