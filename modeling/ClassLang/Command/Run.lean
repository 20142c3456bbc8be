import ClassLang.Command.Services
import ClassLang.Compile

/-! # Running the command

    The command reads a source text, checks it and writes the assembly; all
    else goes to the standard error.

    * **`compile`** is what it does with a text: the messages in their
      order, and the assembly or the exit status.
    * **`Services.run`** is the whole command in a file system, with any
      services; **`run`** is the command with plain ones.

    Nothing is written unless the whole text is compiled. -/

namespace ClassLang.Command

/-! ## One text -/

/-- The most detailed events that are shown at this level of verbosity. -/
def mostDetailed : (verbosity : Nat) → Severity
  | 0 => .warn
  | 1 => .info
  | 2 => .debug
  | _ => .trace

/-- What the log shows of events, the first of which is told at `moment`. -/
def logText (services : Services) (most : Severity) (moment : Nat) (journal : List Event) :
    String :=
  String.join <| journal.mapIdx fun i event => services.logged most (moment + i) event

/-- The exit status after a failure: a fault is an error of the compiler
    itself. -/
def exitStatus : Failure → Nat
  | .fault _ => 101
  | _ => 1

/-- What comes of a source text: what is to be told, and the assembly or the
    exit status. -/
structure Compilation where
  messages : String
  result : Except Nat String

/-- Compiles a source text as the options say. -/
def compile (services : Services) (o : Options) (source : String) : Compilation :=
  let log := logText services (mostDetailed o.verbosity)
  let analyzed := Program.analyzeLogged source
  let messages := log 0 analyzed.1
  match analyzed.2 with
  | .error e => { messages := messages ++ e.message ++ "\n", result := .error (exitStatus e) }
  | .ok a =>
    -- the listing stands between the messages of the two stages
    let messages := messages ++ if o.dumpSymbols then a.tables.scopes.dump else ""
    let assembled := a.assemble
    match assembled.2 with
    | .error e =>
      { messages := messages ++ log analyzed.1.length assembled.1 ++ e.message ++ "\n"
        result := .error (exitStatus e) }
    | .ok text =>
      let journal := assembled.1 ++ [.generatedAssembly text.utf8ByteSize]
      { messages := messages ++ log analyzed.1.length journal, result := .ok text }

/-! ## The whole command -/

/-- What the command leaves behind. -/
structure Report where
  status : Nat
  stdout : String := ""
  stderr : String := ""
  fileSystem : FileSystem

/-- The message that no source text can be read. -/
def cannotRead (reason : String) : String := "error: cannot read input: " ++ reason ++ "\n"

/-- The message that the assembly cannot be written. -/
def cannotWrite (path reason : String) : String :=
  "error: cannot write " ++ path ++ ": " ++ reason ++ "\n"

/-- Writes what comes of a source text where the options say. -/
def deliver (o : Options) (w : World) (compiled : Compilation) : Report :=
  let stderr := compiled.messages
  match compiled.result, o.output with
  | .error status, _ => { status, stderr, fileSystem := w.fileSystem }
  | .ok text, none => { status := 0, stdout := text, stderr, fileSystem := w.fileSystem }
  | .ok text, some path =>
    match w.fileSystem.write path text.toUTF8 with
    | .ok fileSystem => { status := 0, stderr, fileSystem }
    | .error e =>
      { status := 1, stderr := stderr ++ cannotWrite path e.message, fileSystem := w.fileSystem }

/-- Runs the command as the options say. -/
def runWith (services : Services) (o : Options) (w : World) : Report :=
  match services.contents o.input w with
  | .error reason => { status := 1, stderr := cannotRead reason, fileSystem := w.fileSystem }
  | .ok source => deliver o w (compile services o source)

/-- Runs the command with these arguments; there is no report if they are not
    of the right form. -/
def Services.run (services : Services) (args : List String) (w : World) : Option Report :=
  (services.options args).map (runWith services · w)

/-- Runs the command with plain services. -/
def run (args : List String) (w : World) : Option Report := Services.plain.run args w

end ClassLang.Command
