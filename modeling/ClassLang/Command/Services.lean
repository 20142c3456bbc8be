import ClassLang.Command.FileSystem
import ClassLang.Command.Options
import ClassLang.Journal

/-! # What the command leaves to others

    The command itself reads neither the words of its command line nor the
    bytes of its input, and it writes no line of the log.

    * **`World`** is where it runs; **`World.text`** is the text that an input
      has there.
    * **`Services`** do the reading and the logging.  What the command does is
      defined for any of them.
    * **`Services.plain`** read the text as it is, and write a log without
      times. -/

namespace ClassLang

namespace Command

/-! ## Where the command runs -/

structure World where
  fileSystem : FileSystem := {}
  stdin : ByteArray := .empty

/-- The text of an input, which is the standard input for a minus and for
    nothing. -/
def World.text (w : World) (input : Option String) : Except SystemError String := do
  let bytes ← match input with
    | none | some "-" => pure w.stdin
    | some path => w.fileSystem.read path
  decodeText bytes

/-! ## The services -/

structure Services where
  /-- What a command line asks for, if it is of the right form. -/
  options : List String → Option Options
  /-- The contents of an input, or why they cannot be read. -/
  contents : Option String → World → Except String String
  /-- What the log writes of an event, if it shows nothing more detailed than
      `most`; the moments at which events are told are counted. -/
  logged (most : Severity) (moment : Nat) (event : Event) : String

end Command

/-! ## Plain services -/

/-- The name of a severity, aligned to the right in five columns. -/
def Severity.text : Severity → String
  | warn => " WARN"
  | info => " INFO"
  | debug => "DEBUG"
  | trace => "TRACE"

/-- A value in a line of the log. -/
def Detail.shown : Detail → String
  | text shown => shown
  | name s => Text.quoted s
  | number n => toString n

/-- An event as a line, without the time. -/
def Event.line (e : Event) : String :=
  e.severity.text ++ " " ++ e.source ++ ": " ++ e.message ++
    String.join (e.fields.map fun (key, detail) => " " ++ key ++ "=" ++ detail.shown)

/-- Services that read a text as it is and log lines without times. -/
def Command.Services.plain : Services where
  options := Options.parse
  contents input w := (w.text input).mapError SystemError.message
  logged most _ e := if e.severity.level ≤ most.level then e.line ++ "\n" else ""

end ClassLang
