/-! # Command lines

        [-o OUTPUT | --output OUTPUT] [--dump-symbols] [-v | --verbose]... [INPUT]

    * **`Options`** is what a command line asks for.
    * **`Word`** is how one word of it reads.
    * **`Options.parse`** reads a whole line.  There is no answer for a line
      that is not of this form: an unknown option, a missing or empty OUTPUT,
      a second INPUT, or a repeated option other than `-v`.

    A single minus is an argument, not an option; behind `--` everything is an
    argument.  Short options can be written together, the rest of such a word
    behind an `o` being the OUTPUT. -/

namespace ClassLang.Command

/-! ## Words -/

/-- What a command line asks for. -/
structure Options where
  /-- The file to read; `-` and nothing are the standard input. -/
  input : Option String := none
  /-- The file to write, instead of the standard output. -/
  output : Option String := none
  dumpSymbols : Bool := false
  verbosity : Nat := 0
deriving DecidableEq

/-- How a word of a command line reads. -/
inductive Word where
  | argument
  /-- An option that is written out, and the value behind its equals sign. -/
  | long (name : String) (value : Option String)
  | short (letters : List Char)
  /-- Behind this word everything is an argument. -/
  | endOfOptions
deriving DecidableEq

/-- Reads one word. -/
def Word.ofString (word : String) : Word :=
  match word.toList with
  | ['-', '-'] => .endOfOptions
  | '-' :: '-' :: cs =>
    let name := String.ofList (cs.takeWhile (· != '='))
    match cs.dropWhile (· != '=') with
    | [] => .long name none
    | _ :: value => .long name (some (String.ofList value))
  | '-' :: c :: cs => .short (c :: cs)
  | _ => .argument

/-! ## Lines -/

namespace Options

/-- Adds an argument. -/
def withInput (o : Options) (arg : String) : Option Options :=
  match o.input with
  | none => some { o with input := some arg }
  | some _ => none

/-- Adds the OUTPUT. -/
def withOutput (o : Options) (value : String) : Option Options :=
  if o.output.isSome || value.isEmpty then none else some { o with output := some value }

/-- Asks for the listing of scopes. -/
def withDump (o : Options) : Option Options :=
  if o.dumpSymbols then none else some { o with dumpSymbols := true }

/-- Asks for more messages. -/
def moreVerbose (o : Options) : Options := { o with verbosity := o.verbosity + 1 }

/-- What an option makes of the options before it. -/
inductive Step where
  | done (o : Options)
  /-- The next word is the OUTPUT. -/
  | needsOutput (o : Options)

/-- Reads an option that is written out. -/
def long (o : Options) : (name : String) → (value : Option String) → Option Step
  | "verbose", none => some (.done o.moreVerbose)
  | "dump-symbols", none => o.withDump.map .done
  | "output", none => some (.needsOutput o)
  | "output", some value => (o.withOutput value).map .done
  | _, _ => none

/-- Reads short options that are written together. -/
def short (o : Options) : (letters : List Char) → Option Step
  | [] => some (.done o)
  | 'v' :: rest => o.moreVerbose.short rest
  | ['o'] => some (.needsOutput o)
  | 'o' :: '=' :: value | 'o' :: value => (o.withOutput (String.ofList value)).map .done
  | _ => none

/-- Reads the words of a command line; `o` is what the words before ask for,
    and `needsOutput` says that the next word is the OUTPUT. -/
def parseFrom (o : Options) (needsOutput : Bool) : List String → Option Options
  | [] => if needsOutput then none else some o
  | word :: rest =>
    match Word.ofString word, needsOutput with
    | .argument, true => (o.withOutput word).bind (parseFrom · false rest)
    | _, true => none
    | .argument, false => (o.withInput word).bind (parseFrom · false rest)
    | .endOfOptions, false => rest.foldlM withInput o
    | .long name value, false => continueWith (o.long name value) rest
    | .short letters, false => continueWith (o.short letters) rest
where
  /-- Goes on behind an option. -/
  continueWith (step : Option Step) (rest : List String) : Option Options :=
    match step with
    | none => none
    | some (.done o) => parseFrom o false rest
    | some (.needsOutput o) => parseFrom o true rest

/-- What a command line asks for, if it is of the right form. -/
def parse (args : List String) : Option Options := parseFrom {} false args

end Options

end ClassLang.Command
