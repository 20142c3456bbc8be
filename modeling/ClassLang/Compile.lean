import ClassLang.Grammar.Program
import ClassLang.Lowering.Program
import ClassLang.Token.Scan
import ClassLang.Typing.Program

/-! # From source text to assembly

    The whole way of a program.

    * **`Program.ofSource`** reads a source text.
    * **`Program.analyze`** also checks it: an **`Analysis`** is the annotated
      program with its tables.
    * **`Program.compile`** gives the assembly text.
    * **`Failure`** is why a text has no such result. -/

namespace ClassLang

/-- Why a source text is not compiled. -/
inductive Failure where
  | lexical (e : ScanError)
  | syntactic (e : Grammar.SyntaxError)
  | semantic (v : Violation)
  | fault (f : Fault)

/-- The text of a failure. -/
def Failure.message : Failure → String
  | lexical e => e.message
  | syntactic e => e.message
  | semantic v => v.message
  | fault f => f.message

/-- Why checking stopped, as a failure. -/
def Failure.ofHalt : Halt → Failure
  | .violation v => .semantic v
  | .fault f => .fault f

/-- A checked program: the tree with all its attributes, and its tables. -/
structure Analysis where
  program : Program
  tables : Tables

namespace Program

/-- The program that a token list spells. -/
def ofTokens (tokens : List Token) : Except Grammar.SyntaxError Program :=
  match Grammar.program (.ofTokens tokens) with
  | .ok p _ => .ok p
  | .error e _ => .error e

/-- The program that a source text spells. -/
def ofSource (source : String) : Except Failure Program :=
  match Token.scan source with
  | .error e => .error (.lexical e)
  | .ok tokens =>
    match ofTokens tokens with
    | .error e => .error (.syntactic e)
    | .ok p => .ok p

/-- Reads and checks a source text, and tells how it went. -/
def analyzeLogged (source : String) : List Event × Except Failure Analysis :=
  match ofSource source with
  | .error e => ([], .error e)
  | .ok p =>
    let checked := p.check
    match checked.result with
    | .error h => (checked.journal, .error (.ofHalt h))
    | .ok tables =>
      (checked.journal ++ [.wellTyped checked.tree.classes.length],
        .ok { program := checked.tree, tables })

/-- Reads and checks a source text. -/
def analyze (source : String) : Except Failure Analysis := (analyzeLogged source).2

end Program

/-- The assembly of a checked program, made by a new generator, and what there
    is to tell about it. -/
def Analysis.assemble (a : Analysis) : List Event × Except Failure String :=
  match Generator.text a.tables.classes a.program {} with
  | .ok text g => (g.journal, .ok text)
  | .error f g => (g.journal, .error (.fault f))

/-- The assembly of a source text. -/
def Program.compile (source : String) : Except Failure String := do
  (← Program.analyze source).assemble.2

end ClassLang
