import ClassLang.Expr.Describe

/-! # The journal

    What a run of the compiler has to tell about its progress.  Each stage
    returns its events as data, in the order in which they happen; whether
    and how they are shown is decided at the very end.

    * **`Event`** is one thing that happened.
    * **`Event.severity`** tells how much detail it is.
    * **`Event.source`**, **`Event.message`** and **`Event.fields`** are what
      there is to show of it. -/

namespace ClassLang

/-- One thing that happened during a run. -/
inductive Event where
  | registeredClass (cls : String) (parent : Option String)
  | checkedMethod (cls method : String) (signature : Ty)
  | typedExpression (line : Nat) (ty : Ty)
  | wellTyped (classes : Nat)
  | parameterSlot (label name : String) (offset : Int)
  | localSlot (label name : String) (offset : Int)
  | fieldSlot (cls name : String) (offset size : Int)
  | classLayout (cls : String) (size : Int)
  | generatingMethod (label : String) (params locals : Nat)
  | generatedAssembly (bytes : Nat)

/-- How much detail an event is. -/
inductive Severity where
  | warn | info | debug | trace
deriving DecidableEq

namespace Severity

/-- The more detailed, the higher. -/
def level : Severity → Nat
  | warn => 0
  | info => 1
  | debug => 2
  | trace => 3

end Severity

/-- A value that goes with an event. -/
inductive Detail where
  /-- A text that is shown as it is. -/
  | text (shown : String)
  /-- A name, which is left to the log to show. -/
  | name (s : String)
  | number (n : Int)

namespace Event

/-- Only the outcome of checking is shown early, and single expressions late. -/
def severity : Event → Severity
  | wellTyped _ => .info
  | typedExpression .. => .trace
  | _ => .debug

/-- The part of the program that an event belongs to. -/
def source : Event → String
  | registeredClass .. | checkedMethod .. | typedExpression .. =>
    "classcc::analyzer::type_checker"
  | parameterSlot .. | localSlot .. | fieldSlot .. | classLayout .. =>
    "classcc::analyzer::offset_table"
  | generatingMethod .. => "classcc::codegen::codegen"
  | wellTyped _ | generatedAssembly _ => "classcc"

/-- What happened. -/
def message : Event → String
  | registeredClass .. => "registered class"
  | checkedMethod .. => "checked method"
  | typedExpression .. => "typed expression"
  | wellTyped _ => "program is well typed"
  | parameterSlot .. => "parameter slot"
  | localSlot .. => "local slot"
  | fieldSlot .. => "field slot"
  | classLayout .. => "class layout"
  | generatingMethod .. => "generating method"
  | generatedAssembly _ => "generated assembly"

/-- The values that go with it, and what each of them is. -/
def fields : Event → List (String × Detail)
  | registeredClass cls parent =>
    [("class", .text cls), ("parent", .text (describeOption Text.quoted parent))]
  | checkedMethod cls method signature =>
    [("class", .text cls), ("method", .text method), ("signature", .text signature.render)]
  | typedExpression line ty => [("line", .number line), ("ty", .text ty.render)]
  | wellTyped classes => [("classes", .number classes)]
  | parameterSlot label name offset =>
    [("method", .name label), ("param", .text name), ("offset", .number offset)]
  | localSlot label name offset =>
    [("method", .name label), ("local", .text name), ("offset", .number offset)]
  | fieldSlot cls name offset size =>
    [("class", .name cls), ("field", .text name), ("offset", .number offset),
      ("size", .number size)]
  | classLayout cls size => [("class", .name cls), ("size", .number size)]
  | generatingMethod label params locals =>
    [("method", .text label), ("params", .number params), ("locals", .number locals)]
  | generatedAssembly bytes => [("bytes", .number bytes)]

end Event

end ClassLang
