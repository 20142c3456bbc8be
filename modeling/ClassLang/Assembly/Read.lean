import ClassLang.Assembly.Render

/-! # Reading assembly

    From an assembly text back to its lines.

    * **`Operand.read`**, **`Label.read`**, **`Instr.read`** and
      **`Directive.read`** read the parts of a line.
    * **`Line.read`** reads one line and **`Line.readAll`** a whole text.

    Each reads what the function `render` of the same type writes. -/

namespace ClassLang

/-! ## Words and numbers -/

/-- What stands before the first `c`, and what stands behind it. -/
def cutAt (c : Char) : List Char → List Char × List Char
  | [] => ([], [])
  | x :: rest =>
    if x = c then ([], rest)
    else
      let (before, behind) := cutAt c rest
      (x :: before, behind)

/-- May `c` stand in the name of a symbol? -/
def isSymbolChar (c : Char) : Bool := c.isAlphanum || c == '_' || c == '.'

/-- Is this the name of a symbol? -/
def isSymbol (text : List Char) : Bool :=
  text.all isSymbolChar && text.head?.any (!·.isDigit)

/-- Reads the name of a symbol. -/
def readSymbol (text : List Char) : Option String :=
  if isSymbol text then some (String.ofList text) else none

/-- Reads a number without a sign. -/
def readNat (text : List Char) : Option Nat :=
  if text ≠ [] ∧ text.all Char.isDigit then some (Nat.ofDigitChars 10 text 0) else none

/-- Reads a number, which may have a minus sign. -/
def readInt (text : List Char) : Option Int :=
  if text.head? = some '-' then (readNat text.tail).map fun n => -(n : Int)
  else (readNat text).map fun n => (n : Int)

/-! ## Operands -/

/-- Reads a register. -/
def Reg.read (text : List Char) : Option Reg :=
  [eax, ebx, ecx, edx, ebp, esp].find? fun r => r.render.toList == text

/-- Reads an operand. -/
def Operand.read (text : List Char) : Option Operand :=
  if text.head? = some '%' then (Reg.read text).map .reg
  else if text.head? = some '$' then
    match readInt text.tail with
    | some value => some (.imm value)
    | none => (readSymbol text.tail).map .address
  else
    match readSymbol text with
    | some symbol => some (.cell symbol)
    | none => do
      let (offset, base) := cutAt '(' text
      return .mem (← readInt offset) (← Reg.read (cutAt ')' base).1)

/-- Reads two operands with a comma and a blank between them. -/
def Operand.readPair (text : List Char) : Option (Operand × Operand) := do
  let (source, target) := cutAt ',' text
  return (← read source, ← read target.tail)

/-- Reads a label. -/
def Label.read (text : List Char) : Option Label :=
  let number := Nat.ofDigitChars 10 (text.drop 2) 0
  if (Label.numbered number).render.toList = text then some (.numbered number)
  else (readSymbol text).map .named

/-! ## Lines -/

/-- The operation of this name. -/
def ArithOp.read (name : List Char) : Option ArithOp :=
  [add, sub, imul, and, xor].find? fun op => op.render.toList == name

/-- The condition of the jump of this name. -/
def JumpCond.read (name : List Char) : Option JumpCond :=
  [less, lessEqual, equal, notEqual].find? fun cond => cond.render.toList == name

/-- Reads the operands of the instruction of this name. -/
def Instr.readOperands (name : String) (text : List Char) : Option Instr :=
  match name with
  | "movl" => (Operand.readPair text).map fun p => .mov p.1 p.2
  | "leal" =>
    match Operand.readPair text with
    | some (source, .reg target) => some (.lea source target)
    | _ => none
  | "pushl" => (Operand.read text).map .push
  | "popl" => (Reg.read text).map .pop
  | "cmpl" => (Operand.readPair text).map fun p => .cmp p.1 p.2
  | "negl" => (Reg.read text).map .neg
  | "cdq" => some .cdq
  | "idivl" => (Reg.read text).map .idiv
  | "jmp" => (Label.read text).map .jump
  | "call" => (readSymbol text).map .call
  | "ret" => some .ret
  | _ => none

/-- Reads an instruction. -/
def Instr.read (text : List Char) : Option Instr :=
  let (name, rest) := cutAt ' ' text
  match ArithOp.read name, JumpCond.read name with
  | some op, _ => (Operand.readPair rest).map fun p => .arith op p.1 p.2
  | none, some cond => (Label.read rest).map (.jumpIf cond)
  | none, none => readOperands (String.ofList name) rest

/-- Reads a directive. -/
def Directive.read (text : List Char) : Option Directive :=
  let (name, rest) := cutAt ' ' text
  match String.ofList name with
  | ".text" => some .text
  | ".section" => if rest = ".rodata".toList then some .readOnlyData else none
  | ".comm" => do
    let (symbol, sizes) := cutAt ',' rest
    let (size, alignment) := cutAt ',' sizes
    return .common (← readSymbol symbol) (← readInt size) (← readInt alignment)
  | ".string" =>
    if rest.head? = some '"' ∧ rest.tail.getLast? = some '"' then
      some (.string (String.ofList rest.tail.dropLast))
    else none
  | ".globl" => (readSymbol rest).map .globalSymbol
  | ".type" =>
    let (symbol, kind) := cutAt ',' rest
    if kind = " @function".toList then (readSymbol symbol).map .functionType else none
  | _ => none

/-- Reads a line. -/
def Line.read (text : List Char) : Option Line :=
  match text with
  | '#' :: ' ' :: remark => some (.comment (String.ofList remark))
  | ' ' :: ' ' :: rest =>
    if rest.head? = some '.' then (Directive.read rest).map .directive
    else (Instr.read rest).map .instr
  | _ => if text.getLast? = some ':' then (Label.read text.dropLast).map .label else none

/-! ## Texts -/

/-- The lines of a text, without their line feeds. -/
def textLines : List Char → List (List Char)
  | [] => []
  | c :: rest =>
    if c = '\n' then [] :: textLines rest
    else
      match textLines rest with
      | [] => [[c]]
      | line :: more => (c :: line) :: more

/-- Reads a listing. -/
def Line.readAll (text : String) : Option (List Line) := (textLines text.toList).mapM read

end ClassLang
