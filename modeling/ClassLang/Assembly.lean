/-! # Assembly

    The part of i386 assembly that programs are lowered to.

    * **`Operand`, `Instr`** are the instructions, with the source before the
      destination.
    * **`Label`** is a numbered label inside a method, or a name.
    * **`Line`** is a line of a text: an instruction, a label, a directive or
      a comment. -/

namespace ClassLang

/-- The registers in use. -/
inductive Reg where
  | eax | ebx | ecx | edx | ebp | esp
deriving DecidableEq

/-- Where an instruction finds a value or puts one. -/
inductive Operand where
  | reg (r : Reg)
  /-- A constant. -/
  | imm (value : Int)
  /-- The address of a symbol. -/
  | address (symbol : String)
  /-- The word at a symbol. -/
  | cell (symbol : String)
  /-- The word at an offset from the address in a register. -/
  | mem (offset : Int) (base : Reg)
deriving DecidableEq

/-- A place in a text. -/
inductive Label where
  | numbered (number : Nat)
  | named (name : String)
deriving DecidableEq

/-- The operations that combine the destination with the source. -/
inductive ArithOp where
  | add | sub | imul | and | xor
deriving DecidableEq

/-- The condition of a jump: how the destination of the last comparison is
    related to its source. -/
inductive JumpCond where
  | less | lessEqual | equal | notEqual
deriving DecidableEq

/-- An instruction. -/
inductive Instr where
  | mov (source target : Operand)
  | lea (source : Operand) (target : Reg)
  | push (source : Operand)
  | pop (target : Reg)
  | arith (op : ArithOp) (source target : Operand)
  | cmp (source target : Operand)
  | neg (target : Reg)
  /-- Extends the sign of `eax` into `edx`. -/
  | cdq
  /-- Divides `edx:eax`; the quotient goes to `eax`. -/
  | idiv (divisor : Reg)
  | jump (target : Label)
  | jumpIf (cond : JumpCond) (target : Label)
  | call (target : String)
  | ret
deriving DecidableEq

/-- An instruction to the assembler. -/
inductive Directive where
  | text
  | readOnlyData
  /-- Reserves zeroed memory. -/
  | common (symbol : String) (size alignment : Int)
  /-- A zero-terminated string, its special characters already escaped. -/
  | string (escaped : String)
  | globalSymbol (symbol : String)
  | functionType (symbol : String)
deriving DecidableEq

/-- A line of an assembly text. -/
inductive Line where
  | instr (i : Instr)
  | label (l : Label)
  | directive (d : Directive)
  | comment (text : String)
deriving DecidableEq

/-- Instructions in a row. -/
def instrs (is : List Instr) : List Line := is.map .instr

/-- Directives in a row. -/
def directives (ds : List Directive) : List Line := ds.map .directive

end ClassLang
