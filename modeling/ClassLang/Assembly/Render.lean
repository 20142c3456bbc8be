import ClassLang.Assembly

/-! # Assembly as text

    The text of an assembly listing: one line for each `Line`, all but labels
    and comments indented by two blanks.  The number of a label has at least
    three digits, and an offset is written even if it is zero. -/

namespace ClassLang

/-- The name of a register. -/
def Reg.render : Reg → String
  | eax => "%eax"
  | ebx => "%ebx"
  | ecx => "%ecx"
  | edx => "%edx"
  | ebp => "%ebp"
  | esp => "%esp"

/-- The text of an operand. -/
def Operand.render : Operand → String
  | reg r => r.render
  | imm value => "$" ++ toString value
  | address symbol => "$" ++ symbol
  | cell symbol => symbol
  | mem offset base => toString offset ++ "(" ++ base.render ++ ")"

/-- A number with zeros in front up to three digits. -/
def padded (n : Nat) : String :=
  let digits := toString n
  String.ofList (List.replicate (3 - digits.length) '0') ++ digits

/-- The text of a label. -/
def Label.render : Label → String
  | numbered number => ".L" ++ padded number
  | named name => name

/-- The name of an operation on words. -/
def ArithOp.render : ArithOp → String
  | add => "addl"
  | sub => "subl"
  | imul => "imull"
  | and => "andl"
  | xor => "xorl"

/-- The name of a conditional jump. -/
def JumpCond.render : JumpCond → String
  | less => "jl"
  | lessEqual => "jle"
  | equal => "je"
  | notEqual => "jne"

/-- The text of an instruction. -/
def Instr.render : Instr → String
  | mov source target => "movl " ++ source.render ++ ", " ++ target.render
  | lea source target => "leal " ++ source.render ++ ", " ++ target.render
  | push source => "pushl " ++ source.render
  | pop target => "popl " ++ target.render
  | arith op source target => op.render ++ " " ++ source.render ++ ", " ++ target.render
  | cmp source target => "cmpl " ++ source.render ++ ", " ++ target.render
  | neg target => "negl " ++ target.render
  | cdq => "cdq"
  | idiv divisor => "idivl " ++ divisor.render
  | jump target => "jmp " ++ target.render
  | jumpIf cond target => cond.render ++ " " ++ target.render
  | call target => "call " ++ target
  | ret => "ret"

/-- The text of a directive. -/
def Directive.render : Directive → String
  | text => ".text"
  | readOnlyData => ".section .rodata"
  | common symbol size alignment =>
    ".comm " ++ symbol ++ "," ++ toString size ++ "," ++ toString alignment
  | string escaped => ".string \"" ++ escaped ++ "\""
  | globalSymbol symbol => ".globl " ++ symbol
  | functionType symbol => ".type " ++ symbol ++ ", @function"

/-- The text of a line, without its line feed. -/
def Line.render : Line → String
  | instr i => "  " ++ i.render
  | label l => l.render ++ ":"
  | directive d => "  " ++ d.render
  | comment text => "# " ++ text

/-- The text of a listing; every line ends with a line feed. -/
def Line.renderAll (lines : List Line) : String :=
  String.join (lines.map fun line => line.render ++ "\n")

theorem Line.toList_renderAll (lines : List Line) :
    (renderAll lines).toList = lines.flatMap fun l => l.render.toList ++ ['\n'] := by
  simp [renderAll, String.toList_join, List.flatMap_map]

end ClassLang
