import ClassLang.Assembly
import ClassLang.Hierarchy
import ClassLang.Layouts

/-! # Lowering expressions

    The code of an expression leaves exactly one word on the stack, its
    value: an integer, a boolean as 0 or 1, or the address of an object.

    * **`Site`** is the method in which the code runs.
    * **`Site.locate`** finds the place of a variable: frame before object,
      as in the rules of typing.
    * **`Expr.lower`** is the code of a whole tree. -/

namespace ClassLang

/-! ## Code for a method -/

/-- The method for which code is made, and the layouts and classes at that
    time. -/
structure Site where
  cls : String
  object : ObjectLayout
  frame : Frame
  layouts : Layouts
  classes : Hierarchy

/-- Code that may need fresh labels; the state is the next free number. -/
abbrev Emit := StateT Nat (Except Fault)

/-- The place of a variable. -/
inductive Place where
  | frame (slot : Slot)
  | field (slot : Slot)
deriving DecidableEq

/-- The symbol that holds the address of the heap. -/
def heapBase : String := "heap_base"

/-- The symbol that holds the address of the first free byte of the heap. -/
def heapTop : String := "heap_top"

/-- A label that no other code uses. -/
def freshLabel : Emit Label := do
  let number ← get
  set (number + 1)
  return .numbered number

/-! ## Operators -/

/-- Applies an instruction to the value on the stack. -/
def onTop (instr : Instr) : List Line := instrs [.pop .eax, instr, .push (.reg .eax)]

/-- Applies instructions to the two values on the stack: the left one in
    `eax`, the right one in `ebx`, and the result in `eax`. -/
def onPair (combine : List Instr) : List Line :=
  instrs ([.pop .ebx, .pop .eax] ++ combine ++ [.push (.reg .eax)])

/-- Combines `eax` with `ebx`. -/
def withRight (op : ArithOp) : Instr := .arith op (.reg .ebx) (.reg .eax)

/-- Pushes 1 if the two values on the stack are so related, and else 0. -/
def lowerComparison (cond : JumpCond) : Emit (List Line) := do
  let holds ← freshLabel
  let finish ← freshLabel
  return instrs [.pop .ebx, .pop .eax, .cmp (.reg .ebx) (.reg .eax), .jumpIf cond holds,
      .push (.imm 0), .jump finish]
    ++ [.label holds, .instr (.push (.imm 1)), .label finish]

/-- The code of an operator, its two operands being on the stack. -/
def BinaryOp.lower : BinaryOp → Emit (List Line)
  | add => return onPair [withRight .add]
  | sub => return onPair [withRight .sub]
  | mul => return onPair [withRight .imul]
  | div => return onPair [.cdq, .idiv .ebx]
  | and => return onPair [withRight .and]
  | lessThan => lowerComparison .less
  | lessEqual => lowerComparison .lessEqual
  | equal => lowerComparison .equal
  | notEqual => lowerComparison .notEqual

/-- The code of an operator, its operand being on the stack. -/
def UnaryOp.lower : UnaryOp → List Line
  | neg => onTop (.neg .eax)
  | not => onTop (.arith .xor (.imm 1) (.reg .eax))

/-! ## Variables, calls and new objects -/

/-- The offsets of the words of an object. -/
def wordOffsets (size : Int) : List Int :=
  (List.range ((size.toNat + 3) / 4)).map fun (i : Nat) => Word.size * i

namespace Site

/-- The place of a variable.  Parameters and locals hide fields. -/
def locate (site : Site) (name : String) : Except Fault Place :=
  match site.frame.slot? name with
  | some slot => .ok (.frame slot)
  | none =>
    match site.object.field? name with
    | some slot => .ok (.field slot)
    | none => .error (.unresolvedVariable name)

/-- The receiver of the running method, in its frame. -/
def receiver (site : Site) : Operand := .mem site.frame.receiver .ebp

/-- Pushes the value of a variable.  The value of a held object is the address
    of its first byte. -/
def load (site : Site) (name : String) : Except Fault (List Line) := do
  match ← site.locate name with
  | .frame slot => return instrs [.push (.mem slot.offset .ebp)]
  | .field slot =>
    let access := match slot.ty with
      | .object _ => [.lea (.mem slot.offset .ecx) .eax, .push (.reg .eax)]
      | _ => [.push (.mem slot.offset .ecx)]
    return instrs (.mov site.receiver (.reg .ecx) :: access)

/-- The code of a call whose receiver and arguments are on the stack.  It runs
    the method of the class that was recorded as the callee, `cls` being the
    class of the receiver.  The number of arguments is converted to a word before
    the receiver is counted. -/
def call (site : Site) (callee : Option String) (cls method : String) (args : Nat) :
    Except Fault (List Line) := do
  match callee with
  | none => throw (.unresolvedMethod cls method)
  | some callee =>
    if !site.classes.isSubclass cls callee then throw (.foreignCallee cls callee)
    let pushed ← Word.mul (← Word.add (Word.truncate args) 1) Word.size
    return instrs [.call (methodLabel callee method), .arith .add (.imm pushed) (.reg .esp),
      .push (.reg .eax)]

/-- Takes memory for an object from the heap, sets all its words to zero and
    pushes its address. -/
def allocate (site : Site) (cls : String) : Except Fault (List Line) :=
  match site.layouts.object? cls with
  | none => .error (.missingLayout cls)
  | some layout => .ok <| instrs <|
    [.mov (.cell heapTop) (.reg .eax), .arith .add (.imm layout.size) (.cell heapTop)]
      ++ (wordOffsets layout.size).map (fun offset => .mov (.imm 0) (.mem offset .eax))
      ++ [.push (.reg .eax)]

end Site

/-! ## Trees -/

namespace Expr

mutual

/-- The code of an expression. -/
def lower (site : Site) : Expr → Emit (List Line)
  | binary _ op left right => do
    let leftCode ← lower site left
    let rightCode ← lower site right
    return leftCode ++ rightCode ++ (← op.lower)
  | unary _ op operand => return (← lower site operand) ++ op.lower
  | methodCall note receiver method args => do
    match receiver.ty?.bind Ty.className? with
    | none => throw .unresolvedReceiver
    | some cls =>
      let receiverCode ← lower site receiver
      let argCode ← lowerArgs site args
      return receiverCode ++ argCode ++ (← site.call note.callee cls method args.length)
  | selfCall note method args => do
    let argCode ← lowerArgs site args
    return instrs [.push site.receiver] ++ argCode
      ++ (← site.call note.callee site.cls method args.length)
  | var _ name => site.load name
  | num _ value => return instrs [.push (.imm value)]
  | bool _ value => return instrs [.push (.imm (if value then 1 else 0))]
  | nothing _ => return instrs [.push (.imm 0)]
  | new _ cls => site.allocate cls

/-- The code of arguments, from the last to the first. -/
def lowerArgs (site : Site) : List Expr → Emit (List Line)
  | [] => return []
  | e :: rest => do
    -- the first argument comes last and ends up next to the return address
    let later ← lowerArgs site rest
    return later ++ (← lower site e)

end

end Expr

end ClassLang
