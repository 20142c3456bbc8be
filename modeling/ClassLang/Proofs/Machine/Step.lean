import ClassLang.Assembly.Read
import ClassLang.Lowering.Program
import Mathlib.Logic.Relation

/-! # The machine

    A machine with words of 32 bits that runs a listing.

    * **`Machine`** is a listing where it is loaded: the addresses of its
      instructions and symbols, and the memory that it may use.
      **`Machine.Loaded`**: the listing is read from a text.
    * **`State`** is what changes from step to step.
    * **`Machine.effect`** is what an instruction does that is followed by the
      next one; **`Machine.step`** is one step of any kind.
    * **`Machine.Runs`** is a run of any number of steps.

    Arithmetic wraps around.  A step that the machine does not define, such as
    a use of memory that is not its own or a division that has no quotient of
    32 bits, is no step at all. -/

namespace ClassLang

/-! ## Listings as texts -/

/-- The symbol that a line defines, as it stands in the text. -/
def Line.defines : Line → Option String
  | .label l => some l.render
  | .directive (.common symbol _ _) => some symbol
  | .directive _ | .instr _ | .comment _ => none

/-- The label that stands on a line, as it stands in the text. -/
def Line.label? : Line → Option String
  | .label l => some l.render
  | .directive _ | .instr _ | .comment _ => none

/-- Is this the line of a label of this name? -/
def Line.isLabel (name : String) : Line → Bool
  | .label l => l.render == name
  | .directive _ | .instr _ | .comment _ => false

/-- Does an operand stand for a word in memory? -/
def Operand.inMemory : Operand → Bool
  | .cell _ | .mem _ _ => true
  | .reg _ | .imm _ | .address _ => false

/-! ## Machines and states -/

/-- The bytes from `low` on up to those from `high` on. -/
structure Area where
  low : Nat
  high : Nat

/-- The word at the address lies inside. -/
def Area.Holds (r : Area) (a : BitVec 32) : Prop := r.low ≤ a.toNat ∧ a.toNat + 4 ≤ r.high

instance (r : Area) (a : BitVec 32) : Decidable (r.Holds a) := inferInstanceAs (Decidable (_ ∧ _))

/-- What changes from step to step. -/
structure State where
  /-- The number of the line that is next. -/
  line : Nat
  regs : Reg → BitVec 32
  memory : BitVec 32 → BitVec 32
  /-- The destination and the source of a comparison that still counts. -/
  compared : Option (BitVec 32 × BitVec 32)
  /-- The printed numbers, the oldest first. -/
  output : List Int

/-- A listing where it is loaded. -/
structure Machine where
  lines : List Line
  /-- The addresses of the instructions, and of the one behind the last. -/
  place : Nat → BitVec 32
  /-- The addresses of symbols. -/
  symbol : String → BitVec 32
  stack : Area
  heap : Area
  /-- What printing leaves in the registers that it may use. -/
  usedRegs : State → Reg → BitVec 32
  /-- What printing leaves in the free part of the stack. -/
  usedStack : State → BitVec 32 → BitVec 32

/-- The machine has the listing that is read from the text. -/
def Machine.Loaded (M : Machine) (text : String) : Prop := Line.readAll text = some M.lines

namespace State

/-- Puts a word into a register. -/
def setReg (s : State) (r : Reg) (w : BitVec 32) : State :=
  { s with regs := fun r' => if r' = r then w else s.regs r' }

/-- Puts a word into memory. -/
def setWord (s : State) (a w : BitVec 32) : State :=
  { s with memory := fun a' => if a' = a then w else s.memory a' }

/-- Goes on with the next line. -/
def next (s : State) : State := { s with line := s.line + 1 }

/-- Goes on with another line. -/
def goOn (s : State) (line : Nat) : State := { s with line }

/-- The last comparison does not count any more. -/
def forget (s : State) : State := { s with compared := none }

/-- Divides `edx:eax`, if the quotient is a word. -/
def divide (s : State) (d : BitVec 32) : Option State :=
  let n : Int := (s.regs .edx ++ s.regs .eax).toInt
  let q := n.tdiv d.toInt
  if d = 0 ∨ ¬ Word.Fits q then none
  else some (((s.setReg .eax (BitVec.ofInt 32 q)).setReg .edx
    (BitVec.ofInt 32 (n.tmod d.toInt))).forget)

section fields

variable (s : State) (r r' : Reg) (a a' w : BitVec 32)

@[simp] theorem setReg_regs : (s.setReg r w).regs r' = if r' = r then w else s.regs r' := rfl
@[simp] theorem setReg_line : (s.setReg r w).line = s.line := rfl
@[simp] theorem setReg_memory : (s.setReg r w).memory = s.memory := rfl
@[simp] theorem setReg_output : (s.setReg r w).output = s.output := rfl
@[simp] theorem setWord_regs : (s.setWord a w).regs = s.regs := rfl
@[simp] theorem setWord_line : (s.setWord a w).line = s.line := rfl
@[simp] theorem setWord_memory :
    (s.setWord a w).memory a' = if a' = a then w else s.memory a' := rfl
@[simp] theorem setWord_output : (s.setWord a w).output = s.output := rfl
@[simp] theorem next_regs : s.next.regs = s.regs := rfl
@[simp] theorem next_line : s.next.line = s.line + 1 := rfl
@[simp] theorem next_memory : s.next.memory = s.memory := rfl
@[simp] theorem next_output : s.next.output = s.output := rfl
@[simp] theorem next_compared : s.next.compared = s.compared := rfl
@[simp] theorem goOn_regs (n : Nat) : (s.goOn n).regs = s.regs := rfl
@[simp] theorem goOn_line (n : Nat) : (s.goOn n).line = n := rfl
@[simp] theorem goOn_memory (n : Nat) : (s.goOn n).memory = s.memory := rfl
@[simp] theorem goOn_output (n : Nat) : (s.goOn n).output = s.output := rfl
@[simp] theorem forget_regs : s.forget.regs = s.regs := rfl
@[simp] theorem forget_line : s.forget.line = s.line := rfl
@[simp] theorem forget_memory : s.forget.memory = s.memory := rfl
@[simp] theorem forget_output : s.forget.output = s.output := rfl

end fields

end State

/-! ## Instructions -/

/-- The result of an operation, the destination being the first operand. -/
def ArithOp.apply : ArithOp → BitVec 32 → BitVec 32 → BitVec 32
  | add, d, s => d + s
  | sub, d, s => d - s
  | imul, d, s => d * s
  | and, d, s => d &&& s
  | xor, d, s => d ^^^ s

/-- Are the destination and the source of a comparison so related? -/
def JumpCond.holds : JumpCond → BitVec 32 → BitVec 32 → Bool
  | less, d, s => decide (d.toInt < s.toInt)
  | lessEqual, d, s => decide (d.toInt ≤ s.toInt)
  | equal, d, s => decide (d = s)
  | notEqual, d, s => decide (d ≠ s)

namespace Machine

variable (M : Machine)

/-- The words that the program may use: whole words of its stack and its heap,
    and those of its two symbols. -/
def Usable (a : BitVec 32) : Prop :=
  a.toNat % 4 = 0 ∧
    (M.stack.Holds a ∨ M.heap.Holds a ∨ a = M.symbol heapBase ∨ a = M.symbol heapTop)

instance (a : BitVec 32) : Decidable (M.Usable a) := inferInstanceAs (Decidable (_ ∧ _))

/-- The word at an address. -/
def load (s : State) (a : BitVec 32) : Option (BitVec 32) :=
  if M.Usable a then some (s.memory a) else none

/-- Puts a word at an address. -/
def store (s : State) (a w : BitVec 32) : Option State :=
  if M.Usable a then some (s.setWord a w) else none

/-- The value of an operand. -/
def value (s : State) : Operand → Option (BitVec 32)
  | .reg r => some (s.regs r)
  | .imm n => some (BitVec.ofInt 32 n)
  | .address x => some (M.symbol x)
  | .cell x => M.load s (M.symbol x)
  | .mem o r => M.load s (s.regs r + BitVec.ofInt 32 o)

/-- Puts a word where an operand says. -/
def put (s : State) (target : Operand) (w : BitVec 32) : Option State :=
  match target with
  | .reg r => some (s.setReg r w)
  | .cell x => M.store s (M.symbol x) w
  | .mem o r => M.store s (s.regs r + BitVec.ofInt 32 o) w
  | .imm _ | .address _ => none

/-- Puts a word on the stack. -/
def push (s : State) (w : BitVec 32) : Option State :=
  M.store (s.setReg .esp (s.regs .esp - 4)) (s.regs .esp - 4) w

/-- What an instruction does that is followed by the next one.  No instruction
    has two operands in memory. -/
def effect (s : State) : Instr → Option State
  | .mov source target =>
    if source.inMemory && target.inMemory then none
    else (M.value s source).bind (M.put s target)
  | .lea (.mem o r) target => some (s.setReg target (s.regs r + BitVec.ofInt 32 o))
  | .push source => (M.value s source).bind (M.push s)
  | .pop target => (M.load s (s.regs .esp)).map fun w =>
      (s.setReg .esp (s.regs .esp + 4)).setReg target w
  | .arith op source target =>
    if source.inMemory && target.inMemory then none
    else (M.value s source).bind fun b => (M.value s target).bind fun a =>
      (M.put s target (op.apply a b)).map State.forget
  | .cmp source target =>
    if source.inMemory && target.inMemory then none
    else (M.value s source).bind fun b => (M.value s target).map fun a =>
      { s with compared := some (a, b) }
  | .neg target => some (s.setReg target (-s.regs target)).forget
  | .cdq => some (s.setReg .edx (if (s.regs .eax).toInt < 0 then -1 else 0))
  | .idiv r => s.divide (s.regs r)
  | .lea .. | .jump _ | .jumpIf .. | .call _ | .ret => none

/-! ## Jumps and calls -/

/-- The line of a label. -/
def find (name : String) : Option Nat := M.lines.findIdx? (·.isLabel name)

/-- Goes on at a label. -/
def goTo (s : State) (name : String) : Option State :=
  (M.find name).map s.goOn

/-- Is this the line of an instruction, or the one behind the last? -/
def isCode (n : Nat) : Bool :=
  match M.lines[n]? with
  | some (.instr _) => true
  | some _ => false
  | none => n == M.lines.length

/-- The line at which the instruction at an address stands. -/
def lineAt (a : BitVec 32) : Option Nat :=
  (List.range (M.lines.length + 1)).find? fun n => M.isCode n && M.place n == a

/-- The string at a symbol. -/
def text? (name : String) : Option String :=
  (M.find name).bind fun n =>
    match M.lines[n + 1]? with
    | some (.directive (.string text)) => some text
    | _ => none

/-- The state after a number was printed.  Printing may change some registers
    and the stack below what is in use. -/
def printed (s : State) (w : BitVec 32) : State where
  line := s.line + 1
  regs := fun r =>
    match r with
    | .eax | .ecx | .edx => M.usedRegs s r
    | .ebx | .ebp | .esp => s.regs r
  memory := fun a =>
    if M.stack.low ≤ a.toNat ∧ a.toNat < (s.regs .esp).toNat then M.usedStack s a
    else s.memory a
  compared := none
  output := s.output ++ [w.toInt]

/-- The function of the system that prints a number with a line feed: it finds
    the address of a format and the number on the stack. -/
def printf (s : State) : Option State :=
  (M.load s (s.regs .esp)).bind fun format =>
    (M.load s (s.regs .esp + 4)).bind fun w =>
      if format = M.symbol printFormat ∧ M.text? printFormat = some "%d\\n" then
        some (M.printed s w)
      else none

/-- One step. -/
def step (s : State) : Option State :=
  match M.lines[s.line]? with
  | some (.instr (.jump target)) => M.goTo s target.render
  | some (.instr (.jumpIf cond target)) =>
    s.compared.bind fun c =>
      if cond.holds c.1 c.2 then M.goTo s target.render else some s.next
  | some (.instr (.call target)) =>
    if target = "printf" then M.printf s
    else (M.push s (M.place (s.line + 1))).bind fun s' => M.goTo s' target
  | some (.instr .ret) =>
    (M.load s (s.regs .esp)).bind fun a =>
      (M.lineAt a).map (s.setReg .esp (s.regs .esp + 4)).goOn
  | some (.instr i) => (M.effect s i).map State.next
  | some (.label _) | some (.comment _) => some s.next
  | some (.directive _) | none => none

/-- A run of any number of steps. -/
def Runs : State → State → Prop := Relation.ReflTransGen fun s s' => M.step s = some s'

end Machine

end ClassLang
