import ClassLang.Proofs.Meaning.Store
import ClassLang.Proofs.Typing.Places

/-! # The meaning of programs

    What a program does, read off its tree.

    * **`Expr.eval`** is the value of an expression.  Operands are evaluated
      from left to right, and both operands of `and`; a receiver before the
      arguments, and the arguments from the last to the first.
    * **`Stmt.exec`** runs a statement and **`Method.run`** a method.
    * **`Routine.calls`** is the meaning of a call: a method can only call
      methods before it, so this is a recursion on the list of methods.
    * **`Program.evaluate`** runs a program. -/

namespace ClassLang

/-- A run on a store. -/
abbrev Eval := StateT Store (Except Trouble)

/-- What calls do: a call of a method of a class on an object with arguments. -/
abbrev Calls := (cls method : String) → (self : Ref) → (args : List Value) → Eval Value

/-- The object on which a method runs, and its parameters and locals as far as
    they have values. -/
structure Env where
  self : Ref
  vars : String → Option Value

/-! ## Variables -/

namespace View

/-- The value of a variable. -/
def read (V : View) (ρ : Env) (x : String) : Eval Value := fun σ =>
  match V.vars.lookup x with
  | some _ =>
    match ρ.vars x with
    | some v => .ok (v, σ)
    | none => .error (.unassigned x)
  | none =>
    match V.known.resolve V.cls x with
    | some (owner, ty) =>
      match σ.field ρ.self owner x ty with
      | some v => .ok (v, σ)
      | none => .error (.unset x)
    | none => .error .stuck

/-- Assigns to a variable. -/
def assign (V : View) (ρ : Env) (x : String) (v : Value) : Eval Env := fun σ =>
  match V.vars.lookup x with
  | some _ => .ok ({ ρ with vars := fun y => if y = x then some v else ρ.vars y }, σ)
  | none =>
    match V.known.resolve V.cls x with
    | some (owner, ty) => (σ.assign ρ.self owner x ty v).map (ρ, ·)
    | none => .error .stuck

/-- Calls the nearest method of this name from a class upwards. -/
def call (V : View) (calls : Calls) (cls : Option String) (method : String) (self : Value)
    (args : List Value) : Eval Value :=
  match cls.bind (V.known.resolve · method), self with
  | some (owner, _), .object r => calls owner method r args
  | _, _ => throw .stuck

end View

/-! ## Expressions -/

namespace Expr

/-- The type of an expression that has one. -/
def typeIn (V : View) : Expr → Option Ty
  | binary _ op _ _ => some op.result
  | unary _ op _ => some op.operandType
  | methodCall _ receiver method _ =>
    ((typeIn V receiver).bind Ty.className?).bind fun cls =>
      (V.known.resolve cls method).bind fun found => found.2.result?
  | selfCall _ method _ => (V.known.resolve V.cls method).bind fun found => found.2.result?
  | var _ name => V.varTy? name
  | num _ _ => some .int
  | bool _ _ => some .bool
  | nothing _ => some .nothing
  | new _ cls => some (.object cls)

mutual

/-- The value of an expression. -/
def eval (calls : Calls) (V : View) (ρ : Env) : Expr → Eval Value
  | binary _ op left right => do
    let a ← eval calls V ρ left
    let b ← eval calls V ρ right
    liftM (op.apply a b)
  | unary _ op operand => do
    let a ← eval calls V ρ operand
    liftM (op.apply a)
  | methodCall _ receiver method args => do
    let self ← eval calls V ρ receiver
    let values ← evalArgs calls V ρ args
    -- the class of the receiver as it is declared, not that of the object
    V.call calls ((receiver.typeIn V).bind Ty.className?) method self values
  | selfCall _ method args => do
    let values ← evalArgs calls V ρ args
    V.call calls (some V.cls) method (.object ρ.self) values
  | var _ name => V.read ρ name
  | num _ value => return .int (BitVec.ofInt 32 value)
  | bool _ value => return .bool value
  | nothing _ => return .nothing
  | new _ cls => fun σ => let (r, σ') := σ.make cls; .ok (.object r, σ')

/-- The values of arguments, which are evaluated from the last to the first. -/
def evalArgs (calls : Calls) (V : View) (ρ : Env) : List Expr → Eval (List Value)
  | [] => return []
  | e :: rest => do
    let values ← evalArgs calls V ρ rest
    let v ← eval calls V ρ e
    return v :: values

end

end Expr

/-! ## Statements -/

namespace Stmt

mutual

/-- Runs a statement. -/
def exec (calls : Calls) (V : View) : Stmt → Env → Eval Env
  | assign _ name value, ρ => do
    let v ← value.eval calls V ρ
    V.assign ρ name v
  | cond _ test body, ρ => do
    match ← test.eval calls V ρ with
    | .bool true => execAll calls V body ρ
    | .bool false => return ρ
    | _ => throw .stuck
  | print _ value, ρ => do
    let v ← value.eval calls V ρ
    fun σ => (σ.print v).map (ρ, ·)

/-- Runs statements in order. -/
def execAll (calls : Calls) (V : View) : List Stmt → Env → Eval Env
  | [], ρ => return ρ
  | s :: rest, ρ => do
    let ρ ← exec calls V s ρ
    execAll calls V rest ρ

end

end Stmt

/-! ## Methods -/

/-- What a method starts with: its parameters have values, its locals none. -/
def Method.env (m : Method) (self : Ref) (args : List Value) : Env where
  self := self
  vars := fun x => ((m.params.map (·.name)).zip args).lookup x

/-- Runs a method. -/
def Method.run (calls : Calls) (V : View) (m : Method) (self : Ref) (args : List Value) :
    Eval Value := do
  let ρ ← Stmt.execAll calls V m.body (m.env self args)
  m.value.eval calls V ρ

/-- A method and what it sees. -/
structure Routine where
  view : View
  method : Method

/-- The meaning of calls of some methods, the newest first. -/
def Routine.calls : List Routine → Calls
  | [], _, _, _, _ => throw .stuck
  | r :: earlier, cls, method, self, args =>
    if r.view.cls = cls ∧ r.method.name = method then
      r.method.run (calls earlier) r.view self args
    else calls earlier cls method self args

/-- The methods of a class after those `before`, in order. -/
def ClassDecl.routines (older : List ClassDecl) (c : ClassDecl) (before : List Method) :
    List Method → List Routine
  | [] => []
  | m :: rest => ⟨c.viewAt older before m, m⟩ :: c.routines older (before ++ [m]) rest

/-- The methods of all classes after those `older`, in order. -/
def ClassDecl.allRoutines (older : List ClassDecl) : List ClassDecl → List Routine
  | [] => []
  | c :: rest => c.routines older [] c.methods ++ allRoutines (older ++ [c]) rest

namespace Program

/-- All methods of the program, the newest first. -/
def routines (p : Program) : List Routine := (ClassDecl.allRoutines [] p.classes).reverse

/-- Runs the program: makes its object, and calls `start` on it. -/
def evaluate (p : Program) : Except Trouble Store := do
  let (self, σ) := Store.make {} "Program"
  let (_, σ) ← Routine.calls p.routines "Program" "start" self [] σ
  return σ

end Program

end ClassLang
