import ClassLang.Ty

/-! # Expressions

    The trees that stand for values.

    * **`Note`** holds what is recorded about a node beside its shape: its
      line, and the two attributes that checking fills in.
    * **`Expr`** has one constructor for each form; a parenthesis leaves no
      node.

    An attribute is written at most once: `Expr.setTy?` and
    `Expr.setCallee?` refuse a node that already has it. -/

namespace ClassLang

/-! ## Trees -/

/-- The operators between two operands. -/
inductive BinaryOp where
  | add | sub | mul | div | and | lessThan | lessEqual | equal | notEqual
deriving DecidableEq

/-- The operators in front of an operand. -/
inductive UnaryOp where
  | neg | not
deriving DecidableEq

/-- What is recorded about a node: the line of its first token, its type once
    it is checked and, for a call, the class whose method the call runs. -/
structure Note where
  line : Nat
  ty : Option Ty := none
  callee : Option String := none
deriving DecidableEq

/-- An expression.  The receiver of a method call is a variable in every tree
    that comes from a source text. -/
inductive Expr where
  | binary (note : Note) (op : BinaryOp) (left right : Expr)
  | unary (note : Note) (op : UnaryOp) (operand : Expr)
  | methodCall (note : Note) (receiver : Expr) (method : String) (args : List Expr)
  | selfCall (note : Note) (method : String) (args : List Expr)
  | var (note : Note) (name : String)
  | num (note : Note) (value : Int)
  | bool (note : Note) (value : Bool)
  | nothing (note : Note)
  | new (note : Note) (cls : String)

/-! ## Attributes -/

namespace Expr

/-- What is recorded about the root. -/
def note : Expr → Note
  | binary n .. | unary n .. | methodCall n .. | selfCall n .. | var n _ | num n _ | bool n _
  | nothing n | new n _ => n

/-- The same tree with another note at the root. -/
def withNote (e : Expr) (n : Note) : Expr :=
  match e with
  | binary _ op left right => binary n op left right
  | unary _ op operand => unary n op operand
  | methodCall _ receiver method args => methodCall n receiver method args
  | selfCall _ method args => selfCall n method args
  | var _ name => var n name
  | num _ value => num n value
  | bool _ value => bool n value
  | nothing _ => nothing n
  | new _ cls => new n cls

@[simp] theorem note_withNote (e : Expr) (n : Note) : (e.withNote n).note = n := by
  cases e <;> rfl

/-- The line of the first token. -/
def line (e : Expr) : Nat := e.note.line

/-- The type, once checked. -/
def ty? (e : Expr) : Option Ty := e.note.ty

/-- The class whose method a checked call runs. -/
def callee? (e : Expr) : Option String := e.note.callee

/-- Records the type of a node that has none yet. -/
def setTy? (e : Expr) (ty : Ty) : Option Expr :=
  match e.ty? with
  | none => some (e.withNote { e.note with ty := some ty })
  | some _ => none

/-- Records the callee of a node that has none yet. -/
def setCallee? (e : Expr) (cls : String) : Option Expr :=
  match e.callee? with
  | none => some (e.withNote { e.note with callee := some cls })
  | some _ => none

/-- A type is recorded exactly where none was. -/
theorem setTy?_isSome {e : Expr} {ty : Ty} : (e.setTy? ty).isSome = e.ty?.isNone := by
  unfold setTy?; split <;> simp_all

/-- A callee is recorded exactly where none was. -/
theorem setCallee?_isSome {e : Expr} {cls : String} :
    (e.setCallee? cls).isSome = e.callee?.isNone := by
  unfold setCallee?; split <;> simp_all

end Expr

end ClassLang
