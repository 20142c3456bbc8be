import ClassLang.Expr
import ClassLang.Text.Quoted

/-! # How messages show expressions

    A message that names an expression shows it in full: its form, and for
    every operand also its line and its attributes, set or not. -/

namespace ClassLang

/-- An optional value, in a message. -/
def describeOption (describe : α → String) : Option α → String
  | none => "None"
  | some a => "Some(" ++ describe a ++ ")"

/-- Values in brackets, separated by commas. -/
def describeList (values : List String) : String :=
  "[" ++ ", ".intercalate values ++ "]"

mutual

/-- A type, in a message. -/
def Ty.describe : Ty → String
  | int => "Int"
  | bool => "Bool"
  | nothing => "Nothing"
  | object cls => "Object(" ++ Text.quoted cls ++ ")"
  | func result params =>
    "Func(" ++ result.describe ++ ", " ++ describeList (Ty.describeAll params) ++ ")"

/-- Types, in a message. -/
def Ty.describeAll : List Ty → List String
  | [] => []
  | ty :: rest => ty.describe :: Ty.describeAll rest

end

/-- A binary operator, in a message. -/
def BinaryOp.describe : BinaryOp → String
  | add => "Add"
  | sub => "Sub"
  | mul => "Mul"
  | div => "Div"
  | and => "And"
  | lessThan => "LessThan"
  | lessEqual => "LessEqual"
  | equal => "Equal"
  | notEqual => "NotEqual"

/-- A unary operator, in a message. -/
def UnaryOp.describe : UnaryOp → String
  | neg => "Neg"
  | not => "Not"

/-- A node as an operand: its `form`, its line and its attributes. -/
def Note.describe (n : Note) (form : String) : String :=
  "Expr \x7b kind: " ++ form ++ ", line: " ++ toString n.line
    ++ ", ty: " ++ describeOption Ty.describe n.ty
    ++ ", callee: " ++ describeOption Text.quoted n.callee ++ " \x7d"

mutual

/-- The form of an expression, in a message: what the root is, with its
    operands in full. -/
def Expr.describe : Expr → String
  | binary _ op left right =>
    "Binary(" ++ op.describe ++ ", " ++ left.note.describe left.describe ++ ", "
      ++ right.note.describe right.describe ++ ")"
  | unary _ op operand =>
    "Unary(" ++ op.describe ++ ", " ++ operand.note.describe operand.describe ++ ")"
  | methodCall _ receiver method args =>
    "MethodCall(" ++ receiver.note.describe receiver.describe ++ ", " ++ Text.quoted method
      ++ ", " ++ describeList (Expr.describeAll args) ++ ")"
  | selfCall _ method args =>
    "SelfCall(" ++ Text.quoted method ++ ", " ++ describeList (Expr.describeAll args) ++ ")"
  | var _ name => "Variable(" ++ Text.quoted name ++ ")"
  | num _ value => "Num(" ++ toString value ++ ")"
  | bool _ value => if value then "Bool(true)" else "Bool(false)"
  | nothing _ => "Nothing"
  | new _ cls => "New(" ++ Text.quoted cls ++ ")"

/-- Operands in full. -/
def Expr.describeAll : List Expr → List String
  | [] => []
  | e :: rest => e.note.describe e.describe :: Expr.describeAll rest

end

end ClassLang
