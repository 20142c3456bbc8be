import ClassLang.Typing.Tables

/-! # Checking expressions

    The types of expressions inside one class.  Operands are checked from
    left to right and before the node itself; a node that passes is given its
    type and, if it is a call, its callee.

    * **`BinaryOp.resultType`, `UnaryOp.operandType`** are the rules of the
      operators.
    * **`Expr.conclude`** records the attributes of a node.
    * **`Expr.check`** checks a whole tree. -/

namespace ClassLang

/-! ## Operators -/

/-- The types that both operands of a binary operator may have. -/
def BinaryOp.operandTypes : BinaryOp → List Ty
  | .add | .sub | .mul | .div | .lessThan | .lessEqual => [.int]
  | .and => [.bool]
  | .equal | .notEqual => [.int, .bool]

/-- The type of the result of a binary operator. -/
def BinaryOp.result : BinaryOp → Ty
  | .add | .sub | .mul | .div => .int
  | .and | .lessThan | .lessEqual | .equal | .notEqual => .bool

/-- The type of a binary expression, if its operands fit: both are of one type,
    and the operator takes it. -/
def BinaryOp.resultType (op : BinaryOp) (left right : Ty) : Option Ty :=
  if left = right ∧ left ∈ op.operandTypes then some op.result else none

/-- The type of the operand of a unary operator, which is also that of the
    result. -/
def UnaryOp.operandType : UnaryOp → Ty
  | .neg => .int
  | .not => .bool

/-! ## Nodes -/

/-- What expressions are checked against: the tables so far, and the class in
    which they stand. -/
structure Context where
  tables : Tables
  cls : String

namespace Expr

/-- Records the callee of a call. -/
def recordCallee (e : Expr) : Option String → Except Fault Expr
  | none => .ok e
  | some cls =>
    match e.setCallee? cls with
    | some called => .ok called
    | none => .error (.calleeResolved e)

/-- Records the attributes of a node whose operands are checked. -/
def conclude (e : Expr) (callee : Option String) (ty : Ty) : Outcome Expr Ty :=
  .after (.typedExpression e.line ty) <|
    match e.recordCallee callee with
    | .error f => .stop e (.fault f)
    | .ok called =>
      match called.setTy? ty with
      | some typed => .done typed ty
      | none => .stop called (.fault (.typeResolved called))

/-- Records the attributes of a node if its operands fit. -/
def concludeIf (e : Expr) (fits : Option Ty) : Outcome Expr Ty :=
  match fits with
  | some ty => e.conclude none ty
  | none => .violated e .exprType e.line

/-- Records the attributes of a call of `method` on class `cls`. -/
def concludeCall (ctx : Context) (e : Expr) (cls method : String) (args : List Ty) :
    Outcome Expr Ty :=
  match ctx.tables.callType cls method args with
  | .ok (ty, callee) => e.conclude (some callee) ty
  | .error rule => .violated e rule e.line

/-- Records the attributes of a variable. -/
def concludeVar (ctx : Context) (e : Expr) (name : String) : Outcome Expr Ty :=
  match ctx.tables.variableType ctx.cls name with
  | none => .violated e .symbolUndefined e.line
  | some ty => if ty.isVariable then e.conclude none ty else .violated e .symbolTypeMismatch e.line

/-! ## Trees -/

mutual

/-- Checks an expression and gives its type. -/
def check (ctx : Context) : Expr → Outcome Expr Ty
  | binary note op left right =>
    (check ctx left).andThen (binary note op · right) fun left leftTy =>
    (check ctx right).andThen (binary note op left ·) fun right rightTy =>
    (binary note op left right).concludeIf (op.resultType leftTy rightTy)
  | unary note op operand =>
    (check ctx operand).andThen (unary note op ·) fun operand ty =>
    (unary note op operand).concludeIf (if ty = op.operandType then some ty else none)
  | methodCall note receiver method args =>
    (check ctx receiver).andThen (methodCall note · method args) fun receiver ty =>
    match ty with
    -- a receiver that is no object is refused before any argument is checked
    | .object cls =>
      (checkAll ctx args).andThen (methodCall note receiver method ·) fun args argTys =>
      (methodCall note receiver method args).concludeCall ctx cls method argTys
    | _ => .violated (methodCall note receiver method args) .symbolTypeMismatch note.line
  | selfCall note method args =>
    (checkAll ctx args).andThen (selfCall note method ·) fun args argTys =>
    (selfCall note method args).concludeCall ctx ctx.cls method argTys
  | var note name => (var note name).concludeVar ctx name
  | num note value => (num note value).conclude none .int
  | bool note value => (bool note value).conclude none .bool
  | nothing note => (nothing note).conclude none .nothing
  | new note cls =>
    if ctx.tables.classes.contains cls then (new note cls).conclude none (.object cls)
    else .violated (new note cls) .symbolUndefined note.line

/-- Checks expressions from left to right and gives their types. -/
def checkAll (ctx : Context) : List Expr → Outcome (List Expr) (List Ty)
  | [] => .done [] []
  | e :: rest =>
    (check ctx e).andThen (· :: rest) fun e ty =>
    (checkAll ctx rest).andThen (e :: ·) fun rest tys =>
    .done (e :: rest) (ty :: tys)

end

end Expr

end ClassLang
