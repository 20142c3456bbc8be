import ClassLang.Expr
import ClassLang.Grammar.Cursor

/-! # Reading expressions

        expr     = level 1, from weakest to tightest:
                   "and"  |  "==" "!="  |  "<" "<="  |  "+" "-"  |  "*" "/"
        unary    = ("-" | "not") unary | primary
        primary  = num | "true" | "false" | "nothing" | "new" ident
                 | ident "." ident args | ident args | ident | "(" expr ")"
        args     = "(" (expr ("," expr)*)? ")"

    * **`levels`** is the table of binary operators.  All levels associate to
      the left, except that `<` and `<=` do not associate at all.
    * **`climb`** reads the levels of the table around a reader of operands.
    * **`expr`** ties the knot.  Each nested operand starts behind a token of
      its own, so the tokens still to come bound the nesting. -/

namespace ClassLang.Grammar

/-! ## Binary operators -/

/-- Binary operators of equal strength. -/
structure Level where
  /-- The operator that a token stands for on this level. -/
  operator? : TokenKind → Option BinaryOp
  /-- May more than one operator of this level stand in a row? -/
  chains : Bool := true

/-- The levels of binary operators, from the weakest to the tightest. -/
def levels : List Level :=
  [{ operator? := fun | .and => some .and | _ => none },
   { operator? := fun | .doubleEqual => some .equal | .notEqual => some .notEqual | _ => none },
   { operator? := fun | .lessThan => some .lessThan | .lessEqual => some .lessEqual | _ => none
     chains := false },
   { operator? := fun | .plus => some .add | .minus => some .sub | _ => none },
   { operator? := fun | .star => some .mul | .slash => some .div | _ => none }]

/-- An operator of this level and its right operand, if such an operator comes
    next. -/
def Level.operation (level : Level) (operand : Parse Expr) : Parse (Option (BinaryOp × Expr)) := do
  match (← peek 0).bind level.operator? with
  | none => return none
  | some op =>
    advance
    return some (op, ← operand)

/-- The operations that follow the first operand of a level. -/
def Level.operations (level : Level) (operand : Parse Expr) : Parse (List (BinaryOp × Expr)) :=
  if level.chains then collect (level.operation operand)
  else collectUpTo (level.operation operand) 1

/-- One binary expression: it starts where its left operand starts. -/
def combine (left : Expr) : BinaryOp × Expr → Expr
  | (op, right) => .binary { line := left.line } op left right

/-- Reads the given levels, the tightest around `operand`. -/
def climb (operand : Parse Expr) : List Level → Parse Expr
  | [] => operand
  | level :: tighter => do
    let first ← climb operand tighter
    return (← level.operations (climb operand tighter)).foldl combine first

/-! ## Operands -/

/-- Reads the arguments of a call. -/
def arguments (expr : Parse Expr) : Parse (List Expr) := do
  expect .openParen
  if ← accept .closeParen then return []
  let first ← expr
  let others ← manyWhile (accept .comma) expr
  expect .closeParen
  return first :: others

/-- Reads what follows a name that starts an expression. -/
def afterName (expr : Parse Expr) (line : Nat) (name : String) : Parse Expr := do
  if ← accept .dot then
    let method ← ident
    return .methodCall { line } (.var { line } name) method (← arguments expr)
  if (← peek 0) = some .openParen then
    return .selfCall { line } name (← arguments expr)
  return .var { line } name

/-- Reads an expression without operators. -/
def primary (expr : Parse Expr) : Parse Expr := do
  let line ← lineHere
  match ← peek 0 with
  | some (.num value) => advance; return .num { line } value
  | some .true => advance; return .bool { line } true
  | some .false => advance; return .bool { line } false
  | some .nothing => advance; return .nothing { line }
  | some .new => advance; return .new { line } (← ident)
  | some .openParen =>
    advance
    let e ← expr
    expect .closeParen
    return e
  | some (.ident name) => advance; afterName expr line name
  | _ => fail .expression

/-- Reads an operand with the operators in front of it. -/
def unary : (fuel : Nat) → Parse Expr
  | 0 => fail .expression
  | fuel + 1 => do
    let line ← lineHere
    if ← accept .minus then return .unary { line } .neg (← unary fuel)
    if ← accept .not then return .unary { line } .not (← unary fuel)
    -- parentheses and arguments start over with the weakest level
    primary (climb (unary fuel) levels)

/-- Reads the longest expression that starts at the cursor. -/
def expr : Parse Expr := fun c => climb (unary (c.rest.length + 1)) levels c

end ClassLang.Grammar
