import ClassLang.Typing.Expr

/-! # Checking statements

    A statement has no type; it passes or violates a rule.  In an assignment
    the value is checked before the variable is looked up. -/

namespace ClassLang.Stmt

mutual

/-- Checks one statement. -/
def check (ctx : Context) : Stmt → Outcome Stmt Unit
  | assign line name value =>
    -- a violation in the value comes before one of the variable
    (value.check ctx).andThen (assign line name) fun value right =>
    match ctx.tables.variableType ctx.cls name with
    | none => .violated (assign line name value) .symbolUndefined line
    | some left =>
      match ctx.tables.assignment? left right with
      | some rule => .violated (assign line name value) rule line
      | none => .done (assign line name value) ()
  | cond line test body =>
    (test.check ctx).andThen (cond line · body) fun test ty =>
    if ty = .bool then
      (checkAll ctx body).andThen (cond line test) fun body _ => .done (cond line test body) ()
    else .violated (cond line test body) .ifPredicate line
  | print line value =>
    (value.check ctx).andThen (print line) fun value ty =>
    if ty = .int ∨ ty = .bool then .done (print line value) ()
    else .violated (print line value) .exprType line

/-- Checks statements in order. -/
def checkAll (ctx : Context) : List Stmt → Outcome (List Stmt) Unit
  | [] => .done [] ()
  | s :: rest =>
    (check ctx s).andThen (· :: rest) fun s _ =>
    (checkAll ctx rest).andThen (s :: ·) fun rest _ =>
    .done (s :: rest) ()

end

end ClassLang.Stmt
