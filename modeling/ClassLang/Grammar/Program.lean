import ClassLang.Grammar.Expr
import ClassLang.Syntax

/-! # Reading programs

        program     = class*
        class       = "class" ident (":" ident)? "{" declaration* method* "}"
        method      = type ident "(" (param ("," param)*)? ")"
                      "{" declaration* stmt* "return" expr ";" "}"
        declaration = type ident ("," ident)* ";"
        param       = type ident
        stmt        = ident "=" expr ";" | "if" "(" expr ")" "{" stmt* "}"
                    | "print" "(" expr ")" ";"
        type        = "int" | "bool" | "nothing" | ident

    A field differs from a method in its third token and a declaration from a
    statement in its second; **`atDeclaration`** looks that far ahead and no
    further. -/

namespace ClassLang.Grammar

/-! ## Declarations -/

/-- Reads a type. -/
def typeName : Parse TypeName := do
  if ← accept .int then return .int
  if ← accept .bool then return .bool
  if ← accept .nothing then return .nothing
  return .cls (← ident)

/-- Does a declaration start here?  It starts with a type and a name; a
    statement that starts with a name goes on with `=`. -/
def atDeclaration : Parse Bool := fun c =>
  let answer :=
    match c.kindAt 0 with
    | some .int | some .bool | some .nothing => true
    | some (.ident _) => match c.kindAt 1 with
      | some (.ident _) => true
      | _ => false
    | _ => false
  .ok answer c

/-- Does the declaration of a field start here?  A method has an opening
    parenthesis behind its name. -/
def atField : Parse Bool := do
  return (← atDeclaration) && (← peek 2) != some .openParen

/-- Reads the declaration of one or more names. -/
def declaration : Parse Declaration := do
  let line ← lineHere
  let ty ← typeName
  let first ← ident
  let others ← manyWhile (accept .comma) ident
  expect .semiColon
  return { ty, names := first :: others, line }

/-- Reads one parameter. -/
def param : Parse Param := do
  let line ← lineHere
  let ty ← typeName
  let name ← ident
  return { ty, name, line }

/-- Reads the parameters of a method. -/
def params : Parse (List Param) := do
  expect .openParen
  if ← accept .closeParen then return []
  let first ← param
  let others ← manyWhile (accept .comma) param
  expect .closeParen
  return first :: others

/-! ## Statements -/

/-- Reads one statement whose blocks nest less than `fuel` deep. -/
def stmtUpTo : (fuel : Nat) → Parse Stmt
  | 0 => fail .ident
  | fuel + 1 => do
    let line ← lineHere
    if ← accept .cond then
      expect .openParen
      let test ← expr
      expect .closeParen
      expect .openCurlyBrace
      return .cond line test (← manyUntil .closeCurlyBrace (stmtUpTo fuel))
    if ← accept .print then
      expect .openParen
      let value ← expr
      expect .closeParen
      expect .semiColon
      return .print line value
    let name ← ident
    expect .equal
    let value ← expr
    expect .semiColon
    return .assign line name value

/-- Reads one statement.  Each nested block starts behind a token of its own,
    so the tokens still to come bound the nesting. -/
def stmt : Parse Stmt := fun c => stmtUpTo (c.rest.length + 1) c

/-! ## Methods and classes -/

/-- Reads a method. -/
def method : Parse Method := do
  let line ← lineHere
  let result ← typeName
  let name ← ident
  let params ← params
  expect .openCurlyBrace
  let locals ← manyWhile atDeclaration declaration
  let body ← manyUntil .ret stmt
  let value ← expr
  expect .semiColon
  expect .closeCurlyBrace
  return { name, result, params, locals, body, value, line }

/-- Reads the name of a superclass, if there is one. -/
def superclass : Parse (Option String) := do
  if ← accept .colon then return some (← ident) else return none

/-- Reads a class. -/
def classDef : Parse ClassDecl := do
  let line ← lineHere
  expect .cls
  let name ← ident
  let superclass ← superclass
  expect .openCurlyBrace
  let fields ← manyWhile atField declaration
  let methods ← manyUntil .closeCurlyBrace method
  return { name, superclass, fields, methods, line }

/-- Is there another token? -/
def atToken : Parse Bool := do return (← peek 0).isSome

/-- Reads classes up to the end. -/
def program : Parse Program := do
  let line ← lineHere
  return { classes := ← manyWhile atToken classDef, line }

end ClassLang.Grammar
