import ClassLang.Hierarchy
import ClassLang.Syntax
import ClassLang.Typing.Outcome

/-! # The tables of a program

    What checking learns about the declarations of a program, and the rules
    that declarations have to follow.

    * **`Tables`** are the scopes and the class hierarchy.
    * **`Tables.register`** enters a class, **`declare`** the names of one
      declaration into the current scope.
    * **`Tables.assignable`** and **`Tables.assignment?`** say when a value of one
      type may stand for another.
    * **`Tables.callType`** resolves a call. -/

namespace ClassLang

/-- The scopes and the classes of a program. -/
structure Tables where
  scopes : ScopeTree := {}
  classes : Hierarchy := {}
deriving DecidableEq

namespace Tables

/-! ## Declarations -/

/-- A written type has to name a registered class. -/
def typeOf (t : Tables) (name : TypeName) (line : Nat) : Except Violation Ty :=
  match name with
  | .cls cls =>
    if t.classes.contains cls then .ok (.object cls) else .error ⟨.symbolUndefined, line⟩
  | _ => .ok (.ofName name)

/-- Declares names of one type in the current scope. -/
def declare (t : Tables) (decl : Declaration) : Except Violation Tables := do
  let ty ← t.typeOf decl.ty decl.line
  match t.scopes.insertAll (decl.names.map (·, ty)) with
  | some scopes => return { t with scopes }
  | none => throw ⟨.duplicateIdent, decl.line⟩

/-- Declares the parameters and the locals of a method, in order. -/
def declareAll (t : Tables) (decls : List Declaration) : Except Violation Tables :=
  decls.foldlM declare t

/-- Declares fields of class `cls`, which cannot hold an object of its own. -/
def declareField (cls : String) (t : Tables) (decl : Declaration) :
    Except Violation Tables := do
  let ty ← t.typeOf decl.ty decl.line
  if ty.className? = some cls then throw ⟨.recursiveLayout, decl.line⟩
  t.declare decl

/-- Registers class number `index` with the current scope as its own.  Its
    superclass has to be registered, and its name must be new. -/
def register (t : Tables) (index : Nat) (c : ClassDecl) : Except Violation Tables :=
  if c.superclass.any fun parent => !t.classes.contains parent then
    .error ⟨.symbolUndefined, c.line⟩
  else if t.classes.contains c.name then .error ⟨.duplicateIdent, c.line⟩
  else
    let entry := { name := c.name, parent := c.superclass, index, scope := t.scopes.current }
    .ok { t with classes := t.classes.insert entry }

/-- Opens a scope inside the current one. -/
def openScope (t : Tables) : Tables := { t with scopes := t.scopes.openScope }

/-- Leaves the current scope. -/
def closeScope (t : Tables) : Except Halt Tables :=
  match t.scopes.closeScope with
  | .ok scopes => .ok { t with scopes }
  | .error f => .error (.fault f)

/-! ## Uses -/

/-- May a value of type `source` stand where `target` is asked for?  An object
    may be of a subclass; otherwise the kinds have to agree. -/
def assignable (t : Tables) (source target : Ty) : Bool :=
  match source, target with
  | .object source, .object target => t.classes.isSubclass source target
  | _, _ => source.sameKind target

/-- The rule that the assignment of a `right` to a `left` violates. -/
def assignment? (t : Tables) (left right : Ty) : Option Rule :=
  if !left.isVariable then some .symbolTypeMismatch
  else
    match left, right with
    | .object target, .object source =>
      if !t.classes.contains target || !t.classes.contains source then
        some .symbolTypeMismatch
      else if t.classes.isSubclass source target then none
      else some .incompatibleAssign
    | _, _ => if left.sameKind right then none else some .incompatibleAssign

/-- Resolves a call of `method` on class `cls` with arguments of these types:
    the type of the call, and the class whose method it runs. -/
def callType (t : Tables) (cls method : String) (args : List Ty) :
    Except Rule (Ty × String) :=
  match t.classes.resolve t.scopes cls method with
  | none => .error .noClassMethod
  | some (entry, .func result params) =>
    if params.length ≠ args.length then .error .callArgCount
    else if (args.zip params).all fun (arg, param) => t.assignable arg param then
      .ok (result, entry.name)
    else .error .callArgType
  | some _ => .error .symbolTypeMismatch

/-- The type of `name` inside class `cls`: the innermost open scope that binds
    it, else the nearest class from `cls` upwards that has such a member. -/
def variableType (t : Tables) (cls name : String) : Option Ty :=
  match t.scopes.lookup name with
  | some ty => some ty
  | none => (t.classes.resolve t.scopes cls name).map (·.2)

/-! ## The entry point -/

/-- The program starts with `start` of its last class `Program`: a method that
    returns nothing and takes no arguments. -/
def entryPoint (t : Tables) (p : Program) : Except Violation Unit :=
  match p.classes.getLast? with
  | none => .error ⟨.noProgram, p.line⟩
  | some last =>
    if last.name ≠ "Program" then .error ⟨.noProgram, last.line⟩
    else
      match (t.classes.find? last.name).bind (t.scopes.lookupIn ·.scope "start") with
      | some (.func .nothing []) => .ok ()
      | some (.func .nothing _) => .error ⟨.startArgs, last.line⟩
      | _ => .error ⟨.noStart, last.line⟩

end Tables

end ClassLang
