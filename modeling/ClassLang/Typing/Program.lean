import ClassLang.Typing.Stmt

/-! # Checking programs

    Classes are checked in order, and within a class its fields and then its
    methods.  A class can be used from its first field on; a method can be
    called only once its body is checked.

    * **`Method.check`** checks a body in a scope of its own and then
      publishes the signature in the scope of the class.
    * **`ClassDecl.check`** registers a class and checks its members.
    * **`Program.check`** checks all classes and the entry point. -/

namespace ClassLang

/-- A parameter as a declaration. -/
def Param.declaration (p : Param) : Declaration := { ty := p.ty, names := [p.name], line := p.line }

namespace Method

/-- The type of a method as a member. -/
def signature (m : Method) : Ty := .func (.ofName m.result) (m.params.map (.ofName ·.ty))

/-- The tables inside the method: a new scope with its parameters and locals. -/
def enter (t : Tables) (m : Method) : Except Violation Tables := do
  let _ ← t.openScope.typeOf m.result m.line
  t.openScope.declareAll (m.params.map Param.declaration ++ m.locals)

/-- Makes a checked method a member of class `cls`, the class around it, and
    leaves its scope. -/
def publish (cls : String) (inside : Tables) (m : Method) : Outcome Method Tables :=
  .after (.checkedMethod cls m.name m.signature) <|
    match inside.scopes.insertInParent m.name m.signature with
    | .error f => .stop m (.fault f)
    | .ok none => .violated m .duplicateIdent m.line
    | .ok (some scopes) => ⟨m, [], Tables.closeScope { inside with scopes }⟩

/-- Checks the body of a method against the tables inside it. -/
def checkBody (cls : String) (inside : Tables) (m : Method) : Outcome Method Tables :=
  let ctx : Context := { tables := inside, cls }
  (Stmt.checkAll ctx m.body).andThen ({ m with body := · }) fun body _ =>
  (m.value.check ctx).andThen ({ m with body, value := · }) fun value ty =>
  let m := { m with body, value }
  if inside.assignable ty (.ofName m.result) then m.publish cls inside
  else .violated m .returnType value.line

/-- Checks a method of class `cls`. -/
def check (cls : String) (t : Tables) (m : Method) : Outcome Method Tables :=
  -- inside its own body the method is not yet a member
  match m.enter t with
  | .error e => .stop m (.violation e)
  | .ok inside => m.checkBody cls inside

/-- Checks methods in order. -/
def checkAll (cls : String) (t : Tables) : List Method → Outcome (List Method) Tables
  | [] => .done [] t
  | m :: rest =>
    (m.check cls t).andThen (· :: rest) fun m t =>
    (checkAll cls t rest).andThen (m :: ·) fun rest t =>
    .done (m :: rest) t

end Method

namespace ClassDecl

/-- Checks the fields and the methods of a registered class. -/
def checkMembers (t : Tables) (c : ClassDecl) : Outcome ClassDecl Tables :=
  match c.fields.foldlM (Tables.declareField c.name) t with
  | .error e => .stop c (.violation e)
  | .ok t =>
    (Method.checkAll c.name t c.methods).andThen ({ c with methods := · }) fun methods t =>
    ⟨{ c with methods }, [], t.closeScope⟩

/-- Checks class number `index`. -/
def check (index : Nat) (t : Tables) (c : ClassDecl) : Outcome ClassDecl Tables :=
  match t.openScope.register index c with
  | .error e => .stop c (.violation e)
  | .ok t => .after (.registeredClass c.name c.superclass) (c.checkMembers t)

/-- Checks classes in order, the first being number `index`. -/
def checkAll (index : Nat) (t : Tables) : List ClassDecl → Outcome (List ClassDecl) Tables
  | [] => .done [] t
  | c :: rest =>
    (c.check index t).andThen (· :: rest) fun c t =>
    (checkAll (index + 1) t rest).andThen (c :: ·) fun rest t =>
    .done (c :: rest) t

end ClassDecl

namespace Program

/-- Checks a program: the tables of a well-typed program, and the tree with
    all its attributes. -/
def check (p : Program) : Outcome Program Tables :=
  (ClassDecl.checkAll 0 {} p.classes).andThen ({ p with classes := · }) fun classes t =>
  let p := { p with classes }
  match t.entryPoint p with
  | .error e => .stop p (.violation e)
  | .ok () => .done p t

end Program

end ClassLang
