import ClassLang.Proofs.Typing.Interface

/-! # The rules of typing

    The rules that a program has to follow, without tables and without an
    order of checking.

    * **`View`** is what an expression sees where it stands: the classes before it,
      the class around it, and the parameters and locals of its method.
    * **`Expr.Derives`** are the rules of expressions and **`Stmt.Derives`**
      those of statements.
    * **`Method.Derives`, `ClassDecl.Derives`, `Program.Derives`** are the
      rules of declarations.

    A rule says what is recorded at a node only through the parameter `mark`.
    **`WellTyped`** demands nothing of it, so it is a statement about a bare
    tree; **`Elaborated`** demands that every node records exactly the type
    and the callee that the rules give it. -/

namespace ClassLang

/-! ## Views -/

/-- What an expression sees where it stands. -/
structure View where
  /-- The visible classes; the newest is the class around the expression, with
      the methods before the current one. -/
  known : Known
  /-- The class around the expression. -/
  cls : String
  /-- The parameters and the locals of the method. -/
  vars : List (String × Ty)

/-- The type of a variable: that of the parameter or local, else that of the
    nearest member from the enclosing class upwards. -/
def View.varTy? (V : View) (name : String) : Option Ty :=
  match V.vars.lookup name with
  | some ty => some ty
  | none => (V.known.resolve V.cls name).map (·.2)

/-- A variable of this type can be read and assigned. -/
def Ty.Storable : Ty → Prop
  | .int | .bool | .object _ => True
  | .nothing | .func .. => False

/-- A written type is primitive or a visible class. -/
def TypeName.Visible (known : Known) : TypeName → Prop
  | .cls name => known.Declares name
  | .int | .bool | .nothing => True

/-! ## Expressions -/

/-- What is demanded of the note at a node, given its type and its callee. -/
abbrev Mark := Note → Ty → Option String → Prop

/-- The note holds exactly this type and this callee. -/
def Note.Records (n : Note) (ty : Ty) (callee : Option String) : Prop :=
  n.ty = some ty ∧ n.callee = callee

namespace Expr

mutual

/-- The type of an expression. -/
inductive Derives (mark : Mark) (V : View) : Expr → Ty → Prop where
  | arith {n op left right} : op ∈ [BinaryOp.add, .sub, .mul, .div] →
      Derives mark V left .int → Derives mark V right .int → mark n .int none →
      Derives mark V (.binary n op left right) .int
  | and {n left right} :
      Derives mark V left .bool → Derives mark V right .bool → mark n .bool none →
      Derives mark V (.binary n .and left right) .bool
  | compare {n op left right} : op ∈ [BinaryOp.lessThan, .lessEqual] →
      Derives mark V left .int → Derives mark V right .int → mark n .bool none →
      Derives mark V (.binary n op left right) .bool
  | equate {n op ty left right} : op ∈ [BinaryOp.equal, .notEqual] → ty ∈ [Ty.int, .bool] →
      Derives mark V left ty → Derives mark V right ty → mark n .bool none →
      Derives mark V (.binary n op left right) .bool
  | neg {n operand} : Derives mark V operand .int → mark n .int none →
      Derives mark V (.unary n .neg operand) .int
  | not {n operand} : Derives mark V operand .bool → mark n .bool none →
      Derives mark V (.unary n .not operand) .bool
  /-- The nearest method from the receiver's class upwards. -/
  | methodCall {n receiver cls method args owner result params} :
      Derives mark V receiver (.object cls) →
      V.known.resolve cls method = some (owner, .func result params) →
      Fit mark V args params → mark n result (some owner) →
      Derives mark V (.methodCall n receiver method args) result
  /-- The nearest method from the enclosing class upwards. -/
  | selfCall {n method args owner result params} :
      V.known.resolve V.cls method = some (owner, .func result params) →
      Fit mark V args params → mark n result (some owner) →
      Derives mark V (.selfCall n method args) result
  | var {n name ty} : V.varTy? name = some ty → ty.Storable → mark n ty none →
      Derives mark V (.var n name) ty
  | num {n value} : mark n .int none → Derives mark V (.num n value) .int
  | bool {n value} : mark n .bool none → Derives mark V (.bool n value) .bool
  | nothing {n} : mark n .nothing none → Derives mark V (.nothing n) .nothing
  | new {n cls} : V.known.Declares cls → mark n (.object cls) none →
      Derives mark V (.new n cls) (.object cls)

/-- Arguments fit parameters: they are as many, and each may stand for its
    parameter. -/
inductive Fit (mark : Mark) (V : View) : List Expr → List Ty → Prop where
  | nil : Fit mark V [] []
  | cons {e rest ty param params} : Derives mark V e ty → V.known.Assignable ty param →
      Fit mark V rest params → Fit mark V (e :: rest) (param :: params)

end

/-- The rules give the expression this type. -/
abbrev HasType (V : View) (e : Expr) (ty : Ty) : Prop := e.Derives (fun _ _ _ => True) V ty

/-- The rules give the expression this type, and every node records what the
    rules give it. -/
abbrev Elaborated (V : View) (e : Expr) (ty : Ty) : Prop := e.Derives Note.Records V ty

end Expr

/-! ## Statements -/

/-- A statement follows the rules. -/
inductive Stmt.Derives (mark : Mark) (V : View) : Stmt → Prop where
  | assign {line name value left right} : value.Derives mark V right →
      V.varTy? name = some left → left.Storable → V.known.Assignable right left →
      Stmt.Derives mark V (.assign line name value)
  | cond {line test body} : test.Derives mark V .bool → (∀ s ∈ body, Stmt.Derives mark V s) →
      Stmt.Derives mark V (.cond line test body)
  | print {line value ty} : value.Derives mark V ty → ty ∈ [Ty.int, .bool] →
      Stmt.Derives mark V (.print line value)

/-! ## Methods -/

/-- The parameters and the locals of a method. -/
def Method.variables (m : Method) : List (String × Ty) :=
  Param.variables m.params ++ Declaration.variables m.locals

/-- What the body of a method sees. -/
def Method.view (m : Method) (known : Known) (cls : String) : View :=
  { known, cls, vars := m.variables }

/-- A method of class `cls` follows the rules. -/
structure Method.Derives (mark : Mark) (known : Known) (cls : String) (m : Method) : Prop where
  result : m.result.Visible known
  params : ∀ p ∈ m.params, p.ty.Visible known
  locals : ∀ d ∈ m.locals, d.ty.Visible known
  distinct : (m.variables.map (·.1)).Nodup
  body : ∀ s ∈ m.body, s.Derives mark (m.view known cls)
  value : ∃ ty, m.value.Derives mark (m.view known cls) ty ∧
    known.Assignable ty (.ofName m.result)

/-- Each method follows the rules where it sees the methods `before` it. -/
def ClassDecl.MethodsDerive (mark : Mark) (older : Known) (c : ClassDecl) (before : List Method) :
    List Method → Prop
  | [] => True
  | m :: rest =>
    m.Derives mark (c.upTo before :: older) c.name
      ∧ c.MethodsDerive mark older (before ++ [m]) rest

/-! ## Classes and programs -/

/-- A class follows the rules where it sees the classes `older` than itself. -/
structure ClassDecl.Derives (mark : Mark) (older : Known) (c : ClassDecl) : Prop where
  name : ¬ older.Declares c.name
  superclass : ∀ parent, c.superclass = some parent → older.Declares parent
  fields : ∀ d ∈ c.fields, d.ty.Visible older
  distinct : (c.interface.members.map (·.1)).Nodup
  methods : c.MethodsDerive mark older [] c.methods

/-- Each class follows the rules where it sees the classes before it. -/
def ClassDecl.AllDerive (mark : Mark) : Known → List ClassDecl → Prop
  | _, [] => True
  | older, c :: rest => c.Derives mark older ∧ AllDerive mark (c.interface :: older) rest

/-- The last class is `Program`, and it declares `start` without parameters and
    with no result. -/
def Program.HasEntry (p : Program) : Prop :=
  ∃ last, p.classes.getLast? = some last ∧ last.name = "Program" ∧
    ∃ m ∈ last.methods, m.name = "start" ∧ m.params = [] ∧ m.result = .nothing

/-- A program follows the rules. -/
structure Program.Derives (mark : Mark) (p : Program) : Prop where
  classes : ClassDecl.AllDerive mark [] p.classes
  entry : p.HasEntry

/-- A program is well typed. -/
abbrev Program.WellTyped (p : Program) : Prop := p.Derives fun _ _ _ => True

/-- A program is well typed, and every expression in it records the type and
    the callee that the rules give it. -/
abbrev Program.Elaborated (p : Program) : Prop := p.Derives Note.Records

end ClassLang
