import ClassLang.Expr

/-! # Programs

    The trees above expressions: statements, declarations, methods, classes
    and programs.  Every node keeps the line of its first token, from which
    later errors are reported. -/

namespace ClassLang

/-- A statement. -/
inductive Stmt where
  | assign (line : Nat) (name : String) (value : Expr)
  | cond (line : Nat) (test : Expr) (body : List Stmt)
  | print (line : Nat) (value : Expr)

/-- Fields or locals of one type that are declared together. -/
structure Declaration where
  ty : TypeName
  names : List String
  line : Nat
deriving DecidableEq

/-- A parameter of a method. -/
structure Param where
  ty : TypeName
  name : String
  line : Nat
deriving DecidableEq

/-- A method: its statements run in order, then `value` is evaluated and
    returned. -/
structure Method where
  name : String
  result : TypeName
  params : List Param
  locals : List Declaration
  body : List Stmt
  value : Expr
  line : Nat

/-- A class with at most one superclass. -/
structure ClassDecl where
  name : String
  superclass : Option String
  fields : List Declaration
  methods : List Method
  line : Nat

/-- A program is a list of classes; its line is that of its first token. -/
structure Program where
  classes : List ClassDecl
  line : Nat

/-- The declared names one by one, each with its type. -/
def Declaration.variables (decls : List Declaration) : List (String × Ty) :=
  decls.flatMap fun decl => decl.names.map (·, Ty.ofName decl.ty)

/-- The parameters one by one, each with its type. -/
def Param.variables (params : List Param) : List (String × Ty) :=
  params.map fun param => (param.name, Ty.ofName param.ty)

end ClassLang
