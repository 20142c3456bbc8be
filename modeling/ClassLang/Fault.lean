import ClassLang.Expr.Describe

/-! # Faults

    The ways in which a part of the compiler can be used against its
    contract.  A fault is not a mistake in the program that is compiled: a
    checked program of representable size meets none. -/

namespace ClassLang

/-- An operation on words whose exact result is no word. -/
inductive WordOp where
  | add | subtract | multiply
deriving DecidableEq

/-- A breach of contract inside the compiler. -/
inductive Fault where
  /-- The root scope was to be closed. -/
  | closeRoot
  /-- The scope around the root scope was asked for. -/
  | rootParent
  /-- The type of a node was to be recorded a second time. -/
  | typeResolved (node : Expr)
  /-- The callee of a node was to be recorded a second time. -/
  | calleeResolved (node : Expr)
  /-- A layout needs a class that is not defined. -/
  | undefinedClass (cls : String)
  /-- A layout needs itself. -/
  | endlessLayout (cls : String)
  /-- A variable has no place in the frame nor in the object. -/
  | unresolvedVariable (name : String)
  /-- A call has no callee. -/
  | unresolvedMethod (cls method : String)
  /-- The receiver of a call has no object type. -/
  | unresolvedReceiver
  /-- The callee of a call is no superclass of the receiver's class. -/
  | foreignCallee (cls callee : String)
  /-- A class is instantiated before it has a layout. -/
  | missingLayout (cls : String)
  /-- The exact result of an operation is no word. -/
  | overflow (op : WordOp)

/-- What a message calls an operation. -/
def WordOp.text : WordOp → String
  | add => "add"
  | subtract => "subtract"
  | multiply => "multiply"

/-- The message of a fault. -/
def Fault.message : Fault → String
  | closeRoot => "cannot close the root scope"
  | rootParent => "the root scope has no parent"
  | typeResolved node => "type attribute of " ++ node.describe ++ " was already resolved"
  | calleeResolved node => "callee of " ++ node.describe ++ " was already resolved"
  | undefinedClass cls => "no definition for class " ++ cls
  | endlessLayout cls => "the layout of " ++ cls ++ " contains itself"
  | unresolvedVariable name => "unresolved variable " ++ name ++ " reached code generation"
  | unresolvedMethod cls method =>
    "unresolved method " ++ cls ++ "." ++ method ++ " reached code generation"
  | unresolvedReceiver => "receiver was not resolved to an object type"
  | foreignCallee cls callee => callee ++ " is not a superclass of " ++ cls
  | missingLayout cls => "layout of " ++ cls ++ " is computed before it is instantiated"
  | overflow op => "attempt to " ++ op.text ++ " with overflow"

end ClassLang
