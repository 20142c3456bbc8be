import ClassLang.Proofs.Typing.Rules

/-! # Values and objects

    What a running program works on, without words, addresses and offsets.

    * **`Value`** is a number of 32 bits, a truth value, nothing, or a
      reference to an object.
    * **`Ref`** is a reference.  An object that is held by a field lies inside
      the object that holds it, so a reference is a way through such fields
      from an object that was made by itself.
    * **`Cell`** is what a field holds.  An object that the program makes is
      cleared, but of the object with which it starts nothing need be known.
    * **`Store`** holds the objects made so far, what their fields hold, and what
      is printed.
    * **`Trouble`** is why a run has no result.  -/

namespace ClassLang

/-! ## Values -/

/-- A field: the class that declares it, and its name. -/
structure Sel where
  owner : String
  field : String
deriving DecidableEq

/-- A reference to an object: the number of an object that was made by itself,
    and the fields that lead from there to an object inside it. -/
structure Ref where
  root : Nat
  path : List Sel
deriving DecidableEq

/-- The place of a field of the object. -/
def Ref.sub (r : Ref) (owner field : String) : Ref :=
  { r with path := r.path ++ [{ owner, field }] }

/-- A value. -/
inductive Value where
  | int (w : BitVec 32)
  | bool (b : Bool)
  | nothing
  | object (r : Ref)
deriving DecidableEq

/-- The value of a cleared field of this type. -/
def Ty.zero : Ty → Value
  | .int => .int 0
  | .bool => .bool false
  | .nothing | .object _ | .func .. => .nothing

/-- The number that is printed for a value. -/
def Value.shown : Value → Option Int
  | .int w => some w.toInt
  | .bool b => some (if b then 1 else 0)
  | .nothing | .object _ => none

/-- Why a run has no result. -/
inductive Trouble where
  /-- A local is read before it is assigned to. -/
  | unassigned (name : String)
  /-- A field is read before it is assigned to, and it was not cleared. -/
  | unset (name : String)
  /-- A number is divided by zero, or the least number by -1. -/
  | division
  /-- The value is not of the kind that is asked for. -/
  | stuck
deriving DecidableEq

/-! ## Operators -/

/-- The least number of 32 bits. -/
def leastInt : BitVec 32 := BitVec.intMin 32

/-- The value of a binary expression.  Numbers wrap around, and division
    truncates toward zero. -/
def BinaryOp.apply : BinaryOp → Value → Value → Except Trouble Value
  | .add, .int a, .int b => .ok (.int (a + b))
  | .sub, .int a, .int b => .ok (.int (a - b))
  | .mul, .int a, .int b => .ok (.int (a * b))
  | .div, .int a, .int b =>
    if b = 0 ∨ a = leastInt ∧ b = -1 then .error .division
    else .ok (.int (BitVec.ofInt 32 (a.toInt.tdiv b.toInt)))
  | .and, .bool a, .bool b => .ok (.bool (a && b))
  | .lessThan, .int a, .int b => .ok (.bool (decide (a.toInt < b.toInt)))
  | .lessEqual, .int a, .int b => .ok (.bool (decide (a.toInt ≤ b.toInt)))
  | .equal, .int a, .int b => .ok (.bool (decide (a = b)))
  | .equal, .bool a, .bool b => .ok (.bool (decide (a = b)))
  | .notEqual, .int a, .int b => .ok (.bool (decide (a ≠ b)))
  | .notEqual, .bool a, .bool b => .ok (.bool (decide (a ≠ b)))
  | _, _, _ => .error .stuck

/-- The value of a unary expression. -/
def UnaryOp.apply : UnaryOp → Value → Except Trouble Value
  | .neg, .int a => .ok (.int (-a))
  | .not, .bool b => .ok (.bool (!b))
  | _, _ => .error .stuck

/-! ## Stores -/

/-- What a field holds. -/
inductive Cell where
  /-- The zero of its type. -/
  | cleared
  /-- Whatever was in memory before. -/
  | unset
  | value (v : Value)
deriving DecidableEq

/-- The value that a field of this type has, if it is known. -/
def Cell.value? (ty : Ty) : Cell → Option Value
  | cleared => some ty.zero
  | unset => none
  | value v => some v

/-- The objects and what is printed. -/
structure Store where
  /-- The classes of the objects that were made by themselves, the oldest
      first. -/
  roots : List String := []
  /-- The fields that hold no objects. -/
  cells : Ref → Cell := fun _ => .cleared
  /-- The printed numbers, the oldest first. -/
  printed : List Int := []

namespace Store

/-- Makes an object, all of whose fields are cleared. -/
def make (σ : Store) (cls : String) : Ref × Store :=
  (⟨σ.roots.length, []⟩, { σ with roots := σ.roots ++ [cls] })

/-- Assigns to a field that holds no object. -/
def set (σ : Store) (r : Ref) (v : Value) : Store :=
  { σ with cells := fun r' => if r' = r then .value v else σ.cells r' }

/-- Gives all fields of one object what they hold in another, inside held objects
    too. -/
def copy (σ : Store) (source target : Ref) : Store :=
  { σ with cells := fun r =>
      if r.root = target.root ∧ target.path <+: r.path ∧ r.path ≠ target.path then
        σ.cells ⟨source.root, source.path ++ r.path.drop target.path.length⟩
      else σ.cells r }

/-- The value of field `name` of an object, which class `owner` declares.  The
    value of a field that holds an object is a reference to that object. -/
def field (σ : Store) (r : Ref) (owner name : String) (ty : Ty) : Option Value :=
  match ty with
  | .object _ => some (.object (r.sub owner name))
  | _ => (σ.cells (r.sub owner name)).value? ty

/-- Assigns to a field: one that holds an object takes the fields of the
    object. -/
def assign (σ : Store) (r : Ref) (owner name : String) (ty : Ty) (v : Value) :
    Except Trouble Store :=
  match ty, v with
  | .object _, .object source => .ok (σ.copy source (r.sub owner name))
  | .object _, _ => .error .stuck
  | _, v => .ok (σ.set (r.sub owner name) v)

/-- Prints a value. -/
def print (σ : Store) (v : Value) : Except Trouble Store :=
  match v.shown with
  | some n => .ok { σ with printed := σ.printed ++ [n] }
  | none => .error .stuck

end Store

end ClassLang
