/-! # Types

    * **`TypeName`** is a type as a declaration writes it.
    * **`Ty`** is the type of an expression or a member; besides what a
      declaration can write it has the signatures of methods.

    Equality of types is decided by hand, since a signature nests a list of
    types. -/

namespace ClassLang

/-- A type as it is written in a declaration. -/
inductive TypeName where
  | int | bool | nothing
  | cls (name : String)
deriving DecidableEq

/-- The type of an expression, a variable or a member. -/
inductive Ty where
  | int | bool | nothing
  | object (cls : String)
  | func (result : Ty) (params : List Ty)

namespace Ty

/-! ## Equality -/

mutual

/-- Decides whether two types are equal. -/
def decEq : (a b : Ty) → Decidable (a = b)
  | int, int | bool, bool | nothing, nothing => isTrue rfl
  | object c, object d => if h : c = d then isTrue (h ▸ rfl) else isFalse (by simpa using h)
  | func r ps, func s qs =>
    match decEq r s, decEqs ps qs with
    | isTrue hr, isTrue hp => isTrue (by rw [hr, hp])
    | isFalse hr, _ => isFalse (by simp [hr])
    | _, isFalse hp => isFalse (by simp [hp])
  | int, bool | int, nothing | int, object _ | int, func _ _
  | bool, int | bool, nothing | bool, object _ | bool, func _ _
  | nothing, int | nothing, bool | nothing, object _ | nothing, func _ _
  | object _, int | object _, bool | object _, nothing | object _, func _ _
  | func _ _, int | func _ _, bool | func _ _, nothing | func _ _, object _ =>
    isFalse (by simp)

/-- Decides whether two lists of types are equal. -/
def decEqs : (as bs : List Ty) → Decidable (as = bs)
  | [], [] => isTrue rfl
  | [], _ :: _ | _ :: _, [] => isFalse (by simp)
  | a :: as, b :: bs =>
    match decEq a b, decEqs as bs with
    | isTrue h, isTrue hs => isTrue (by rw [h, hs])
    | isFalse h, _ => isFalse (by simp [h])
    | _, isFalse hs => isFalse (by simp [hs])

end

instance : DecidableEq Ty := decEq

/-! ## Kinds -/

/-- The type that a written type stands for. -/
def ofName : TypeName → Ty
  | .int => int
  | .bool => bool
  | .nothing => nothing
  | .cls name => object name

/-- Are both types of one kind?  Class names and signatures do not count. -/
def sameKind : Ty → Ty → Bool
  | int, int | bool, bool | nothing, nothing => true
  | object _, object _ | func _ _, func _ _ => true
  | _, _ => false

/-- Can a variable of this type be read and assigned? -/
def isVariable : Ty → Bool
  | int | bool | object _ => true
  | nothing | func _ _ => false

/-- The class of an object type. -/
def className? : Ty → Option String
  | object cls => some cls
  | _ => none

/-- The result of a signature. -/
def result? : Ty → Option Ty
  | func result _ => some result
  | _ => none

/-- The parameters of a signature. -/
def params? : Ty → Option (List Ty)
  | func _ params => some params
  | _ => none

/-! ## Text -/

mutual

/-- The text of a type: a class by its name, a signature with its parameters
    in parentheses before the arrow. -/
def render : Ty → String
  | int => "int"
  | bool => "bool"
  | nothing => "nothing"
  | object cls => cls
  | func result params => "(" ++ renderList params ++ ") -> " ++ result.render

/-- Types separated by commas. -/
def renderList : List Ty → String
  | [] => ""
  | [ty] => ty.render
  | ty :: rest => ty.render ++ ", " ++ renderList rest

end

end Ty

end ClassLang
