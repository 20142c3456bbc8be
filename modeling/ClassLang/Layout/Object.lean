import ClassLang.Layout.Word
import ClassLang.Ty

/-! # Object layouts

    Where the fields of an object live: first those that its class inherits,
    then its own in the order of their declaration, one behind the other. -/

namespace ClassLang

/-- The place of a variable: for a field relative to the object, for a
    parameter or a local relative to the frame pointer. -/
structure Slot where
  name : String
  ty : Ty
  offset : Int
  size : Int
deriving DecidableEq

/-- The fields of an object and its size.  An object that is held by a field
    lies inside the object that holds it. -/
structure ObjectLayout where
  fields : List Slot := []
  size : Int := 0
deriving DecidableEq

/-- The slot of a field.  A field hides the inherited ones of its name. -/
def ObjectLayout.field? (layout : ObjectLayout) (name : String) : Option Slot :=
  layout.fields.reverse.find? (·.name == name)

/-- The layout with one more field at its end. -/
def ObjectLayout.addField (layout : ObjectLayout) (name : String) (ty : Ty) (size : Int) :
    Except Fault ObjectLayout := do
  let total ← Word.add layout.size size
  return { fields := layout.fields ++ [{ name, ty, offset := layout.size, size }], size := total }

end ClassLang
