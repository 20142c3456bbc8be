import ClassLang.Layout.Object
import ClassLang.Syntax

/-! # Frames

    Where the parameters and the locals of a method live while it runs.  The
    caller pushes the receiver first and the arguments from the last to the
    first, so that the first parameter lies next to the return address. -/

namespace ClassLang

/-- The activation record of a method with `n` parameters:

        fp + 4 * (2 + n)   the receiver
        fp + 4 * (2 + i)   parameter i
        fp + 4             the return address
        fp + 0             the frame pointer of the caller
        fp - 4 * (1 + j)   local j
-/
structure Frame where
  params : List Slot
  locals : List Slot
  receiver : Int
deriving DecidableEq

namespace Frame

/-- The slot of a parameter or a local. -/
def slot? (f : Frame) (name : String) : Option Slot :=
  (f.params ++ f.locals).find? (·.name == name)

/-- The bytes that all locals take. -/
def localsSize (f : Frame) : Except Fault Int :=
  f.locals.foldlM (fun total slot => Word.add total slot.size) 0

/-- Slots of one word from `offset` on, `next` leading from each to the
    following; and the offset behind the last. -/
def place (next : Int → Except Fault Int) (offset : Int) :
    List (String × Ty) → Except Fault (List Slot × Int)
  | [] => return ([], offset)
  | (name, ty) :: rest => do
    let (slots, last) ← place next (← next offset) rest
    return ({ name, ty, offset, size := Word.size } :: slots, last)

/-- The frame of a method: parameters upwards above the return address, then
    the receiver; locals downwards below the frame pointer. -/
def ofMethod (m : Method) : Except Fault Frame := do
  let (params, receiver) ←
    place (Word.add · Word.size) (2 * Word.size) (Param.variables m.params)
  let (locals, _) ←
    place (Word.sub · Word.size) (-Word.size) (Declaration.variables m.locals)
  return { params, locals, receiver }

end Frame

/-- The label of a method. -/
def methodLabel (cls method : String) : String := cls ++ "_" ++ method

end ClassLang
