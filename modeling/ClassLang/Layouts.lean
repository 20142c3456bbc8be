import ClassLang.Layout.Frame

/-! # The layouts of a program

    Layouts are computed when they are first asked for, and remembered.

    * **`Layouts`** holds what is computed so far, and **`Layouts.Build`** is
      a computation that extends it.
    * **`Layouts.layoutClass`** lays out a class and all that it depends on:
      its superclass and the classes of its fields.
    * **`Layouts.layoutFrame`** lays out a method.

    A layout that is remembered never changes, and one whose computation
    faults is not remembered at all. -/

namespace ClassLang

/-! ## Remembered layouts -/

/-- The layouts computed so far: of objects by class, of frames by label. -/
structure Layouts where
  objects : List (String × ObjectLayout) := []
  frames : List (String × Frame) := []
deriving DecidableEq

namespace Layouts

/-- A computation that extends the layouts.  A fault leaves behind what was
    computed before it. -/
abbrev Build := EStateM Fault Layouts

/-- The layout of a class, if it is computed. -/
def object? (l : Layouts) (cls : String) : Option ObjectLayout := l.objects.lookup cls

/-- The frame of a method, if it is computed. -/
def frame? (l : Layouts) (cls method : String) : Option Frame :=
  l.frames.lookup (methodLabel cls method)

/-- Remembers the layout of a class. -/
def addObject (l : Layouts) (cls : String) (layout : ObjectLayout) : Layouts :=
  { l with objects := (cls, layout) :: l.objects }

/-- Remembers the frame of a method by its label. -/
def addFrame (l : Layouts) (label : String) (frame : Frame) : Layouts :=
  { l with frames := (label, frame) :: l.frames }

/-- Remembering the layout of a class changes what is known of this class
    only. -/
theorem object?_addObject (l : Layouts) (cls other : String) (layout : ObjectLayout) :
    (l.addObject cls layout).object? other =
      if other = cls then some layout else l.object? other := by
  by_cases h : other = cls
  · simp [object?, addObject, h]
  · have hne : (other == cls) = false := by simpa using h
    simp [object?, addObject, List.lookup_cons, h, hne]

/-- A step that leaves the layouts alone. -/
def lift (step : Except Fault α) : Build α := fun l =>
  match step with
  | .ok a => .ok a l
  | .error f => .error f l

/-! ## Objects -/

/-- The size of a field: a held object is as large as its class says, all else
    is one word. -/
def fieldSize (layoutOf : String → Build ObjectLayout) : Ty → Build Int
  | .object cls => do return (← layoutOf cls).size
  | _ => return Word.size

/-- The layout of a class definition, on top of its superclass. -/
def layoutOfDef (layoutOf : String → Build ObjectLayout) (c : ClassDecl) :
    Build ObjectLayout := do
  let inherited ← match c.superclass with
    | some parent => layoutOf parent
    | none => pure {}
  (Declaration.variables c.fields).foldlM (fun layout (name, ty) => do
    let size ← fieldSize layoutOf ty
    lift (layout.addField name ty size)) inherited

/-- The layout of a class, through at most `fuel` classes that depend on each
    other. -/
def layoutUpTo (defs : List ClassDecl) : (fuel : Nat) → String → Build ObjectLayout
  | 0, cls => throw (.endlessLayout cls)
  | fuel + 1, cls => do
    match (← get).object? cls with
    | some layout => return layout
    | none =>
      match defs.find? (·.name == cls) with
      | none => throw (.undefinedClass cls)
      | some c =>
        -- nothing is remembered if a dependency faults
        let layout ← layoutOfDef (layoutUpTo defs fuel) c
        modify (·.addObject cls layout)
        return layout

/-- The layout of a class, computed when it is first asked for together with
    all layouts that it depends on.  Where no class depends on itself, a chain
    of dependencies meets each definition at most once. -/
def layoutClass (defs : List ClassDecl) (cls : String) : Build ObjectLayout :=
  layoutUpTo defs (defs.length + 1) cls

/-! ## Methods -/

/-- The frame of a method of class `cls`, computed when it is first asked for
    under its label. -/
def layoutFrame (cls : String) (m : Method) : Build Frame := do
  match (← get).frame? cls m.name with
  | some frame => return frame
  | none =>
    let frame ← lift (Frame.ofMethod m)
    modify (·.addFrame (methodLabel cls m.name) frame)
    return frame

end Layouts

end ClassLang
