import ClassLang.Assembly.Render
import ClassLang.Journal
import ClassLang.Lowering.Stmt

/-! # Lowering programs

    A program becomes a text with the routines it needs, the methods of all
    classes in order, and the routine that starts it.

    * **`Generator`** is what outlives one text: the layouts, the next free
      label and the journal.  A second text goes on with the labels.
    * **`Generator.generate`** is the text of a program. -/

namespace ClassLang

/-- What is kept between one text and the next. -/
structure Generator where
  layouts : Layouts := {}
  nextLabel : Nat := 0
  journal : List Event := []

/-! ## Fixed routines -/

/-- The format in which numbers are printed. -/
def printFormat : String := ".LC0"

/-- The routine that starts the program. -/
def startRoutine : String := "Start"

/-- The head of a routine: the frame pointer of the caller is saved. -/
def prologue : List Line := instrs [.push (.reg .ebp), .mov (.reg .esp) (.reg .ebp)]

/-- The end of a routine: the frame is left. -/
def epilogue : List Line := instrs [.mov (.reg .ebp) (.reg .esp), .pop .ebp, .ret]

/-- A routine that is known outside. -/
def exported (name : String) : List Line :=
  directives [.globalSymbol name, .functionType name] ++ [.label (.named name)]

/-- The memory and the routine that every program uses. -/
def preamble : List Line :=
  directives [.text, .common heapBase Word.size Word.size,
    .common heapTop Word.size Word.size, .readOnlyData]
  ++ [.label (.named printFormat)] ++ directives [.string "%d\\n", .text]
  ++ exported printRoutine ++ prologue
  ++ instrs [.mov (.mem 8 .ebp) (.reg .eax), .push (.reg .eax), .push (.address printFormat),
    .call "printf", .arith .add (.imm 8) (.reg .esp)]
  ++ epilogue

/-- The routine that is called with the address of the heap: it puts the
    program's own object there, of `size` bytes, and runs its `start`. -/
def startup (size : Int) : List Line :=
  exported startRoutine ++ prologue
  ++ instrs [.mov (.mem 8 .ebp) (.reg .ecx), .mov (.reg .ecx) (.cell heapBase),
    .mov (.reg .ecx) (.cell heapTop), .arith .add (.imm size) (.cell heapTop),
    .push (.cell heapBase), .call (methodLabel "Program" "start"),
    .arith .add (.imm Word.size) (.reg .esp)]
  ++ epilogue

/-! ## Methods -/

/-- The code of a method. -/
def Method.lower (site : Site) (m : Method) : Emit (List Line) := do
  let room ← site.frame.localsSize
  let body ← Stmt.lowerAll site m.body
  let value ← m.value.lower site
  return [.label (.named (methodLabel site.cls m.name))] ++ prologue
    ++ instrs [.arith .sub (.imm room) (.reg .esp)]
    ++ body ++ value ++ instrs [.pop .eax] ++ epilogue

/-! ## Events -/

/-- What there is to tell about the layout of a class, once all that it builds
    on is laid out. -/
def ObjectLayout.events (layout : ObjectLayout) (c : ClassDecl) : List Event :=
  let own := (Declaration.variables c.fields).length
  (layout.fields.drop (layout.fields.length - own)).map
      (fun slot => .fieldSlot c.name slot.name slot.offset slot.size)
    ++ [.classLayout c.name layout.size]

/-- What there is to tell about a frame. -/
def Frame.events (frame : Frame) (label : String) : List Event :=
  frame.params.map (fun slot => .parameterSlot label slot.name slot.offset)
    ++ frame.locals.map (fun slot => .localSlot label slot.name slot.offset)

/-! ## The generator -/

namespace Generator

/-- A computation that makes code. -/
abbrev Gen := EStateM Fault Generator

/-- Writes events into the journal. -/
def tell (events : List Event) : Gen Unit :=
  modify fun g => { g with journal := g.journal ++ events }

/-- Computes a layout. -/
def build (step : Layouts.Build α) : Gen α := fun g =>
  match step g.layouts with
  | .ok a layouts => .ok a { g with layouts }
  | .error f layouts => .error f { g with layouts }

/-- Makes code with the next free labels. -/
def emit (code : Emit α) : Gen α := fun g =>
  match code.run g.nextLabel with
  | .ok (a, nextLabel) => .ok a { g with nextLabel }
  | .error f => .error f g

/-- Lays out a class, and tells about it if it is new. -/
def layoutClass (defs : List ClassDecl) (c : ClassDecl) : Gen ObjectLayout := do
  let isNew := ((← get).layouts.object? c.name).isNone
  let layout ← build (Layouts.layoutClass defs c.name)
  if isNew then tell (layout.events c)
  return layout

/-- Lays out a method, and tells about it if it is new. -/
def layoutFrame (cls : String) (m : Method) : Gen Frame := do
  let isNew := ((← get).layouts.frame? cls m.name).isNone
  let frame ← build (Layouts.layoutFrame cls m)
  if isNew then tell (frame.events (methodLabel cls m.name))
  return frame

/-- The code of a method of class `cls`. -/
def method (classes : Hierarchy) (cls : String) (object : ObjectLayout) (m : Method) :
    Gen (List Line) := do
  let frame ← layoutFrame cls m
  tell [.generatingMethod (methodLabel cls m.name) frame.params.length frame.locals.length]
  let layouts := (← get).layouts
  emit (m.lower { cls, object, frame, layouts, classes })

/-- The code of the methods of a class. -/
def classCode (classes : Hierarchy) (defs : List ClassDecl) (c : ClassDecl) : Gen (List Line) := do
  let object ← layoutClass defs c
  let methods ← c.methods.mapM (method classes c.name object)
  return .comment ("class " ++ c.name) :: methods.flatten

/-- The code of a program. -/
def generate (classes : Hierarchy) (p : Program) : Gen (List Line) := do
  let code ← p.classes.mapM (classCode classes p.classes)
  let program ← build (Layouts.layoutClass p.classes "Program")
  return preamble ++ code.flatten ++ startup program.size

/-- The text of a program. -/
def text (classes : Hierarchy) (p : Program) : Gen String := do
  return Line.renderAll (← generate classes p)

end Generator

end ClassLang
