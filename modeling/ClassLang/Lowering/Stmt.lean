import ClassLang.Lowering.Expr

/-! # Lowering statements

    The code of a statement leaves the stack as it was. -/

namespace ClassLang

/-- The routine that prints a number. -/
def printRoutine : String := "Print"

namespace Site

/-- Copies an object word by word from the address in `eax` to an offset from
    the address in `ecx`. -/
def copy (slot : Slot) : Except Fault (List Line) :=
  (wordOffsets slot.size).foldlM (fun code offset => do
    let target ← Word.add slot.offset offset
    return code ++ instrs [.mov (.mem offset .eax) (.reg .edx),
      .mov (.reg .edx) (.mem target .ecx)]) []

/-- Pops a value into a variable.  A field that holds an object takes the
    words of the object. -/
def store (site : Site) (name : String) : Except Fault (List Line) := do
  match ← site.locate name with
  | .frame slot => return instrs [.pop .eax, .mov (.reg .eax) (.mem slot.offset .ebp)]
  | .field slot =>
    let access ← match slot.ty with
      | .object _ => copy slot
      | _ => pure (instrs [.mov (.reg .eax) (.mem slot.offset .ecx)])
    return instrs [.pop .eax, .mov site.receiver (.reg .ecx)] ++ access

end Site

namespace Stmt

mutual

/-- The code of a statement. -/
def lower (site : Site) : Stmt → Emit (List Line)
  | assign _ name value => return (← value.lower site) ++ (← site.store name)
  | cond _ test body => do
    -- the end label is taken first, so it is smaller than those of the test
    let finish ← freshLabel
    let testCode ← test.lower site
    let bodyCode ← lowerAll site body
    return testCode
      ++ instrs [.pop .eax, .cmp (.imm 1) (.reg .eax), .jumpIf .notEqual finish]
      ++ bodyCode ++ [.label finish]
  | print _ value =>
    return (← value.lower site)
      ++ instrs [.call printRoutine, .arith .add (.imm Word.size) (.reg .esp)]

/-- The code of statements in order. -/
def lowerAll (site : Site) : List Stmt → Emit (List Line)
  | [] => return []
  | s :: rest => return (← lower site s) ++ (← lowerAll site rest)

end

end Stmt

end ClassLang
