import ClassLang.Proofs.Layout.Requests
import ClassLang.Proofs.Lowering.Labels

/-! # Code under later labels

    The code of a tree depends on the next free label only through the numbers
    of its own labels.

    * **`Label.shift`**, **`Line.shift`** and **`shiftAll`** move numbered labels
      on by a distance, where they stand and where they are jumped to.
    * **`Moves`** compares two runs, the second of which starts the distance
      later: it comes to what the first comes to, moved on.
    * **`Expr.lower_moves`**, **`Stmt.lower_moves`** and **`Method.lower_moves`**:
      this holds of all code, also if more layouts are remembered at the
      second run. -/

namespace ClassLang

/-! ## Shifts -/

/-- The label with a number that is `d` larger; names stay. -/
def Label.shift (d : Nat) : Label → Label
  | numbered n => numbered (n + d)
  | named x => named x

/-- The instruction with its target moved on. -/
def Instr.shift (d : Nat) : Instr → Instr
  | jump target => jump (target.shift d)
  | jumpIf cond target => jumpIf cond (target.shift d)
  | i => i

/-- The line with its label moved on. -/
def Line.shift (d : Nat) : Line → Line
  | instr i => instr (i.shift d)
  | label l => label (l.shift d)
  | directive dir => directive dir
  | comment text => comment text

/-- The code with all its numbered labels moved on. -/
def shiftAll (d : Nat) (code : List Line) : List Line := code.map (Line.shift d)

section shifts

variable {d : Nat} {code c : List Line}

@[simp] theorem shiftAll_nil : shiftAll d [] = [] := rfl

@[simp] theorem shiftAll_cons (l : Line) : shiftAll d (l :: code) = l.shift d :: shiftAll d code :=
  rfl

@[simp] theorem shiftAll_append : shiftAll d (code ++ c) = shiftAll d code ++ shiftAll d c :=
  List.map_append

theorem shiftAll_flatten (codes : List (List Line)) :
    shiftAll d codes.flatten = (codes.map (shiftAll d)).flatten :=
  List.map_flatten

theorem Instr.shift_of_straight {i : Instr} (h : i.straight = true) : i.shift d = i := by
  cases i with
  | jump | jumpIf => cases h
  | _ => rfl

/-- Code that does not jump stays as it is. -/
theorem shiftAll_straight (h : Straight code) : shiftAll d code = code := by
  obtain ⟨is, rfl, hall⟩ := h
  refine (List.map_congr_left ?_).trans (List.map_id' _)
  intro l hl
  obtain ⟨i, hi, rfl⟩ := List.mem_map.mp hl
  exact congrArg Line.instr (i.shift_of_straight (List.all_eq_true.mp hall i hi))

theorem Line.shift_zero (l : Line) : l.shift 0 = l := by
  cases l with
  | instr i =>
    cases i with
    | jump target | jumpIf _ target => cases target <;> rfl
    | _ => rfl
  | label l => cases l <;> rfl
  | directive | comment => rfl

theorem shiftAll_zero (code : List Line) : shiftAll 0 code = code :=
  (List.map_congr_left fun l _ => l.shift_zero).trans (List.map_id' code)

end shifts

/-! ## Two runs -/

/-- Where the first step goes through, the second does so `d` labels later, and
    comes to what `act` makes of the first result. -/
def Moves (d : Nat) {α β : Type} (act : α → β) (x : Emit α) (y : Emit β) : Prop :=
  ∀ ⦃n a n'⦄, x n = .ok (a, n') → y (n + d) = .ok (act a, n' + d)

namespace Moves

variable {d : Nat} {α β γ δ : Type} {act : α → β} {act' : γ → δ}

theorem pure {a : α} {b : β} (h : act a = b) : Moves d act (Pure.pure a) (Pure.pure b) := by
  intro n a' n' hx
  cases hx
  rw [h]
  rfl

theorem bind {x : Emit α} {y : Emit β} {f : α → Emit γ} {g : β → Emit δ} (hx : Moves d act x y)
    (hf : ∀ a, Moves d act' (f a) (g (act a))) : Moves d act' (x >>= f) (y >>= g) := by
  intro n c n' h
  obtain ⟨a, k, ha, hc⟩ := state_bind_ok_iff.mp h
  exact state_bind_ok_iff.mpr ⟨act a, k + d, hx ha, hf a hc⟩

/-- A step that takes no labels. -/
theorem lift {x : Except Fault α} {y : Except Fault β} (h : ∀ a, x = .ok a → y = .ok (act a)) :
    Moves d act (liftM x) (liftM y) := by
  intro n a n' hx
  obtain ⟨ha, rfl⟩ := state_lift_ok_iff.mp hx
  exact state_lift_ok_iff.mpr ⟨h a ha, rfl⟩

theorem throw {f : Fault} {y : Emit β} : Moves d act (throw f) y := by
  intro n a n' h
  cases h

theorem freshLabel : Moves d (Label.shift d) freshLabel freshLabel := by
  intro n a n' h
  cases h
  show Except.ok (Label.numbered (n + d), n + d + 1) = .ok (.numbered (n + d), n + 1 + d)
  rw [Nat.add_right_comm]

/-- A step that takes no labels and comes to straight code. -/
theorem straight {x y : Except Fault (List Line)} (h : ∀ code, x = .ok code → y = .ok code)
    (hstraight : ∀ code, x = .ok code → Straight code) :
    Moves d (shiftAll d) (liftM x) (liftM y) :=
  lift fun code hcode => by
    rw [shiftAll_straight (hstraight code hcode)]
    exact h code hcode

end Moves

/-! ## Operators and calls -/

section trees

variable {d : Nat} {site : Site} {l : Layouts}

theorem lowerComparison_moves (cond : JumpCond) :
    Moves d (shiftAll d) (lowerComparison cond) (lowerComparison cond) :=
  .bind .freshLabel fun _ => .bind .freshLabel fun _ => .pure rfl

theorem BinaryOp.lower_moves (op : BinaryOp) : Moves d (shiftAll d) op.lower op.lower := by
  cases op with
  | lessThan | lessEqual | equal | notEqual => exact lowerComparison_moves _
  | _ => exact .pure rfl

theorem UnaryOp.shiftAll_lower (op : UnaryOp) : shiftAll d op.lower = op.lower :=
  shiftAll_straight op.lower_straight

/-- The code of a call has no labels. -/
theorem Site.call_moves (callee : Option String) (cls method : String) (args : Nat) :
    Moves d (shiftAll d) (liftM (site.call callee cls method args))
      (liftM (site.call callee cls method args)) := by
  refine .lift fun code hcode => ?_
  obtain ⟨owner, pushed, _, hc⟩ := call_ok hcode
  rw [hcode, hc]
  rfl

/-- Layouts that are remembered are found among more of them. -/
theorem Site.allocate_moves (hl : Layouts.Extends site.layouts l) (cls : String) :
    Moves d (shiftAll d) (liftM (site.allocate cls))
      (liftM ({ site with layouts := l }.allocate cls)) := by
  refine .straight (fun code hcode => ?_) fun code => allocate_straight
  unfold allocate at hcode ⊢
  cases hlayout : site.layouts.object? cls with
  | none =>
    rw [hlayout] at hcode
    cases hcode
  | some layout =>
    rw [hlayout] at hcode
    rw [hl cls layout hlayout]
    exact hcode

/-! ## Trees -/

namespace Expr

mutual

/-- The code of an expression moves on with its labels. -/
theorem lower_moves (hl : Layouts.Extends site.layouts l) : ∀ e : Expr,
    Moves d (shiftAll d) (e.lower site) (e.lower { site with layouts := l })
  | .binary _ op left right =>
    .bind (lower_moves hl left) fun _ => .bind (lower_moves hl right) fun _ =>
    .bind op.lower_moves fun _ => .pure (by simp)
  | .unary _ op operand =>
    .bind (lower_moves hl operand) fun _ => .pure (by simp [op.shiftAll_lower])
  | .methodCall note receiver method args => by
    cases hcls : receiver.ty?.bind Ty.className? with
    | none =>
      simp only [lower, hcls]
      exact .throw
    | some cls =>
      simp only [lower, hcls]
      exact .bind (lower_moves hl receiver) fun _ => .bind (lowerArgs_moves hl args) fun _ =>
        .bind (Site.call_moves _ _ _ _) fun _ => .pure (by simp)
  | .selfCall note method args =>
    .bind (lowerArgs_moves hl args) fun _ => .bind (Site.call_moves _ _ _ _) fun _ =>
    .pure (by rw [shiftAll_append, shiftAll_append]; rfl)
  | .var _ name => .straight (fun _ => id) fun _ => Site.load_straight
  | .num .. | .bool .. | .nothing .. => .pure rfl
  | .new _ cls => Site.allocate_moves hl cls

/-- The code of arguments moves on with its labels. -/
theorem lowerArgs_moves (hl : Layouts.Extends site.layouts l) : ∀ args : List Expr,
    Moves d (shiftAll d) (lowerArgs site args) (lowerArgs { site with layouts := l } args)
  | [] => .pure rfl
  | e :: rest =>
    .bind (lowerArgs_moves hl rest) fun _ => .bind (lower_moves hl e) fun _ => .pure (by simp)

end

end Expr

namespace Stmt

mutual

/-- The code of a statement moves on with its labels. -/
theorem lower_moves (hl : Layouts.Extends site.layouts l) : ∀ s : Stmt,
    Moves d (shiftAll d) (s.lower site) (s.lower { site with layouts := l })
  | .assign _ name value =>
    .bind (value.lower_moves hl) fun _ =>
    .bind (.straight (fun _ => id) fun _ => Site.store_straight) fun _ => .pure (by simp)
  | .cond _ test body =>
    .bind .freshLabel fun _ => .bind (test.lower_moves hl) fun _ =>
    .bind (lowerAll_moves hl body) fun _ =>
    .pure (by rw [shiftAll_append, shiftAll_append, shiftAll_append]; rfl)
  | .print _ value => .bind (value.lower_moves hl) fun _ =>
    .pure (by rw [shiftAll_append]; rfl)

/-- The code of statements moves on with its labels. -/
theorem lowerAll_moves (hl : Layouts.Extends site.layouts l) : ∀ body : List Stmt,
    Moves d (shiftAll d) (lowerAll site body) (lowerAll { site with layouts := l } body)
  | [] => .pure rfl
  | s :: rest =>
    .bind (lower_moves hl s) fun _ => .bind (lowerAll_moves hl rest) fun _ => .pure (by simp)

end

end Stmt

/-- The code of a method moves on with its labels. -/
theorem Method.lower_moves (hl : Layouts.Extends site.layouts l) (m : Method) :
    Moves d (shiftAll d) (m.lower site) (m.lower { site with layouts := l }) :=
  .bind (.lift fun _ => id) fun _ => .bind (Stmt.lowerAll_moves hl m.body) fun _ =>
  .bind (m.value.lower_moves hl) fun _ => .pure (by
    -- the fixed parts have no numbered labels
    simp only [shiftAll_append]
    rfl)

end trees

end ClassLang
