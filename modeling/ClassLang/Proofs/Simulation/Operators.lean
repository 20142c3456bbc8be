import ClassLang.Proofs.Machine.Idioms
import ClassLang.Proofs.Simulation.Relation

/-! # Operators on the machine

    The code of an operator does on words what the operator does on the values
    for which the words stand.

    * **`Machine.Combines`**: code does on two words what an operator does.
    * **`BinaryOp.combines`** and **`UnaryOp.changes`**: the code of every
      operator is such code. -/

namespace ClassLang

/-! ## Operands -/

/-- Both operands of an operator are numbers, or both are truth values. -/
theorem BinaryOp.operands_of_ok {op : BinaryOp} {a b v : Value} (h : op.apply a b = .ok v) :
    (∃ x y, a = .int x ∧ b = .int y) ∨ ∃ x y, a = .bool x ∧ b = .bool y := by
  match a, b with
  | .int x, .int y => exact Or.inl ⟨x, y, rfl, rfl⟩
  | .bool x, .bool y => exact Or.inr ⟨x, y, rfl, rfl⟩
  | .int _, .bool _ | .int _, .nothing | .int _, .object _ => cases op <;> cases h
  | .bool _, .int _ | .bool _, .nothing | .bool _, .object _ => cases op <;> cases h
  | .nothing, _ | .object _, _ => cases op <;> cases h

/-- The code of a comparison takes the next two labels. -/
theorem lowerComparison_ok {cond : JumpCond} {n n' : Nat} {code : List Line}
    (h : lowerComparison cond n = .ok (code, n')) :
    code = instrs [.pop .ebx, .pop .eax, .cmp (.reg .ebx) (.reg .eax),
        .jumpIf cond (.numbered n), .push (.imm 0), .jump (.numbered (n + 1))]
      ++ [.label (.numbered n), .instr (.push (.imm 1)), .label (.numbered (n + 1))] ∧
      n' = n + 2 := by
  cases h
  exact ⟨rfl, rfl⟩

namespace Machine

variable {M : Machine} {known : Known} {roots : List String} {s : State} {d : Nat}
  {a b v : Value}

/-! ## Binary operators -/

/-- The code does on the two topmost words what the operator does on the values
    for which they stand. -/
def Combines (M : Machine) (code : List Line) (op : BinaryOp) : Prop :=
  ∀ known roots s d a b v, M.CodeAt s.line code → s.regs .esp = M.slot (d + 2) →
    M.HasSlot (d + 2) → M.Shows known roots a (s.memory (M.slot (d + 1))) →
    M.Shows known roots b (s.memory (M.slot (d + 2))) → op.apply a b = .ok v →
    ∃ w s', M.Pushed d code.length w s s' ∧ M.Shows known roots v w

/-- Instructions that compute the word of the result. -/
theorem combines_onPair (hM : M.WellPlaced) {op : BinaryOp} {is : List Instr}
    (h : ∀ known roots a b v wa wb, M.Shows known roots a wa → M.Shows known roots b wb →
      op.apply a b = .ok v → ∃ w, M.Shows known roots v w ∧
        M.Computes is (fun t => t.regs .eax = wa ∧ t.regs .ebx = wb) w) :
    M.Combines (onPair is) op := by
  intro known roots s d a b v hcode hesp hd ha hb happly
  obtain ⟨w, hw, hcomputes⟩ := h known roots a b v _ _ ha hb happly
  obtain ⟨s', hs'⟩ := onPair_pushed hM hcode hesp hd rfl rfl hcomputes
  have hlength : (onPair is).length = is.length + 3 := by simp [onPair, instrs]
  exact ⟨w, s', hlength ▸ hs', hw⟩

/-- A comparison whose result tells how the two words are related. -/
theorem combines_comparison (hM : M.WellPlaced) (hdist : M.Distinct) {op : BinaryOp}
    {cond : JumpCond} {n n' : Nat} {code : List Line}
    (hcode : lowerComparison cond n = .ok (code, n'))
    (h : ∀ known roots a b v wa wb, M.Shows known roots a wa → M.Shows known roots b wb →
      op.apply a b = .ok v → v = .bool (cond.holds wa wb)) :
    M.Combines code op := by
  obtain ⟨rfl, _⟩ := lowerComparison_ok hcode
  intro known roots s d a b v hat hesp hd ha hb happly
  obtain ⟨s', hs'⟩ := comparison_pushed hM hdist hat hesp hd rfl rfl
  rw [h known roots a b v _ _ ha hb happly]
  exact ⟨_, s', hs', rfl⟩

/-- The words of truth values are as equal as these. -/
theorem word_bool_inj (x y : Bool) :
    ((if x then 1 else 0 : BitVec 32) = if y then 1 else 0) ↔ x = y := by
  cases x <;> cases y <;> simp

/-- An operator on numbers that one instruction computes. -/
theorem combines_withRight (hM : M.WellPlaced) {op : BinaryOp} (arith : ArithOp)
    (hint : ∀ x y, op.apply (.int x) (.int y) = .ok (.int (arith.apply x y)))
    (hbool : ∀ x y, op.apply (.bool x) (.bool y) = .error .stuck) :
    M.Combines (onPair [withRight arith]) op := by
  refine combines_onPair hM ?_
  intro known roots a b v wa wb ha hb happly
  rcases BinaryOp.operands_of_ok happly with ⟨x, y, rfl, rfl⟩ | ⟨x, y, rfl, rfl⟩
  · rw [hint] at happly
    cases happly
    cases ha
    cases hb
    exact ⟨_, rfl, computes_withRight arith _ _⟩
  · rw [hbool] at happly
    cases happly

/-- The operator on truth values. -/
theorem combines_and (hM : M.WellPlaced) : M.Combines (onPair [withRight .and]) .and := by
  refine combines_onPair hM ?_
  intro known roots a b v wa wb ha hb happly
  rcases BinaryOp.operands_of_ok happly with ⟨x, y, rfl, rfl⟩ | ⟨x, y, rfl, rfl⟩
  · cases happly
  · cases happly
    cases ha
    cases hb
    refine ⟨_, ?_, computes_withRight .and _ _⟩
    show _ = if (x && y) = true then (1 : BitVec 32) else 0
    cases x <;> cases y <;> rfl

/-- The division, if there is a quotient. -/
theorem combines_divide (hM : M.WellPlaced) : M.Combines (onPair [.cdq, .idiv .ebx]) .div := by
  refine combines_onPair hM ?_
  intro known roots a b v wa wb ha hb happly
  rcases BinaryOp.operands_of_ok happly with ⟨x, y, rfl, rfl⟩ | ⟨x, y, rfl, rfl⟩
  · by_cases hd : y = 0 ∨ x = leastInt ∧ y = -1
    · have herr : BinaryOp.div.apply (.int x) (.int y) = .error .division := if_pos hd
      rw [herr] at happly
      cases happly
    · have hok : BinaryOp.div.apply (.int x) (.int y) = .ok _ := if_neg hd
      rw [hok] at happly
      cases happly
      obtain ⟨hzero, hleast⟩ := not_or.mp hd
      cases ha
      cases hb
      exact ⟨_, rfl, computes_divide hzero hleast⟩
  · cases happly

/-- The order of numbers. -/
theorem combines_order (hM : M.WellPlaced) (hdist : M.Distinct) {op : BinaryOp}
    {cond : JumpCond} {n n' : Nat} {code : List Line}
    (hcode : lowerComparison cond n = .ok (code, n'))
    (hint : ∀ x y, op.apply (.int x) (.int y) = .ok (.bool (cond.holds x y)))
    (hbool : ∀ x y, op.apply (.bool x) (.bool y) = .error .stuck) : M.Combines code op := by
  refine combines_comparison hM hdist hcode ?_
  intro known roots a b v wa wb ha hb happly
  rcases BinaryOp.operands_of_ok happly with ⟨x, y, rfl, rfl⟩ | ⟨x, y, rfl, rfl⟩
  · rw [hint] at happly
    cases happly
    cases ha
    cases hb
    rfl
  · rw [hbool] at happly
    cases happly

/-- Whether two numbers or two truth values are equal. -/
theorem combines_equality (hM : M.WellPlaced) (hdist : M.Distinct) {op : BinaryOp}
    {cond : JumpCond} {n n' : Nat} {code : List Line}
    (hcode : lowerComparison cond n = .ok (code, n'))
    (hint : ∀ x y, op.apply (.int x) (.int y) = .ok (.bool (cond.holds x y)))
    (hbool : ∀ x y, op.apply (.bool x) (.bool y) =
      .ok (.bool (cond.holds (if x then 1 else 0) (if y then 1 else 0)))) :
    M.Combines code op := by
  refine combines_comparison hM hdist hcode ?_
  intro known roots a b v wa wb ha hb happly
  rcases BinaryOp.operands_of_ok happly with ⟨x, y, rfl, rfl⟩ | ⟨x, y, rfl, rfl⟩
  · rw [hint] at happly
    cases happly
    cases ha
    cases hb
    rfl
  · rw [hbool] at happly
    cases happly
    cases ha
    cases hb
    rfl

end Machine

open Machine

variable {M : Machine}

/-- The code of every binary operator does what the operator means. -/
theorem BinaryOp.combines (hM : M.WellPlaced) (hdist : M.Distinct) {op : BinaryOp} {n n' : Nat}
    {code : List Line} (h : op.lower n = .ok (code, n')) : M.Combines code op := by
  cases op with
  | add =>
    cases h
    exact combines_withRight hM .add (fun _ _ => rfl) fun _ _ => rfl
  | sub =>
    cases h
    exact combines_withRight hM .sub (fun _ _ => rfl) fun _ _ => rfl
  | mul =>
    cases h
    exact combines_withRight hM .imul (fun _ _ => rfl) fun _ _ => rfl
  | div =>
    cases h
    exact combines_divide hM
  | and =>
    cases h
    exact combines_and hM
  | lessThan => exact combines_order hM hdist h (fun _ _ => rfl) fun _ _ => rfl
  | lessEqual => exact combines_order hM hdist h (fun _ _ => rfl) fun _ _ => rfl
  | equal =>
    refine combines_equality hM hdist h (fun _ _ => rfl) ?_
    intro x y
    simp only [BinaryOp.apply, JumpCond.holds, word_bool_inj]
  | notEqual =>
    refine combines_equality hM hdist h (fun _ _ => rfl) ?_
    intro x y
    simp only [BinaryOp.apply, JumpCond.holds, ne_eq, word_bool_inj]

/-! ## Unary operators -/

/-- The code of every unary operator does what the operator means. -/
theorem UnaryOp.changes (hM : M.WellPlaced) {op : UnaryOp} {known : Known} {roots : List String}
    {s : State} {d : Nat} {a v : Value} (hcode : M.CodeAt s.line op.lower)
    (hesp : s.regs .esp = M.slot (d + 1)) (hd : M.HasSlot (d + 1))
    (ha : M.Shows known roots a (s.memory (M.slot (d + 1)))) (happly : op.apply a = .ok v) :
    ∃ w s', M.Pushed d op.lower.length w s s' ∧ M.Shows known roots v w := by
  match op, a with
  | .neg, .int x =>
    cases happly
    obtain ⟨s', hs'⟩ := onTop_pushed hM hcode hesp hd ha (computes_neg x)
    exact ⟨_, s', hs', rfl⟩
  | .not, .bool x =>
    cases happly
    obtain ⟨s', hs'⟩ := onTop_pushed hM hcode hesp hd ha (computes_xor 1 _)
    refine ⟨_, s', hs', ?_⟩
    show _ = if (!x) = true then (1 : BitVec 32) else 0
    cases x <;> rfl
  | .neg, .bool _ | .neg, .nothing | .neg, .object _ => cases happly
  | .not, .int _ | .not, .nothing | .not, .object _ => cases happly

end ClassLang
