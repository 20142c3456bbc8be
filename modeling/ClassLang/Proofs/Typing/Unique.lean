import ClassLang.Proofs.Typing.Program

/-! # One elaborated form

    A bare tree has at most one elaborated form: the type of a node, and with it
    what the node records, is settled by the tree without its attributes.

    * **`Expr.Derives.binary_parts`** and **`unary_parts`**: the operands of an
      operator by its table.
    * **`Expr.Elaborated.eq_of_erase`** and **`Stmt.eq_of_erase`**: elaborated
      trees with the same erasure are equal.
    * **`Program.Elaborated.eq_of_erase`**, and **`Program.check_yields`**:
      checking the erasure of an elaborated program yields this program. -/

namespace ClassLang

variable {mark : Mark} {V : View}

/-! ## Operators by their tables -/

/-- Operands of one type, which is that of numbers or of truth values, fit a
    binary operator by its table. -/
theorem Expr.Derives.binary_parts {n : Note} {op : BinaryOp} {left right : Expr} {ty : Ty}
    (h : (binary n op left right).Derives mark V ty) :
    ∃ a ∈ [Ty.int, .bool], left.Derives mark V a ∧ right.Derives mark V a ∧
      op.resultType a a = some ty ∧ mark n ty none := by
  cases h with
  | arith hop hl hr hn =>
    simp only [List.mem_cons, List.not_mem_nil, or_false] at hop
    rcases hop with rfl | rfl | rfl | rfl <;> exact ⟨.int, by simp, hl, hr, rfl, hn⟩
  | and hl hr hn => exact ⟨.bool, by simp, hl, hr, rfl, hn⟩
  | compare hop hl hr hn =>
    simp only [List.mem_cons, List.not_mem_nil, or_false] at hop
    rcases hop with rfl | rfl <;> exact ⟨.int, by simp, hl, hr, rfl, hn⟩
  | equate hop hty hl hr hn =>
    refine ⟨_, hty, hl, hr, ?_, hn⟩
    simp only [List.mem_cons, List.not_mem_nil, or_false] at hop hty
    rcases hop with rfl | rfl <;> rcases hty with rfl | rfl <;> rfl

theorem Expr.Derives.unary_parts {n : Note} {op : UnaryOp} {operand : Expr} {ty : Ty}
    (h : (unary n op operand).Derives mark V ty) :
    ty = op.operandType ∧ operand.Derives mark V op.operandType ∧ mark n op.operandType none := by
  cases h with
  | neg h hn | not h hn => exact ⟨rfl, h, hn⟩

theorem Expr.Derives.of_operandType {n : Note} {op : UnaryOp} {operand : Expr}
    (h : operand.Derives mark V op.operandType) (hn : mark n op.operandType none) :
    (unary n op operand).Derives mark V op.operandType := by
  cases op with
  | neg => exact .neg h hn
  | not => exact .not h hn

/-! ## Expressions -/

/-- A note is settled by its line and by what it records. -/
theorem Note.Records.eq {n n' : Note} {ty : Ty} {callee : Option String} (h : n.Records ty callee)
    (h' : n'.Records ty callee) (he : n.erase = n'.erase) : n = n' := by
  obtain ⟨line, t, c⟩ := n
  obtain ⟨line', t', c'⟩ := n'
  obtain ⟨rfl, rfl⟩ := h
  obtain ⟨rfl, rfl⟩ := h'
  cases he
  rfl

namespace Expr

/-- Expressions with the same erasure are of the same type. -/
theorem Derives.ty_eq_of_erase {mark' : Mark} {e e' : Expr} {ty ty' : Ty}
    (h : e.Derives mark V ty) (h' : e'.Derives mark' V ty') (he : e.erase = e'.erase) :
    ty = ty' :=
  h.erase.unique (he ▸ h'.erase)

mutual

/-- Elaborated expressions with the same erasure are equal. -/
theorem Elaborated.eq_of_erase : ∀ {e e' : Expr} {ty : Ty}, e.Elaborated V ty →
    e'.Elaborated V ty → e.erase = e'.erase → e = e'
  | .binary n op l r, e', _, h, h', he => by
    cases e' with
    | binary n' op' l' r' =>
      obtain ⟨a, _, hl, hr, _, hn⟩ := h.binary_parts
      obtain ⟨a', _, hl', hr', _, hn'⟩ := h'.binary_parts
      simp only [erase, binary.injEq] at he
      obtain ⟨hne, rfl, hle, hre⟩ := he
      obtain rfl := hl.ty_eq_of_erase hl' hle
      rw [hn.eq hn' hne, Elaborated.eq_of_erase hl hl' hle, Elaborated.eq_of_erase hr hr' hre]
    | _ => cases he
  | .unary n op e, e', _, h, h', he => by
    cases e' with
    | unary n' op' e' =>
      obtain ⟨rfl, hd, hn⟩ := h.unary_parts
      obtain ⟨_, hd', hn'⟩ := h'.unary_parts
      simp only [erase, unary.injEq] at he
      obtain ⟨hne, rfl, he⟩ := he
      rw [hn.eq hn' hne, Elaborated.eq_of_erase hd hd' he]
    | _ => cases he
  | .methodCall n r m args, e', _, .methodCall hr hm ha hn, h', he => by
    cases e' with
    | methodCall n' r' m' args' =>
      cases h' with
      | methodCall hr' hm' ha' hn' =>
        simp only [erase, methodCall.injEq] at he
        obtain ⟨hne, hre, rfl, hae⟩ := he
        -- the receivers are of one class, and so are the owners of the methods
        cases hr.ty_eq_of_erase hr' hre
        cases hm.symm.trans hm'
        rw [hn.eq hn' hne, Elaborated.eq_of_erase hr hr' hre, Fit.eq_of_erase ha ha' hae]
    | _ => cases he
  | .selfCall n m args, e', _, .selfCall hm ha hn, h', he => by
    cases e' with
    | selfCall n' m' args' =>
      cases h' with
      | selfCall hm' ha' hn' =>
        simp only [erase, selfCall.injEq] at he
        obtain ⟨hne, rfl, hae⟩ := he
        cases hm.symm.trans hm'
        rw [hn.eq hn' hne, Fit.eq_of_erase ha ha' hae]
    | _ => cases he
  | .var n x, e', _, .var _ _ hn, h', he => by
    cases e' with
    | var n' x' =>
      cases h' with
      | var _ _ hn' =>
        simp only [erase, var.injEq] at he
        rw [hn.eq hn' he.1, he.2]
    | _ => cases he
  | .num n v, e', _, .num hn, h', he => by
    cases e' with
    | num n' v' =>
      cases h' with
      | num hn' =>
        simp only [erase, num.injEq] at he
        rw [hn.eq hn' he.1, he.2]
    | _ => cases he
  | .bool n v, e', _, .bool hn, h', he => by
    cases e' with
    | bool n' v' =>
      cases h' with
      | bool hn' =>
        simp only [erase, bool.injEq] at he
        rw [hn.eq hn' he.1, he.2]
    | _ => cases he
  | .nothing n, e', _, .nothing hn, h', he => by
    cases e' with
    | nothing n' =>
      cases h' with
      | nothing hn' =>
        simp only [erase, nothing.injEq] at he
        rw [hn.eq hn' he]
    | _ => cases he
  | .new n cls, e', _, .new _ hn, h', he => by
    cases e' with
    | new n' cls' =>
      cases h' with
      | new _ hn' =>
        simp only [erase, new.injEq] at he
        rw [hn.eq hn' he.1]
    | _ => cases he

/-- Elaborated arguments with the same erasure are equal. -/
theorem Fit.eq_of_erase : ∀ {args args' : List Expr} {params : List Ty},
    Fit Note.Records V args params → Fit Note.Records V args' params →
    eraseAll args = eraseAll args' → args = args'
  | _, _, _, .nil, .nil, _ => rfl
  | _, _, _, .cons he _ hr, .cons he' _ hr', h => by
    simp only [eraseAll, List.cons.injEq] at h
    cases he.ty_eq_of_erase he' h.1
    rw [Elaborated.eq_of_erase he he' h.1, Fit.eq_of_erase hr hr' h.2]

end

end Expr

/-! ## Statements and declarations -/

mutual

/-- Elaborated statements with the same erasure are equal. -/
theorem Stmt.eq_of_erase : ∀ {s s' : Stmt}, s.Derives Note.Records V →
    s'.Derives Note.Records V → s.erase = s'.erase → s = s'
  | .assign line x value, s', .assign hv _ _ _, h', he => by
    cases s' with
    | assign line' x' value' =>
      cases h' with
      | assign hv' _ _ _ =>
        simp only [erase, Stmt.assign.injEq] at he
        obtain ⟨rfl, rfl, he⟩ := he
        cases hv.ty_eq_of_erase hv' he
        rw [Expr.Elaborated.eq_of_erase hv hv' he]
    | _ => cases he
  | .cond line test body, s', .cond ht hb, h', he => by
    cases s' with
    | cond line' test' body' =>
      cases h' with
      | cond ht' hb' =>
        simp only [erase, Stmt.cond.injEq] at he
        obtain ⟨rfl, hte, hbe⟩ := he
        rw [Expr.Elaborated.eq_of_erase ht ht' hte, Stmt.eq_of_eraseAll hb hb' hbe]
    | _ => cases he
  | .print line value, s', .print hv _, h', he => by
    cases s' with
    | print line' value' =>
      cases h' with
      | print hv' _ =>
        simp only [erase, Stmt.print.injEq] at he
        obtain ⟨rfl, he⟩ := he
        cases hv.ty_eq_of_erase hv' he
        rw [Expr.Elaborated.eq_of_erase hv hv' he]
    | _ => cases he

/-- Elaborated bodies with the same erasure are equal. -/
theorem Stmt.eq_of_eraseAll : ∀ {body body' : List Stmt},
    (∀ s ∈ body, s.Derives Note.Records V) → (∀ s ∈ body', s.Derives Note.Records V) →
    eraseAll body = eraseAll body' → body = body'
  | [], [], _, _, _ => rfl
  | s :: rest, s' :: rest', h, h', he => by
    simp only [eraseAll, List.cons.injEq] at he
    obtain ⟨hs, hrest⟩ := List.forall_mem_cons.mp h
    obtain ⟨hs', hrest'⟩ := List.forall_mem_cons.mp h'
    rw [Stmt.eq_of_erase hs hs' he.1, Stmt.eq_of_eraseAll hrest hrest' he.2]

end

/-- Elaborated methods with the same erasure are equal. -/
theorem Method.Derives.eq_of_erase {known : Known} {cls : String} {m m' : Method}
    (h : m.Derives Note.Records known cls) (h' : m'.Derives Note.Records known cls)
    (he : m.erase = m'.erase) : m = m' := by
  have hview : m.view known cls = m'.view known cls := by
    rw [Method.view, Method.view, ← erase_variables m, he, erase_variables]
  obtain ⟨ty, hv, _⟩ := h.value
  obtain ⟨ty', hv', _⟩ := h'.value
  have hb := h.body
  rw [hview] at hb hv
  have hvalue : m.value.erase = m'.value.erase := congrArg Method.value he
  have hbody : Stmt.eraseAll m.body = Stmt.eraseAll m'.body := congrArg Method.body he
  cases hv.ty_eq_of_erase hv' hvalue
  have hvalue := Expr.Elaborated.eq_of_erase hv hv' hvalue
  have hbody := Stmt.eq_of_eraseAll hb h'.body hbody
  obtain ⟨name, result, params, locals, body, value, line⟩ := m
  obtain ⟨name', result', params', locals', body', value', line'⟩ := m'
  simp only [Method.erase, Method.mk.injEq] at he
  obtain ⟨rfl, rfl, rfl, rfl, _, _, rfl⟩ := he
  simp only at hvalue hbody
  rw [hvalue, hbody]

namespace ClassDecl

/-- Elaborated methods of a class with the same erasures are equal. -/
theorem MethodsDerive.eq_of_erase {older : Known} {c : ClassDecl}
    {before methods methods' : List Method}
    (h : c.MethodsDerive Note.Records older before methods)
    (h' : c.MethodsDerive Note.Records older before methods')
    (he : methods.map Method.erase = methods'.map Method.erase) : methods = methods' := by
  induction methods generalizing before methods' with
  | nil => exact (List.map_eq_nil_iff.mp he.symm).symm
  | cons m rest ih =>
    obtain ⟨m', rest', rfl, hme, hre⟩ := List.map_eq_cons_iff.mp he.symm
    obtain rfl := h.1.eq_of_erase h'.1 hme.symm
    rw [ih h.2 h'.2 hre.symm]

/-- Elaborated classes with the same erasure are equal. -/
theorem Derives.eq_of_erase {older : Known} {c c' : ClassDecl} (h : c.Derives Note.Records older)
    (h' : c'.Derives Note.Records older) (he : c.erase = c'.erase) : c = c' := by
  have hmethods : c.methods.map Method.erase = c'.methods.map Method.erase :=
    congrArg ClassDecl.methods he
  have hempty : c'.upTo [] = c.upTo [] := by
    have herased : c'.erase.upTo [] = c.erase.upTo [] := by rw [he]
    exact herased
  have hmethods := h.methods.eq_of_erase (h'.methods.of_upTo_eq hempty) hmethods
  obtain ⟨name, superclass, fields, methods, line⟩ := c
  obtain ⟨name', superclass', fields', methods', line'⟩ := c'
  simp only [ClassDecl.erase, ClassDecl.mk.injEq] at he
  obtain ⟨rfl, rfl, rfl, _, rfl⟩ := he
  simp only at hmethods
  rw [hmethods]

/-- Elaborated lists of classes with the same erasures are equal. -/
theorem AllDerive.eq_of_erase {older : Known} {classes classes' : List ClassDecl}
    (h : AllDerive Note.Records older classes) (h' : AllDerive Note.Records older classes')
    (he : classes.map ClassDecl.erase = classes'.map ClassDecl.erase) : classes = classes' := by
  induction classes generalizing older classes' with
  | nil => exact (List.map_eq_nil_iff.mp he.symm).symm
  | cons c rest ih =>
    obtain ⟨c', rest', rfl, hce, hre⟩ := List.map_eq_cons_iff.mp he.symm
    obtain rfl := h.1.eq_of_erase h'.1 hce.symm
    rw [ih h.2 h'.2 hre.symm]

end ClassDecl

namespace Program

/-- Elaborated programs with the same erasure are equal. -/
theorem Elaborated.eq_of_erase {p p' : Program} (h : p.Elaborated) (h' : p'.Elaborated)
    (he : p.erase = p'.erase) : p = p' := by
  obtain ⟨classes, line⟩ := p
  obtain ⟨classes', line'⟩ := p'
  simp only [Program.erase, Program.mk.injEq] at he
  obtain ⟨hclasses, rfl⟩ := he
  obtain rfl : classes = classes' :=
    ClassDecl.AllDerive.eq_of_erase h.classes h'.classes hclasses
  rfl

/-- Checking the erasure of an elaborated program yields this program. -/
theorem Elaborated.check_yields {p : Program} (h : p.Elaborated) :
    ∃ t, p.erase.check.Yields p t := by
  have hbare : p.erase.erase = p.erase := by
    simp [Program.erase, Function.comp_def, ClassDecl.erase_erase]
  obtain ⟨q, t, hq⟩ := check_complete hbare h.erase
  obtain ⟨hqe, hqd, _⟩ := check_sound hbare hq
  exact ⟨t, Elaborated.eq_of_erase hqd h hqe ▸ hq⟩

end Program

end ClassLang
