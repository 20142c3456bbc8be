import ClassLang.Proofs.Typing.Rules

/-! # Places in a program

    Where an expression stands, and what the rules of typing say there.

    * **`Expr.Within`**, **`Stmt.Uses`** and **`Method.Uses`**: the
      expressions that occur at any depth.
    * **`Program.At`**: a method between the methods and the classes before
      it, and **`ClassDecl.viewAt`** what it sees there.
    * **`Expr.HasType.unique`**: the rules give an expression one type.
    * **`Program.Derives.exists_type`**: in a program that follows the rules
      every expression has a type. -/

namespace ClassLang

/-! ## Occurrences -/

/-- The expression is the second one or a part of it. -/
inductive Expr.Within (e : Expr) : Expr → Prop where
  | self : e.Within e
  | left {n op left right} : e.Within left → e.Within (.binary n op left right)
  | right {n op left right} : e.Within right → e.Within (.binary n op left right)
  | operand {n op operand} : e.Within operand → e.Within (.unary n op operand)
  | receiver {n receiver method args} : e.Within receiver →
      e.Within (.methodCall n receiver method args)
  | methodArg {n receiver method args a} : a ∈ args → e.Within a →
      e.Within (.methodCall n receiver method args)
  | selfArg {n method args a} : a ∈ args → e.Within a → e.Within (.selfCall n method args)

/-- The expression occurs in the statement. -/
inductive Stmt.Uses (e : Expr) : Stmt → Prop where
  | assign {line name value} : e.Within value → Stmt.Uses e (.assign line name value)
  | test {line test body} : e.Within test → Stmt.Uses e (.cond line test body)
  | body {line test body s} : s ∈ body → Stmt.Uses e s → Stmt.Uses e (.cond line test body)
  | print {line value} : e.Within value → Stmt.Uses e (.print line value)

/-- The expression occurs in the method. -/
def Method.Uses (m : Method) (e : Expr) : Prop := (∃ s ∈ m.body, s.Uses e) ∨ e.Within m.value

/-- What occurs in a part of an expression occurs in the expression. -/
theorem Expr.Within.trans {e e' e'' : Expr} (h : e.Within e') (h' : e'.Within e'') :
    e.Within e'' := by
  induction h' with
  | self => exact h
  | left _ ih => exact .left ih
  | right _ ih => exact .right ih
  | operand _ ih => exact .operand ih
  | receiver _ ih => exact .receiver ih
  | methodArg ha _ ih => exact .methodArg ha ih
  | selfArg ha _ ih => exact .selfArg ha ih

theorem Stmt.Uses.within {e e' : Expr} {s : Stmt} (h : e.Within e') (hs : s.Uses e') :
    s.Uses e := by
  induction hs with
  | assign h' => exact .assign (h.trans h')
  | test h' => exact .test (h.trans h')
  | body hs _ ih => exact .body hs ih
  | print h' => exact .print (h.trans h')

theorem Method.Uses.within {e e' : Expr} {m : Method} (h : e.Within e') (hm : m.Uses e') :
    m.Uses e := by
  rcases hm with ⟨s, hs, hu⟩ | hv
  · exact Or.inl ⟨s, hs, hu.within h⟩
  · exact Or.inr (h.trans hv)

/-- Method `m` of class `c` is a part of the program, the classes `older` stand
    before its class and the methods `before` before it in its class. -/
def Program.At (p : Program) (older : List ClassDecl) (c : ClassDecl) (before : List Method)
    (m : Method) : Prop :=
  (∃ newer, p.classes = older ++ c :: newer) ∧ ∃ after, c.methods = before ++ m :: after

/-- What method `m` of class `c` sees after the classes `older` and the methods
    `before`. -/
def ClassDecl.viewAt (older : List ClassDecl) (c : ClassDecl) (before : List Method)
    (m : Method) : View :=
  m.view (c.upTo before :: knownAfter [] older) c.name

/-! ## One type -/

variable {mark mark' : Mark} {V : View}

namespace Expr

/-- The type of a binary expression is that of its operator. -/
theorem Derives.binary_ty {n : Note} {op : BinaryOp} {left right : Expr} {ty : Ty}
    (h : (binary n op left right).Derives mark V ty) : ty = op.result := by
  cases h with
  | arith hop | compare hop | equate hop =>
    simp only [List.mem_cons, List.not_mem_nil, or_false] at hop
    rcases hop with rfl | rfl | rfl | rfl <;> rfl
  | and => rfl

/-- The type of a unary expression is that of its operand. -/
theorem Derives.unary_ty {n : Note} {op : UnaryOp} {operand : Expr} {ty : Ty}
    (h : (unary n op operand).Derives mark V ty) : ty = op.operandType := by
  cases h <;> rfl

/-- The rules give an expression one type, whatever is demanded of notes. -/
theorem Derives.unique : ∀ {e : Expr} {ty ty' : Ty}, e.Derives mark V ty → e.Derives mark' V ty' →
    ty = ty'
  | .binary .., _, _, h, h' => h.binary_ty.trans h'.binary_ty.symm
  | .unary .., _, _, h, h' => h.unary_ty.trans h'.unary_ty.symm
  | .methodCall .., _, _, .methodCall hr hm _ _, .methodCall hr' hm' _ _ => by
    -- the type of the receiver settles which method is called
    cases Derives.unique hr hr'
    rw [hm] at hm'
    cases hm'
    rfl
  | .selfCall .., _, _, .selfCall hm _ _, .selfCall hm' _ _ => by
    rw [hm] at hm'
    cases hm'
    rfl
  | .var .., _, _, .var hv _ _, .var hv' _ _ => Option.some.inj (hv.symm.trans hv')
  | .num .., _, _, .num _, .num _ => rfl
  | .bool .., _, _, .bool _, .bool _ => rfl
  | .nothing .., _, _, .nothing _, .nothing _ => rfl
  | .new .., _, _, .new _ _, .new _ _ => rfl

mutual

/-- What holds of notes is of no concern to the type. -/
theorem Derives.hasType : ∀ {e : Expr} {ty : Ty}, e.Derives mark V ty → e.HasType V ty
  | _, _, .arith hop hl hr _ => .arith hop hl.hasType hr.hasType trivial
  | _, _, .and hl hr _ => .and hl.hasType hr.hasType trivial
  | _, _, .compare hop hl hr _ => .compare hop hl.hasType hr.hasType trivial
  | _, _, .equate hop hty hl hr _ => .equate hop hty hl.hasType hr.hasType trivial
  | _, _, .neg h _ => .neg h.hasType trivial
  | _, _, .not h _ => .not h.hasType trivial
  | _, _, .methodCall hr hm ha _ => .methodCall hr.hasType hm ha.hasType trivial
  | _, _, .selfCall hm ha _ => .selfCall hm ha.hasType trivial
  | _, _, .var hv hs _ => .var hv hs trivial
  | _, _, .num _ => .num trivial
  | _, _, .bool _ => .bool trivial
  | _, _, .nothing _ => .nothing trivial
  | _, _, .new hc _ => .new hc trivial

/-- What holds of notes is of no concern to how arguments fit. -/
theorem Fit.hasType : ∀ {args : List Expr} {params : List Ty}, Fit mark V args params →
    Fit (fun _ _ _ => True) V args params
  | _, _, .nil => .nil
  | _, _, .cons he ha hr => .cons he.hasType ha hr.hasType

end

/-- An elaborated expression records its type. -/
theorem Elaborated.ty?_eq {e : Expr} {ty : Ty} (h : e.Elaborated V ty) : e.ty? = some ty := by
  cases h <;> exact (And.left ‹Note.Records _ _ _›)

/-! ## Parts -/

/-- Each argument that fits has a type. -/
theorem Fit.exists_type {args : List Expr} {params : List Ty} (h : Fit mark V args params)
    {a : Expr} (ha : a ∈ args) : ∃ ty, a.Derives mark V ty := by
  induction args generalizing params with
  | nil => cases ha
  | cons e rest ih =>
    obtain _ | ⟨he, _, hr⟩ := h
    rcases List.mem_cons.mp ha with rfl | ha
    · exact ⟨_, he⟩
    · exact ih hr ha

/-- Every part of a typed expression has a type. -/
theorem Derives.of_within {e whole : Expr} (hw : e.Within whole) {ty : Ty}
    (h : whole.Derives mark V ty) : ∃ ty, e.Derives mark V ty := by
  induction hw generalizing ty with
  | self => exact ⟨ty, h⟩
  | left _ ih =>
    cases h with
    | arith _ hl | and hl | compare _ hl | equate _ _ hl => exact ih hl
  | right _ ih =>
    cases h with
    | arith _ _ hr | and _ hr | compare _ _ hr | equate _ _ _ hr => exact ih hr
  | operand _ ih =>
    cases h with
    | neg h | not h => exact ih h
  | receiver _ ih =>
    cases h with
    | methodCall hr => exact ih hr
  | methodArg ha _ ih =>
    cases h with
    | methodCall _ _ hargs =>
      obtain ⟨_, hty⟩ := hargs.exists_type ha
      exact ih hty
  | selfArg ha _ ih =>
    cases h with
    | selfCall _ hargs =>
      obtain ⟨_, hty⟩ := hargs.exists_type ha
      exact ih hty

end Expr

/-- Every expression of a statement that follows the rules has a type. -/
theorem Stmt.Derives.of_uses {e : Expr} {s : Stmt} (hu : s.Uses e) (h : s.Derives mark V) :
    ∃ ty, e.Derives mark V ty := by
  induction hu with
  | assign hw =>
    cases h with
    | assign hv => exact hv.of_within hw
  | test hw =>
    cases h with
    | cond ht => exact ht.of_within hw
  | body hs _ ih =>
    cases h with
    | cond _ hbody => exact ih (hbody _ hs)
  | print hw =>
    cases h with
    | print hv => exact hv.of_within hw

/-! ## Methods of a program -/

/-- A class of a list follows the rules after the classes before it. -/
theorem ClassDecl.AllDerive.split {known : Known} {older newer : List ClassDecl} {c : ClassDecl}
    (h : AllDerive mark known (older ++ c :: newer)) : c.Derives mark (knownAfter known older) := by
  induction older generalizing known with
  | nil => exact h.1
  | cons d rest ih =>
    rw [knownAfter_cons]
    exact ih h.2

/-- A method of a class follows the rules after the methods before it. -/
theorem ClassDecl.MethodsDerive.split {known : Known} {c : ClassDecl}
    {first before after : List Method} {m : Method}
    (h : c.MethodsDerive mark known first (before ++ m :: after)) :
    m.Derives mark (c.upTo (first ++ before) :: known) c.name := by
  induction before generalizing first with
  | nil =>
    rw [List.append_nil]
    exact h.1
  | cons m' rest ih =>
    have hrest := ih h.2
    rwa [List.append_assoc, List.singleton_append] at hrest

namespace Program

variable {p : Program} {older : List ClassDecl} {c : ClassDecl} {before : List Method} {m : Method}

/-- A class of a program follows the rules. -/
theorem Derives.class_at (h : p.Derives mark) (hat : p.At older c before m) :
    c.Derives mark (ClassDecl.knownAfter [] older) := by
  obtain ⟨⟨newer, hp⟩, _⟩ := hat
  have hall := h.classes
  rw [hp] at hall
  exact hall.split

/-- A method of a program follows the rules. -/
theorem Derives.method_at (h : p.Derives mark) (hat : p.At older c before m) :
    m.Derives mark (c.upTo before :: ClassDecl.knownAfter [] older) c.name := by
  have hc := (h.class_at hat).methods
  obtain ⟨_, after, hm⟩ := hat
  rw [hm] at hc
  exact hc.split

/-- Every expression of a program that follows the rules has a type. -/
theorem Derives.exists_type (h : p.Derives mark) (hat : p.At older c before m) {e : Expr}
    (hu : m.Uses e) : ∃ ty, e.Derives mark (c.viewAt older before m) ty := by
  have hm := h.method_at hat
  rcases hu with ⟨s, hs, hse⟩ | hw
  · exact (hm.body s hs).of_uses hse
  · obtain ⟨_, hty, _⟩ := hm.value
    exact hty.of_within hw

end Program

end ClassLang
