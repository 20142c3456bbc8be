import ClassLang.Proofs.Grammar.Bare
import ClassLang.Proofs.Lowering.Serving
import ClassLang.Proofs.Typing.Recorded

/-! # Holes

    A program with a hole is a program in which the place of one expression is
    left open.  Two programs that differ in one expression only are one program
    with a hole, filled in two ways.

    * **`Expr.Hole`**, **`Stmt.Hole`**, **`Method.Hole`** and
      **`Program.Hole`**, each with its `fill`.
    * **`erase`** forgets the attributes around the hole, and
      **`Program.Hole.exists_of_erase`**: where the erasure of a program is a
      filled hole, the program is one too.
    * **`Aside`**: the hole lies in no receiver.  **`aside_of_ofTokens`**: the
      places of all objects that are created in a program that is read do so.
    * **`Program.Hole.derives_fill`** and **`recorded_fill`**: what is filled in
      matters to its own method only, and not to the tables at all. -/

namespace ClassLang

/-! ## Expressions and statements -/

/-- An expression with a hole. -/
inductive Expr.Hole where
  | here
  | left (n : Note) (op : BinaryOp) (hole : Expr.Hole) (right : Expr)
  | right (n : Note) (op : BinaryOp) (left : Expr) (hole : Expr.Hole)
  | operand (n : Note) (op : UnaryOp) (hole : Expr.Hole)
  | receiver (n : Note) (hole : Expr.Hole) (method : String) (args : List Expr)
  | methodArg (n : Note) (receiver : Expr) (method : String) (before : List Expr)
      (hole : Expr.Hole) (after : List Expr)
  | selfArg (n : Note) (method : String) (before : List Expr) (hole : Expr.Hole)
      (after : List Expr)

/-- A statement with a hole. -/
inductive Stmt.Hole where
  | assign (line : Nat) (name : String) (hole : Expr.Hole)
  | test (line : Nat) (hole : Expr.Hole) (body : List Stmt)
  | body (line : Nat) (test : Expr) (before : List Stmt) (hole : Stmt.Hole) (after : List Stmt)
  | print (line : Nat) (hole : Expr.Hole)

namespace Expr.Hole

/-- The expression with this one in the place of the hole. -/
def fill (x : Expr) : Expr.Hole → Expr
  | here => x
  | left n op hole r => .binary n op (hole.fill x) r
  | right n op l hole => .binary n op l (hole.fill x)
  | operand n op hole => .unary n op (hole.fill x)
  | receiver n hole method args => .methodCall n (hole.fill x) method args
  | methodArg n r method before hole after =>
    .methodCall n r method (before ++ hole.fill x :: after)
  | selfArg n method before hole after => .selfCall n method (before ++ hole.fill x :: after)

/-- The hole without the attributes around it. -/
def erase : Expr.Hole → Expr.Hole
  | here => here
  | left n op hole r => left n.erase op hole.erase r.erase
  | right n op l hole => right n.erase op l.erase hole.erase
  | operand n op hole => operand n.erase op hole.erase
  | receiver n hole method args => receiver n.erase hole.erase method (eraseAll args)
  | methodArg n r method before hole after =>
    methodArg n.erase r.erase method (eraseAll before) hole.erase (eraseAll after)
  | selfArg n method before hole after =>
    selfArg n.erase method (eraseAll before) hole.erase (eraseAll after)

/-- The hole lies in no receiver. -/
def Aside : Expr.Hole → Prop
  | here => True
  | left _ _ hole _ | right _ _ _ hole | operand _ _ hole => hole.Aside
  | receiver .. => False
  | methodArg _ _ _ _ hole _ | selfArg _ _ _ hole _ => hole.Aside

end Expr.Hole

namespace Stmt.Hole

/-- The statement with this expression in the place of the hole. -/
def fill (x : Expr) : Stmt.Hole → Stmt
  | assign line name hole => .assign line name (hole.fill x)
  | test line hole b => .cond line (hole.fill x) b
  | body line t before hole after => .cond line t (before ++ hole.fill x :: after)
  | print line hole => .print line (hole.fill x)

/-- The hole without the attributes around it. -/
def erase : Stmt.Hole → Stmt.Hole
  | assign line name hole => assign line name hole.erase
  | test line hole b => test line hole.erase (eraseAll b)
  | body line t before hole after =>
    body line t.erase (eraseAll before) hole.erase (eraseAll after)
  | print line hole => print line hole.erase

/-- The hole lies in no receiver. -/
def Aside : Stmt.Hole → Prop
  | assign _ _ hole | test _ hole _ | print _ hole => hole.Aside
  | body _ _ _ hole _ => hole.Aside

end Stmt.Hole

/-! ## Methods and programs -/

/-- The body and the returned value of a method, with a hole. -/
inductive Method.Hole where
  | body (before : List Stmt) (hole : Stmt.Hole) (after : List Stmt) (value : Expr)
  | value (body : List Stmt) (hole : Expr.Hole)

namespace Method.Hole

/-- The method with this expression in the place of the hole.  Only the head of
    `m` counts. -/
def fill (m : Method) (x : Expr) : Method.Hole → Method
  | body before hole after v => { m with body := before ++ hole.fill x :: after, value := v }
  | value b hole => { m with body := b, value := hole.fill x }

/-- The hole without the attributes around it. -/
def erase : Method.Hole → Method.Hole
  | body before hole after v =>
    body (Stmt.eraseAll before) hole.erase (Stmt.eraseAll after) v.erase
  | value b hole => value (Stmt.eraseAll b) hole.erase

/-- The hole lies in no receiver. -/
def Aside : Method.Hole → Prop
  | body _ hole _ _ => hole.Aside
  | value _ hole => hole.Aside

end Method.Hole

/-- A program with a hole.  Only the heads of `cls` and `method` count. -/
structure Program.Hole where
  /-- The classes before that with the hole. -/
  older : List ClassDecl
  cls : ClassDecl
  /-- The methods before that with the hole. -/
  before : List Method
  method : Method
  hole : Method.Hole
  after : List Method
  newer : List ClassDecl
  line : Nat

namespace Program.Hole

/-- The class with this expression in the place of the hole. -/
def fillClass (P : Hole) (x : Expr) : ClassDecl :=
  { P.cls with methods := P.before ++ P.hole.fill P.method x :: P.after }

/-- The program with this expression in the place of the hole. -/
def fill (P : Hole) (x : Expr) : Program where
  classes := P.older ++ P.fillClass x :: P.newer
  line := P.line

/-- The hole without the attributes around it. -/
def erase (P : Hole) : Hole :=
  { P with
    older := P.older.map ClassDecl.erase
    before := P.before.map Method.erase
    hole := P.hole.erase
    after := P.after.map Method.erase
    newer := P.newer.map ClassDecl.erase }

/-- The classes up to that with the hole declare this name. -/
def Declares (P : Hole) (cls : String) : Prop := P.cls.name = cls ∨ ∃ d ∈ P.older, d.name = cls

/-- What is seen in the place of the hole. -/
def view (P : Hole) : View := P.cls.viewAt P.older P.before P.method

end Program.Hole

/-! ## Erasure -/

theorem Expr.eraseAll_append (as bs : List Expr) :
    eraseAll (as ++ bs) = eraseAll as ++ eraseAll bs := by
  simp only [eraseAll_eq_map, List.map_append]

theorem Stmt.eraseAll_append (as bs : List Stmt) :
    eraseAll (as ++ bs) = eraseAll as ++ eraseAll bs := by
  simp only [eraseAll_eq_map, List.map_append]

namespace Expr.Hole

theorem fill_erase (x : Expr) (h : Expr.Hole) : (h.fill x).erase = h.erase.fill x.erase := by
  induction h with
  | here => rfl
  | left _ _ _ _ ih | right _ _ _ _ ih | operand _ _ _ ih | receiver _ _ _ _ ih =>
    simp only [fill, Expr.erase, erase, ih]
  | methodArg _ _ _ _ _ _ ih | selfArg _ _ _ _ _ ih =>
    simp only [fill, Expr.erase, erase, eraseAll_append, eraseAll, ih]

@[simp] theorem aside_erase (h : Expr.Hole) : h.erase.Aside ↔ h.Aside := by
  induction h with
  | here => rfl
  | receiver => rfl
  | left _ _ _ _ ih | right _ _ _ _ ih | operand _ _ _ ih => exact ih
  | methodArg _ _ _ _ _ _ ih | selfArg _ _ _ _ _ ih => exact ih

end Expr.Hole

/-- A list whose image falls into parts does so itself. -/
theorem exists_of_map_eq_append_cons {α β : Type} {f : α → β} {as : List α} {before after : List β}
    {b : β} (h : as.map f = before ++ b :: after) :
    ∃ before' a after', as = before' ++ a :: after' ∧ before'.map f = before ∧ f a = b ∧
      after'.map f = after := by
  obtain ⟨before', rest, rfl, hb, hr⟩ := List.map_eq_append_iff.mp h
  obtain ⟨a, after', rfl, ha, hs⟩ := List.map_eq_cons_iff.mp hr
  exact ⟨before', a, after', rfl, hb, ha, hs⟩

/-- A list of expressions whose erasure falls into parts does so itself. -/
theorem Expr.exists_of_eraseAll_append {es before after : List Expr} {a : Expr}
    (h : eraseAll es = before ++ a :: after) :
    ∃ before' a' after', es = before' ++ a' :: after' ∧ eraseAll before' = before ∧
      a'.erase = a ∧ eraseAll after' = after := by
  simp only [eraseAll_eq_map] at h ⊢
  exact exists_of_map_eq_append_cons h

/-- A body whose erasure falls into parts does so itself. -/
theorem Stmt.exists_of_eraseAll_append {body before after : List Stmt} {s : Stmt}
    (h : eraseAll body = before ++ s :: after) :
    ∃ before' s' after', body = before' ++ s' :: after' ∧ eraseAll before' = before ∧
      s'.erase = s ∧ eraseAll after' = after := by
  simp only [eraseAll_eq_map] at h ⊢
  exact exists_of_map_eq_append_cons h

/-- Where the erasure of an expression is a filled hole, the expression is one
    too. -/
theorem Expr.Hole.exists_of_erase {x e : Expr} {h : Expr.Hole} (heq : e.erase = h.fill x) :
    ∃ h' : Expr.Hole, ∃ x', e = h'.fill x' ∧ h'.erase = h ∧ x'.erase = x := by
  induction h generalizing e with
  | here => exact ⟨here, e, rfl, rfl, heq⟩
  | left n op hole right ih =>
    cases e with
    | binary n' op' l r =>
      simp only [Expr.erase, fill, binary.injEq] at heq
      obtain ⟨rfl, rfl, hl, rfl⟩ := heq
      obtain ⟨hole', x', rfl, rfl, rfl⟩ := ih hl
      exact ⟨left n' op' hole' r, x', rfl, rfl, rfl⟩
    | _ => cases heq
  | right n op l hole ih =>
    cases e with
    | binary n' op' l r =>
      simp only [Expr.erase, fill, binary.injEq] at heq
      obtain ⟨rfl, rfl, rfl, hr⟩ := heq
      obtain ⟨hole', x', rfl, rfl, rfl⟩ := ih hr
      exact ⟨right n' op' l hole', x', rfl, rfl, rfl⟩
    | _ => cases heq
  | operand n op hole ih =>
    cases e with
    | unary n' op' e =>
      simp only [Expr.erase, fill, unary.injEq] at heq
      obtain ⟨rfl, rfl, he⟩ := heq
      obtain ⟨hole', x', rfl, rfl, rfl⟩ := ih he
      exact ⟨operand n' op' hole', x', rfl, rfl, rfl⟩
    | _ => cases heq
  | receiver n hole method args ih =>
    cases e with
    | methodCall n' r method' args' =>
      simp only [Expr.erase, fill, methodCall.injEq] at heq
      obtain ⟨rfl, hr, rfl, rfl⟩ := heq
      obtain ⟨hole', x', rfl, rfl, rfl⟩ := ih hr
      exact ⟨receiver n' hole' method' args', x', rfl, rfl, rfl⟩
    | _ => cases heq
  | methodArg n r method before hole after ih =>
    cases e with
    | methodCall n' r' method' args' =>
      simp only [Expr.erase, fill, methodCall.injEq] at heq
      obtain ⟨rfl, rfl, rfl, hargs⟩ := heq
      obtain ⟨before', a', after', rfl, rfl, ha, rfl⟩ := exists_of_eraseAll_append hargs
      obtain ⟨hole', x', rfl, rfl, rfl⟩ := ih ha
      exact ⟨methodArg n' r' method' before' hole' after', x', rfl, rfl, rfl⟩
    | _ => cases heq
  | selfArg n method before hole after ih =>
    cases e with
    | selfCall n' method' args' =>
      simp only [Expr.erase, fill, selfCall.injEq] at heq
      obtain ⟨rfl, rfl, hargs⟩ := heq
      obtain ⟨before', a', after', rfl, rfl, ha, rfl⟩ := exists_of_eraseAll_append hargs
      obtain ⟨hole', x', rfl, rfl, rfl⟩ := ih ha
      exact ⟨selfArg n' method' before' hole' after', x', rfl, rfl, rfl⟩
    | _ => cases heq

namespace Stmt.Hole

theorem fill_erase (x : Expr) (h : Stmt.Hole) : (h.fill x).erase = h.erase.fill x.erase := by
  induction h with
  | assign | test | print => simp only [fill, Stmt.erase, erase, Expr.Hole.fill_erase]
  | body _ _ _ _ _ ih => simp only [fill, Stmt.erase, erase, eraseAll_append, eraseAll, ih]

@[simp] theorem aside_erase (h : Stmt.Hole) : h.erase.Aside ↔ h.Aside := by
  induction h with
  | assign _ _ hole | test _ hole _ | print _ hole => exact hole.aside_erase
  | body _ _ _ _ _ ih => exact ih

/-- Where the erasure of a statement is a filled hole, the statement is one
    too. -/
theorem exists_of_erase {x : Expr} {s : Stmt} {h : Stmt.Hole} (heq : s.erase = h.fill x) :
    ∃ h' : Stmt.Hole, ∃ x', s = h'.fill x' ∧ h'.erase = h ∧ x'.erase = x := by
  induction h generalizing s with
  | assign line name hole =>
    cases s with
    | assign line' name' value =>
      simp only [Stmt.erase, fill, Stmt.assign.injEq] at heq
      obtain ⟨rfl, rfl, hv⟩ := heq
      obtain ⟨hole', x', rfl, rfl, rfl⟩ := Expr.Hole.exists_of_erase hv
      exact ⟨assign line' name' hole', x', rfl, rfl, rfl⟩
    | _ => cases heq
  | test line hole body =>
    cases s with
    | cond line' t b =>
      simp only [Stmt.erase, fill, Stmt.cond.injEq] at heq
      obtain ⟨rfl, ht, rfl⟩ := heq
      obtain ⟨hole', x', rfl, rfl, rfl⟩ := Expr.Hole.exists_of_erase ht
      exact ⟨test line' hole' b, x', rfl, rfl, rfl⟩
    | _ => cases heq
  | body line t before hole after ih =>
    cases s with
    | cond line' t' b =>
      simp only [Stmt.erase, fill, Stmt.cond.injEq] at heq
      obtain ⟨rfl, rfl, hb⟩ := heq
      obtain ⟨before', s', after', rfl, rfl, hs, rfl⟩ := exists_of_eraseAll_append hb
      obtain ⟨hole', x', rfl, rfl, rfl⟩ := ih hs
      exact ⟨body line' t' before' hole' after', x', rfl, rfl, rfl⟩
    | _ => cases heq
  | print line hole =>
    cases s with
    | print line' value =>
      simp only [Stmt.erase, fill, Stmt.print.injEq] at heq
      obtain ⟨rfl, hv⟩ := heq
      obtain ⟨hole', x', rfl, rfl, rfl⟩ := Expr.Hole.exists_of_erase hv
      exact ⟨print line' hole', x', rfl, rfl, rfl⟩
    | _ => cases heq

end Stmt.Hole

namespace Method.Hole

variable {m : Method}

theorem fill_erase (x : Expr) (h : Method.Hole) :
    (h.fill m x).erase = h.erase.fill m x.erase := by
  cases h with
  | body =>
    simp only [fill, Method.erase, erase, Stmt.eraseAll_append, Stmt.eraseAll,
      Stmt.Hole.fill_erase]
  | value => simp only [fill, Method.erase, erase, Expr.Hole.fill_erase]

@[simp] theorem aside_erase (h : Method.Hole) : h.erase.Aside ↔ h.Aside := by
  cases h with
  | body _ hole _ _ => exact hole.aside_erase
  | value _ hole => exact hole.aside_erase

/-- Where the erasure of a method is a filled hole, the method is one too. -/
theorem exists_of_erase {x : Expr} {m' : Method} {h : Method.Hole} (heq : m'.erase = h.fill m x) :
    ∃ h' : Method.Hole, ∃ x', m' = h'.fill m x' ∧ h'.erase = h ∧ x'.erase = x := by
  obtain ⟨name, result, params, locals, body, value, line⟩ := m'
  cases h with
  | body before hole after v =>
    simp only [Method.erase, fill, Method.mk.injEq] at heq
    obtain ⟨rfl, rfl, rfl, rfl, hb, rfl, rfl⟩ := heq
    obtain ⟨before', s', after', rfl, rfl, hs, rfl⟩ := Stmt.exists_of_eraseAll_append hb
    obtain ⟨hole', x', rfl, rfl, rfl⟩ := Stmt.Hole.exists_of_erase hs
    exact ⟨Hole.body before' hole' after' value, x', rfl, rfl, rfl⟩
  | value b hole =>
    simp only [Method.erase, fill, Method.mk.injEq] at heq
    obtain ⟨rfl, rfl, rfl, rfl, rfl, hv, rfl⟩ := heq
    obtain ⟨hole', x', rfl, rfl, rfl⟩ := Expr.Hole.exists_of_erase hv
    exact ⟨Hole.value body hole', x', rfl, rfl, rfl⟩

end Method.Hole

namespace Program.Hole

theorem fill_erase (P : Hole) (x : Expr) : (P.fill x).erase = P.erase.fill x.erase := by
  simp only [fill, fillClass, Program.erase, erase, ClassDecl.erase, List.map_append,
    List.map_cons, Method.Hole.fill_erase]

/-- Where the erasure of a program is a filled hole, the program is one too. -/
theorem exists_of_erase {x : Expr} {p : Program} {P : Hole} (heq : p.erase = P.fill x) :
    ∃ P' : Hole, ∃ x', p = P'.fill x' ∧ P'.erase = P ∧ x'.erase = x := by
  obtain ⟨older, cls, before, method, hole, after, newer, line⟩ := P
  obtain ⟨classes, pline⟩ := p
  simp only [Program.erase, fill, fillClass, Program.mk.injEq] at heq
  obtain ⟨hclasses, rfl⟩ := heq
  obtain ⟨older', c, newer', rfl, rfl, hc, rfl⟩ := exists_of_map_eq_append_cons hclasses
  obtain ⟨cname, superclass, fields, methods, cline⟩ := c
  simp only [ClassDecl.erase, ClassDecl.mk.injEq] at hc
  obtain ⟨rfl, rfl, rfl, hmethods, rfl⟩ := hc
  obtain ⟨before', m, after', rfl, rfl, hm, rfl⟩ := exists_of_map_eq_append_cons hmethods
  obtain ⟨hole', x', rfl, rfl, rfl⟩ := Method.Hole.exists_of_erase hm
  exact ⟨⟨older', cls, before', method, hole', after', newer', pline⟩, x', rfl, rfl, rfl⟩

end Program.Hole

/-! ## What is filled in occurs -/

theorem Expr.Hole.within_fill (x : Expr) (h : Expr.Hole) : x.Within (h.fill x) := by
  induction h with
  | here => exact .self
  | left _ _ _ _ ih => exact .left ih
  | right _ _ _ _ ih => exact .right ih
  | operand _ _ _ ih => exact .operand ih
  | receiver _ _ _ _ ih => exact .receiver ih
  | methodArg _ _ _ _ _ _ ih => exact .methodArg (by simp) ih
  | selfArg _ _ _ _ _ ih => exact .selfArg (by simp) ih

theorem Stmt.Hole.uses_fill (x : Expr) (h : Stmt.Hole) : (h.fill x).Uses x := by
  induction h with
  | assign _ _ hole => exact .assign (hole.within_fill x)
  | test _ hole _ => exact .test (hole.within_fill x)
  | body _ _ _ _ _ ih => exact .body (by simp) ih
  | print _ hole => exact .print (hole.within_fill x)

theorem Method.Hole.uses_fill (m : Method) (x : Expr) (h : Method.Hole) : (h.fill m x).Uses x := by
  cases h with
  | body _ hole _ _ => exact Or.inl ⟨hole.fill x, by simp [fill], hole.uses_fill x⟩
  | value _ hole => exact Or.inr (hole.within_fill x)

/-! ## Receivers -/

theorem Expr.Hole.fill_new_ne_var {n n' : Note} {cls x : String} (h : Expr.Hole) :
    h.fill (.new n cls) ≠ .var n' x := by
  cases h <;> exact Expr.noConfusion

/-- Where methods are called on variables only, objects are created in no
    receiver. -/
theorem Expr.Hole.aside_of_callsVariables {n : Note} {cls : String} {h : Expr.Hole}
    (hc : (h.fill (.new n cls)).CallsVariables) : h.Aside := by
  induction h with
  | here => trivial
  | left _ _ _ _ ih => exact ih fun hw => hc (.left hw)
  | right _ _ _ _ ih => exact ih fun hw => hc (.right hw)
  | operand _ _ _ ih => exact ih fun hw => hc (.operand hw)
  | receiver _ hole _ _ _ =>
    obtain ⟨_, _, hvar⟩ := hc .self
    exact hole.fill_new_ne_var hvar
  | methodArg _ _ _ _ _ _ ih => exact ih fun hw => hc (.methodArg (by simp) hw)
  | selfArg _ _ _ _ _ ih => exact ih fun hw => hc (.selfArg (by simp) hw)

theorem Stmt.Hole.aside_of_callsVariables {n : Note} {cls : String} {h : Stmt.Hole}
    (hc : (h.fill (.new n cls)).CallsVariables) : h.Aside := by
  induction h with
  | assign _ _ hole => exact hole.aside_of_callsVariables fun hw => hc (.assign hw)
  | test _ hole _ => exact hole.aside_of_callsVariables fun hw => hc (.test hw)
  | body _ _ _ _ _ ih => exact ih fun hw => hc (.body (by simp) hw)
  | print _ hole => exact hole.aside_of_callsVariables fun hw => hc (.print hw)

/-- In a program that is read objects are created in no receiver. -/
theorem Program.Hole.aside_of_ofTokens {tokens : List Token} {P : Hole} {n : Note} {cls : String}
    (h : ofTokens tokens = .ok (P.fill (.new n cls))) : P.hole.Aside := by
  obtain ⟨hbody, hvalue⟩ :=
    receivers_of_ofTokens h (P.fillClass (.new n cls)) (by simp [fill])
      (P.hole.fill P.method (.new n cls)) (by simp [fillClass])
  cases hhole : P.hole with
  | body before hole after value =>
    rw [hhole] at hbody
    exact hole.aside_of_callsVariables
      (hbody (hole.fill (.new n cls)) (by simp [Method.Hole.fill]))
  | value body hole =>
    rw [hhole] at hvalue
    exact hole.aside_of_callsVariables hvalue

/-! ## What does not depend on what is filled in -/

section heads

variable {mark : Mark} {m : Method} {x y : Expr} {P : Program.Hole}

@[simp] theorem Method.Hole.fill_name (h : Method.Hole) : (h.fill m x).name = m.name := by
  cases h <;> rfl

@[simp] theorem Method.Hole.fill_params (h : Method.Hole) : (h.fill m x).params = m.params := by
  cases h <;> rfl

@[simp] theorem Method.Hole.fill_result (h : Method.Hole) : (h.fill m x).result = m.result := by
  cases h <;> rfl

@[simp] theorem Method.Hole.fill_signature (h : Method.Hole) :
    (h.fill m x).signature = m.signature := by
  cases h <;> rfl

@[simp] theorem Method.Hole.fill_variables (h : Method.Hole) :
    (h.fill m x).variables = m.variables := by
  cases h <;> rfl

/-- A method of a class may be replaced by one with the same head. -/
theorem ClassDecl.MethodsDerive.replace {older : Known} {c : ClassDecl} {m' : Method}
    {first before after : List Method}
    (h : c.MethodsDerive mark older first (before ++ m :: after))
    (hm : m'.Derives mark (c.upTo (first ++ before) :: older) c.name)
    (hname : m'.name = m.name) (hsig : m'.signature = m.signature) :
    c.MethodsDerive mark older first (before ++ m' :: after) := by
  induction before generalizing first with
  | nil =>
    rw [List.append_nil] at hm
    refine ⟨hm, h.2.of_upTo_eq ?_⟩
    rw [upTo_append_singleton, upTo_append_singleton, hname, hsig]
  | cons d rest ih =>
    refine ⟨h.1, ih h.2 ?_⟩
    rwa [List.append_assoc, List.singleton_append]

/-- A class of a program may be replaced by one with the same interface. -/
theorem ClassDecl.AllDerive.replace {known : Known} {c c' : ClassDecl}
    {older newer : List ClassDecl} (h : AllDerive mark known (older ++ c :: newer))
    (hc : c'.Derives mark (knownAfter known older)) (hi : c'.interface = c.interface) :
    AllDerive mark known (older ++ c' :: newer) := by
  induction older generalizing known with
  | nil =>
    refine ⟨hc, ?_⟩
    rw [hi]
    exact h.2
  | cons d rest ih =>
    rw [knownAfter_cons] at hc
    exact ⟨h.1, ih h.2 hc⟩

namespace Program.Hole

theorem interface_fillClass : (P.fillClass x).interface = (P.fillClass y).interface := by
  simp [fillClass, ClassDecl.interface]

/-- The hole stands between the methods and the classes before it. -/
theorem fill_at : (P.fill x).At P.older (P.fillClass x) P.before (P.hole.fill P.method x) :=
  ⟨⟨P.newer, rfl⟩, P.after, rfl⟩

theorem viewAt_fillClass :
    (P.fillClass x).viewAt P.older P.before (P.hole.fill P.method x) = P.view := by
  simp only [ClassDecl.viewAt, Method.view, Method.Hole.fill_variables]
  rfl

theorem getLast?_fill :
    (P.fill x).classes.getLast? = some (P.newer.getLast?.getD (P.fillClass x)) := by
  simp [fill, List.getLast?_append, List.getLast?_cons]

/-- The entry point is found by its head. -/
theorem hasEntry_fill (h : (P.fill x).HasEntry) : (P.fill y).HasEntry := by
  obtain ⟨last, hlast, hname, m, hm, hstart⟩ := h
  rw [getLast?_fill, Option.some.injEq] at hlast
  rw [HasEntry, getLast?_fill]
  cases hnewer : P.newer.getLast? with
  | some d =>
    rw [hnewer] at hlast
    subst hlast
    exact ⟨d, rfl, hname, m, hm, hstart⟩
  | none =>
    rw [hnewer] at hlast
    subst hlast
    refine ⟨P.fillClass y, rfl, hname, ?_⟩
    rcases List.mem_append.mp hm with hm | hm
    · exact ⟨m, List.mem_append_left _ hm, hstart⟩
    · rcases List.mem_cons.mp hm with rfl | hm
      · exact ⟨P.hole.fill P.method y, by simp [fillClass], by simpa using hstart⟩
      · exact ⟨m, by simp [fillClass, hm], hstart⟩

/-- Where a program follows the rules, it does so with something else filled in
    if the method with the hole does. -/
theorem derives_fill (h : (P.fill x).Derives mark)
    (hm : (P.hole.fill P.method y).Derives mark P.view.known P.cls.name) :
    (P.fill y).Derives mark := by
  have hc := h.class_at fill_at
  refine ⟨h.classes.replace ⟨hc.name, hc.superclass, hc.fields, ?_, ?_⟩ interface_fillClass,
    hasEntry_fill h.entry⟩
  · rw [interface_fillClass (y := x)]
    exact hc.distinct
  · have hname : (P.hole.fill P.method y).name = (P.hole.fill P.method x).name := by simp
    have hsig : (P.hole.fill P.method y).signature = (P.hole.fill P.method x).signature := by simp
    have hmethods := hc.methods.replace hm hname hsig
    have hempty : (P.fillClass x).upTo [] = (P.fillClass y).upTo [] := rfl
    exact hmethods.of_upTo_eq hempty

end Program.Hole

theorem ClassDecl.entries_append (index number : Nat) (first second : List ClassDecl) :
    entries index number (first ++ second) = entries index number first ++
      entries (index + first.length) (number + scopeCount first) second := by
  induction first generalizing index number with
  | nil => simp [entries, scopeCount]
  | cons c rest ih =>
    simp only [List.cons_append, entries, ih, scopeCount_cons, List.length_cons, Nat.add_assoc,
      Nat.add_comm 1]

/-- The tables depend on heads only. -/
theorem Program.Hole.recorded_fill : (P.fill x).recorded = (P.fill y).recorded := by
  have hscopes : ∀ number, (P.fillClass x).scopes number = (P.fillClass y).scopes number := by
    intro number
    simp only [ClassDecl.scopes, interface_fillClass (y := y)]
    simp [fillClass, Method.scope]
  have hlength : (P.fillClass x).methods.length = (P.fillClass y).methods.length := by
    simp [fillClass]
  have hscopeList : ClassDecl.allScopes 1 (P.fill x).classes =
      ClassDecl.allScopes 1 (P.fill y).classes := by
    simp only [fill, ClassDecl.allScopes_append, ClassDecl.allScopes, hscopes, hlength]
  have hentries : ClassDecl.entries 0 1 (P.fill x).classes =
      ClassDecl.entries 0 1 (P.fill y).classes := by
    simp only [fill, ClassDecl.entries_append, ClassDecl.entries, hlength]
    rfl
  rw [recorded, recorded, hscopeList, hentries]

end heads

end ClassLang
