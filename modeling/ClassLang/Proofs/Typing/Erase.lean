import ClassLang.Proofs.Typing.Rules

/-! # Trees without attributes

    Reading a source text gives a tree whose nodes record nothing but their
    lines; types and callees are added by checking.

    * **`erase`** forgets all types and callees of a tree.  A tree is bare if
      it is its own erasure.
    * The rules of typing say the same about a tree and about its erasure,
      once nothing is demanded of the notes. -/

namespace ClassLang

/-! ## Erasure -/

/-- The note without its attributes. -/
def Note.erase (n : Note) : Note := { line := n.line }

namespace Expr

mutual

/-- The expression without attributes. -/
def erase : Expr → Expr
  | binary n op left right => binary n.erase op left.erase right.erase
  | unary n op operand => unary n.erase op operand.erase
  | methodCall n receiver method args => methodCall n.erase receiver.erase method (eraseAll args)
  | selfCall n method args => selfCall n.erase method (eraseAll args)
  | var n name => var n.erase name
  | num n value => num n.erase value
  | bool n value => bool n.erase value
  | nothing n => nothing n.erase
  | new n cls => new n.erase cls

/-- The expressions without attributes. -/
def eraseAll : List Expr → List Expr
  | [] => []
  | e :: rest => e.erase :: eraseAll rest

end

end Expr

namespace Stmt

mutual

/-- The statement without attributes. -/
def erase : Stmt → Stmt
  | assign line name value => assign line name value.erase
  | cond line test body => cond line test.erase (eraseAll body)
  | print line value => print line value.erase

/-- The statements without attributes. -/
def eraseAll : List Stmt → List Stmt
  | [] => []
  | s :: rest => s.erase :: eraseAll rest

end

end Stmt

/-- The method without attributes. -/
def Method.erase (m : Method) : Method :=
  { m with body := Stmt.eraseAll m.body, value := m.value.erase }

/-- The class without attributes. -/
def ClassDecl.erase (c : ClassDecl) : ClassDecl := { c with methods := c.methods.map Method.erase }

/-- The program without attributes. -/
def Program.erase (p : Program) : Program := { p with classes := p.classes.map ClassDecl.erase }

/-! ## What erasure keeps -/

@[simp] theorem Note.erase_line (n : Note) : n.erase.line = n.line := rfl

@[simp] theorem Note.erase_ty (n : Note) : n.erase.ty = none := rfl

@[simp] theorem Note.erase_callee (n : Note) : n.erase.callee = none := rfl

theorem Expr.eraseAll_eq_map (es : List Expr) : Expr.eraseAll es = es.map Expr.erase := by
  induction es with
  | nil => rfl
  | cons e rest ih => simp [Expr.eraseAll, ih]

theorem Stmt.eraseAll_eq_map (body : List Stmt) : Stmt.eraseAll body = body.map Stmt.erase := by
  induction body with
  | nil => rfl
  | cons s rest ih => simp [Stmt.eraseAll, ih]

mutual

/-- Nothing is left to be erased from an erased expression. -/
theorem Expr.erase_erase : ∀ e : Expr, e.erase.erase = e.erase
  | .binary n op left right => by
    rw [Expr.erase, Expr.erase, Expr.erase_erase left, Expr.erase_erase right]
    rfl
  | .unary n op operand => by
    rw [Expr.erase, Expr.erase, Expr.erase_erase operand]
    rfl
  | .methodCall n receiver method args => by
    rw [Expr.erase, Expr.erase, Expr.erase_erase receiver, Expr.eraseAll_eraseAll args]
    rfl
  | .selfCall n method args => by
    rw [Expr.erase, Expr.erase, Expr.eraseAll_eraseAll args]
    rfl
  | .var .. | .num .. | .bool .. | .nothing .. | .new .. => rfl

theorem Expr.eraseAll_eraseAll : ∀ es : List Expr,
    Expr.eraseAll (Expr.eraseAll es) = Expr.eraseAll es
  | [] => rfl
  | e :: rest => by
    rw [Expr.eraseAll, Expr.eraseAll, Expr.erase_erase e, Expr.eraseAll_eraseAll rest]

end

mutual

/-- Nothing is left to be erased from an erased statement. -/
theorem Stmt.erase_erase : ∀ s : Stmt, s.erase.erase = s.erase
  | .assign line name value => by rw [Stmt.erase, Stmt.erase, value.erase_erase]
  | .cond line test body => by
    rw [Stmt.erase, Stmt.erase, test.erase_erase, Stmt.eraseAll_eraseAll body]
  | .print line value => by rw [Stmt.erase, Stmt.erase, value.erase_erase]

theorem Stmt.eraseAll_eraseAll : ∀ body : List Stmt,
    Stmt.eraseAll (Stmt.eraseAll body) = Stmt.eraseAll body
  | [] => rfl
  | s :: rest => by
    rw [Stmt.eraseAll, Stmt.eraseAll, Stmt.erase_erase s, Stmt.eraseAll_eraseAll rest]

end

theorem Method.erase_erase (m : Method) : m.erase.erase = m.erase := by
  simp [Method.erase, Stmt.eraseAll_eraseAll, Expr.erase_erase]

theorem ClassDecl.erase_erase (c : ClassDecl) : c.erase.erase = c.erase := by
  simp [ClassDecl.erase, Function.comp_def, Method.erase_erase]

@[simp] theorem Method.erase_signature (m : Method) : m.erase.signature = m.signature := rfl

@[simp] theorem Method.erase_variables (m : Method) : m.erase.variables = m.variables := rfl

/-- Methods without attributes have the same names and signatures. -/
theorem Method.map_signature_erase (methods : List Method) :
    (methods.map Method.erase).map (fun m => (m.name, m.signature)) =
      methods.map fun m => (m.name, m.signature) := by
  simp [Function.comp_def, Method.erase, Method.signature]

/-- A class without attributes has the same interface. -/
@[simp] theorem ClassDecl.erase_interface (c : ClassDecl) : c.erase.interface = c.interface := by
  simp only [ClassDecl.interface, ClassDecl.erase, Method.map_signature_erase]

/-- Attributes do not change what the methods `before` one look like to it. -/
theorem ClassDecl.erase_upTo (c : ClassDecl) (before : List Method) :
    c.erase.upTo (before.map Method.erase) = c.upTo before := by
  simp only [ClassDecl.upTo, ClassDecl.interface, ClassDecl.erase, Method.map_signature_erase]

/-! ## The rules on erased trees -/

variable {mark : Mark} {V : View}

namespace Expr

mutual

/-- A typed expression has the same type without its attributes. -/
theorem Derives.erase : ∀ {e : Expr} {ty : Ty}, e.Derives mark V ty → e.erase.HasType V ty
  | _, _, .arith hop hl hr _ => .arith hop hl.erase hr.erase trivial
  | _, _, .and hl hr _ => .and hl.erase hr.erase trivial
  | _, _, .compare hop hl hr _ => .compare hop hl.erase hr.erase trivial
  | _, _, .equate hop hty hl hr _ => .equate hop hty hl.erase hr.erase trivial
  | _, _, .neg h _ => .neg h.erase trivial
  | _, _, .not h _ => .not h.erase trivial
  | _, _, .methodCall hr hm ha _ => .methodCall hr.erase hm ha.eraseAll trivial
  | _, _, .selfCall hm ha _ => .selfCall hm ha.eraseAll trivial
  | _, _, .var hv hs _ => .var hv hs trivial
  | _, _, .num _ => .num trivial
  | _, _, .bool _ => .bool trivial
  | _, _, .nothing _ => .nothing trivial
  | _, _, .new hc _ => .new hc trivial

/-- Arguments fit the same parameters without their attributes. -/
theorem Fit.eraseAll : ∀ {args : List Expr} {params : List Ty}, Fit mark V args params →
    Fit (fun _ _ _ => True) V (eraseAll args) params
  | _, _, .nil => .nil
  | _, _, .cons he ha hr => .cons he.erase ha hr.eraseAll

end

end Expr

/-- A statement that follows the rules does so without its attributes. -/
theorem Stmt.Derives.erase {s : Stmt} (h : s.Derives mark V) :
    s.erase.Derives (fun _ _ _ => True) V := by
  induction h with
  | assign hv hx hs ha => exact .assign hv.erase hx hs ha
  | cond ht _ ih =>
    refine .cond ht.erase ?_
    intro s hs
    rw [Stmt.eraseAll_eq_map] at hs
    obtain ⟨s₀, hs₀, rfl⟩ := List.mem_map.mp hs
    exact ih s₀ hs₀
  | print hv hty => exact .print hv.erase hty

/-- A method that follows the rules does so without its attributes. -/
theorem Method.Derives.erase {known : Known} {cls : String} {m : Method}
    (h : m.Derives mark known cls) : m.erase.Derives (fun _ _ _ => True) known cls where
  result := h.result
  params := h.params
  locals := h.locals
  distinct := h.distinct
  body := by
    intro s hs
    have hs : s ∈ m.body.map Stmt.erase := by rw [← Stmt.eraseAll_eq_map]; exact hs
    obtain ⟨s₀, hs₀, rfl⟩ := List.mem_map.mp hs
    exact (h.body s₀ hs₀).erase
  value := by
    obtain ⟨ty, hty, ha⟩ := h.value
    exact ⟨ty, hty.erase, ha⟩

/-- The methods of a class follow the rules without their attributes. -/
theorem ClassDecl.MethodsDerive.erase {older : Known} {c : ClassDecl} {before methods : List Method}
    (h : c.MethodsDerive mark older before methods) :
    c.erase.MethodsDerive (fun _ _ _ => True) older (before.map Method.erase)
      (methods.map Method.erase) := by
  induction methods generalizing before with
  | nil => trivial
  | cons m rest ih =>
    obtain ⟨hm, hrest⟩ := h
    refine ⟨?_, ?_⟩
    · rw [ClassDecl.erase_upTo]
      exact hm.erase
    · simpa using ih hrest

/-- A class that follows the rules does so without its attributes. -/
theorem ClassDecl.Derives.erase {older : Known} {c : ClassDecl} (h : c.Derives mark older) :
    c.erase.Derives (fun _ _ _ => True) older where
  name := h.name
  superclass := h.superclass
  fields := h.fields
  distinct := by rw [ClassDecl.erase_interface]; exact h.distinct
  methods := h.methods.erase

/-- Classes that follow the rules do so without their attributes. -/
theorem ClassDecl.AllDerive.erase {older : Known} {classes : List ClassDecl}
    (h : ClassDecl.AllDerive mark older classes) :
    ClassDecl.AllDerive (fun _ _ _ => True) older (classes.map ClassDecl.erase) := by
  induction classes generalizing older with
  | nil => trivial
  | cons c rest ih =>
    obtain ⟨hc, hrest⟩ := h
    refine ⟨hc.erase, ?_⟩
    rw [ClassDecl.erase_interface]
    exact ih hrest

/-- Attributes do not matter to the entry point. -/
theorem Program.hasEntry_erase {p : Program} : p.erase.HasEntry ↔ p.HasEntry := by
  unfold HasEntry
  rw [erase, List.getLast?_map]
  cases p.classes.getLast? with
  | none => simp
  | some last =>
    simp only [Option.map_some, Option.some.injEq, exists_eq_left', ClassDecl.erase, List.mem_map]
    refine and_congr_right fun _ => ⟨?_, ?_⟩
    · rintro ⟨_, ⟨m, hm, rfl⟩, hstart⟩
      exact ⟨m, hm, hstart⟩
    · rintro ⟨m, hm, hstart⟩
      exact ⟨m.erase, ⟨m, hm, rfl⟩, hstart⟩

/-- A program that follows the rules does so without its attributes. -/
theorem Program.Derives.erase {p : Program} (h : p.Derives mark) : p.erase.WellTyped where
  classes := h.classes.erase
  entry := Program.hasEntry_erase.mpr h.entry

end ClassLang
