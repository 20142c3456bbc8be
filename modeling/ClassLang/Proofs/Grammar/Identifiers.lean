import ClassLang.Compile
import ClassLang.Proofs.Grammar.Program
import ClassLang.Proofs.Token.Splitting

/-! # The identifiers in a tree

    All names that a tree spells, of classes, members and variables alike.

    * **`Expr.identifiers`** and its like list them, for each kind of tree.
    * **`Grammar.Derivation.identifiers_value`**: the tree of a derivation
      spells only what stands in the derived tokens.
    * **`Program.identifiers_of_ofTokens`**: so a program that is read has the
      identifiers of its tokens.
    * **`Program.isWord_of_ofSource`**: and these are words of the text. -/

namespace ClassLang

/-! ## Identifiers of trees -/

/-- The identifier of a written type. -/
def TypeName.identifiers : TypeName → List String
  | .cls name => [name]
  | .int | .bool | .nothing => []

namespace Expr

mutual

/-- The identifiers of an expression. -/
def identifiers : Expr → List String
  | binary _ _ left right => left.identifiers ++ right.identifiers
  | unary _ _ operand => operand.identifiers
  | methodCall _ receiver method args => receiver.identifiers ++ method :: identifiersAll args
  | selfCall _ method args => method :: identifiersAll args
  | var _ name => [name]
  | new _ cls => [cls]
  | num .. | bool .. | nothing _ => []

/-- The identifiers of expressions. -/
def identifiersAll : List Expr → List String
  | [] => []
  | e :: rest => e.identifiers ++ identifiersAll rest

end

end Expr

namespace Stmt

mutual

/-- The identifiers of a statement. -/
def identifiers : Stmt → List String
  | assign _ name value => name :: value.identifiers
  | cond _ test body => test.identifiers ++ identifiersAll body
  | print _ value => value.identifiers

/-- The identifiers of statements. -/
def identifiersAll : List Stmt → List String
  | [] => []
  | s :: rest => s.identifiers ++ identifiersAll rest

end

end Stmt

/-- The identifiers of a declaration. -/
def Declaration.identifiers (d : Declaration) : List String := d.ty.identifiers ++ d.names

/-- The identifiers of a parameter. -/
def Param.identifiers (p : Param) : List String := p.ty.identifiers ++ [p.name]

/-- The identifiers of a method. -/
def Method.identifiers (m : Method) : List String :=
  m.name :: m.result.identifiers ++ m.params.flatMap Param.identifiers
    ++ m.locals.flatMap Declaration.identifiers ++ Stmt.identifiersAll m.body
    ++ m.value.identifiers

/-- The identifiers of a class. -/
def ClassDecl.identifiers (c : ClassDecl) : List String :=
  c.name :: c.superclass.toList ++ c.fields.flatMap Declaration.identifiers
    ++ c.methods.flatMap Method.identifiers

/-- The identifiers of a program. -/
def Program.identifiers (p : Program) : List String := p.classes.flatMap ClassDecl.identifiers

/-! ## Lines do not matter -/

namespace Expr

theorem identifiersAll_eq_flatMap (es : List Expr) : identifiersAll es = es.flatMap identifiers := by
  induction es with
  | nil => rfl
  | cons e rest ih => rw [identifiersAll, ih, List.flatMap_cons]

mutual

@[simp] theorem identifiers_unlined : ∀ e : Expr, e.unlined.identifiers = e.identifiers
  | binary _ _ left right => by
    simp only [unlined, identifiers, identifiers_unlined left, identifiers_unlined right]
  | unary _ _ operand => by simp only [unlined, identifiers, identifiers_unlined operand]
  | methodCall _ receiver _ args => by
    simp only [unlined, identifiers, identifiers_unlined receiver, identifiersAll_unlinedAll args]
  | selfCall _ _ args => by simp only [unlined, identifiers, identifiersAll_unlinedAll args]
  | var .. | new .. | num .. | bool .. | nothing _ => rfl

theorem identifiersAll_unlinedAll : ∀ es, identifiersAll (unlinedAll es) = identifiersAll es
  | [] => rfl
  | e :: rest => by
    simp only [unlinedAll, identifiersAll, identifiers_unlined e, identifiersAll_unlinedAll rest]

end

end Expr

namespace Stmt

theorem identifiersAll_eq_flatMap (body : List Stmt) :
    identifiersAll body = body.flatMap identifiers := by
  induction body with
  | nil => rfl
  | cons s rest ih => rw [identifiersAll, ih, List.flatMap_cons]

mutual

@[simp] theorem identifiers_unlined : ∀ s : Stmt, s.unlined.identifiers = s.identifiers
  | assign _ _ value => by simp only [unlined, identifiers, Expr.identifiers_unlined value]
  | cond _ test body => by
    simp only [unlined, identifiers, Expr.identifiers_unlined test, identifiersAll_unlinedAll body]
  | print _ value => by simp only [unlined, identifiers, Expr.identifiers_unlined value]

theorem identifiersAll_unlinedAll : ∀ body, identifiersAll (unlinedAll body) = identifiersAll body
  | [] => rfl
  | s :: rest => by
    simp only [unlinedAll, identifiersAll, identifiers_unlined s, identifiersAll_unlinedAll rest]

end

end Stmt

@[simp] theorem Declaration.identifiers_unlined (d : Declaration) :
    d.unlined.identifiers = d.identifiers := rfl

@[simp] theorem Param.identifiers_unlined (p : Param) : p.unlined.identifiers = p.identifiers := rfl

@[simp] theorem Method.identifiers_unlined (m : Method) :
    m.unlined.identifiers = m.identifiers := by
  simp [identifiers, unlined, List.flatMap_map, Stmt.identifiersAll_eq_flatMap]

@[simp] theorem ClassDecl.identifiers_unlined (c : ClassDecl) :
    c.unlined.identifiers = c.identifiers := by
  simp [identifiers, unlined, List.flatMap_map]

@[simp] theorem Program.identifiers_unlined (p : Program) :
    p.unlined.identifiers = p.identifiers := by
  simp [identifiers, unlined, List.flatMap_map]

/-! ## Identifiers of derivations -/

namespace Grammar

/-- The identifiers of what a nonterminal stands for. -/
def Sym.identifiers : (s : Sym) → s.Value → List String
  | program => Program.identifiers
  | cls => ClassDecl.identifiers
  | declaration => Declaration.identifiers
  | method => Method.identifiers
  | param => Param.identifiers
  | type => TypeName.identifiers
  | stmt => Stmt.identifiers
  | args => Expr.identifiersAll
  | expr | equality | relational | add | mul | unary | primary => Expr.identifiers

/-- The identifiers of what a right side stands for. -/
def Rhs.identifiers : (r : Rhs) → r.Value → List String
  | token _ => fun _ => []
  | ident => fun (x : String) => [x]
  | int => fun _ => []
  | sym s => s.identifiers
  | seq a b => fun (v : a.Value × b.Value) => a.identifiers v.1 ++ b.identifiers v.2
  | alt a b => Sum.elim a.identifiers b.identifiers
  | many a => fun (vs : List a.Value) => vs.flatMap a.identifiers
  | maybe a => fun (v : Option a.Value) => v.elim [] a.identifiers

/-- Operators between operands add no identifiers; `parts` lists those of an
    operator and its right operand. -/
theorem mem_parts_of_leftward {α : Type} {op : α → BinaryOp} {first : Expr}
    {rest : List (α × Expr)} {parts : α × Expr → List String}
    (hparts : ∀ o, o.2.identifiers ⊆ parts o) {x : String}
    (hx : x ∈ (leftward op first rest).identifiers) :
    x ∈ first.identifiers ++ rest.flatMap parts := by
  induction rest generalizing first with
  | nil =>
    rw [List.flatMap_nil, List.append_nil]
    exact hx
  | cons o rest ih =>
    have hx : x ∈ (first.identifiers ++ o.2.identifiers) ++ rest.flatMap parts := ih hx
    have hparts : o.2.identifiers ⊆ parts o := hparts o
    simp only [List.flatMap_cons, List.mem_append] at hx ⊢
    grind

/-- The tree that a rule makes has the identifiers of its parts. -/
theorem Sym.identifiers_build (s : Sym) (v : (rules s).Value) {x : String}
    (hx : x ∈ s.identifiers (s.build v)) : x ∈ (rules s).identifiers v := by
  -- in each case both sides are written out in the types of the trees
  cases s with
  | program | param => exact hx
  | cls =>
    obtain ⟨_, (name : String), (superclass : Option (Unit × String)), _,
      (fields : List Declaration), (methods : List Method), _⟩ := v
    have hx : x ∈ ClassDecl.identifiers ⟨name, superclass.map (·.2), fields, methods, 0⟩ := hx
    show x ∈ [name] ++ (superclass.elim [] (fun v => [v.2]) ++
      (fields.flatMap Declaration.identifiers ++ (methods.flatMap Method.identifiers ++ [])))
    cases superclass <;> simpa [ClassDecl.identifiers] using hx
  | declaration =>
    obtain ⟨(ty : TypeName), (first : String), (others : List (Unit × String)), _⟩ := v
    have hx : x ∈ Declaration.identifiers ⟨ty, first :: others.map (·.2), 0⟩ := hx
    show x ∈ ty.identifiers ++ ([first] ++ (others.flatMap (fun v => [v.2]) ++ []))
    simpa [Declaration.identifiers, List.map_eq_flatMap] using hx
  | method =>
    obtain ⟨(result : TypeName), (name : String),
      ⟨_, (params : Option (Param × List (Unit × Param))), _⟩, _, (locals : List Declaration),
      (body : List Stmt), _, (value : Expr), _, _⟩ := v
    have hx : x ∈ Method.identifiers ⟨name, result,
      params.elim [] fun ps => ps.1 :: ps.2.map (·.2), locals, body, value, 0⟩ := hx
    show x ∈ result.identifiers ++ ([name] ++
      (((params.elim [] fun v => v.1.identifiers ++ v.2.flatMap fun v => v.2.identifiers) ++ []) ++
        (locals.flatMap Declaration.identifiers ++ (body.flatMap Stmt.identifiers ++
          (value.identifiers ++ [])))))
    cases params <;>
      simpa [Method.identifiers, Stmt.identifiersAll_eq_flatMap, List.flatMap_map, or_left_comm]
        using hx
  | type =>
    rcases v with _ | _ | _ | name
    · exact hx
    · exact hx
    · exact hx
    · exact hx
  | stmt =>
    rcases v with ⟨(name : String), _, (value : Expr), _⟩ |
      ⟨_, _, (test : Expr), _, _, (body : List Stmt), _⟩ | ⟨_, _, (value : Expr), _⟩
    · have hx : x ∈ name :: value.identifiers := hx
      show x ∈ [name] ++ (value.identifiers ++ [])
      simpa using hx
    · have hx : x ∈ test.identifiers ++ Stmt.identifiersAll body := hx
      show x ∈ test.identifiers ++ (body.flatMap Stmt.identifiers ++ [])
      simpa [Stmt.identifiersAll_eq_flatMap] using hx
    · have hx : x ∈ value.identifiers := hx
      show x ∈ value.identifiers ++ []
      simpa using hx
  | expr =>
    have hx : x ∈ (leftward (fun _ => .and) v.1 v.2).identifiers := hx
    exact mem_parts_of_leftward (fun _ => List.Subset.refl _) hx
  | equality | add | mul => exact mem_parts_of_leftward (fun _ => List.subset_append_right _ _) hx
  | relational =>
    obtain ⟨(first : Expr), (rest : Option ((Unit ⊕ Unit) × Expr))⟩ := v
    cases rest with
    | none => exact List.mem_append_left _ hx
    | some o =>
      have hx : x ∈ first.identifiers ++ o.2.identifiers := hx
      show x ∈ first.identifiers ++ (Sum.elim (fun _ => []) (fun _ => []) o.1 ++ o.2.identifiers)
      simp only [List.mem_append] at hx ⊢
      exact hx.imp_right .inr
  | unary =>
    rcases v with ⟨_, (operand : Expr)⟩ | (e : Expr)
    · exact List.mem_append_right _ hx
    · exact hx
  | primary =>
    rcases v with _ | _ | _ | _ | ⟨_, (cls : String)⟩ |
      ⟨(receiver : String), _, (method : String), _, (given : Option (List Expr)), _⟩ |
      ⟨(method : String), _, (given : Option (List Expr)), _⟩ | (name : String) | ⟨_, (e : Expr), _⟩
    · exact hx
    · exact hx
    · exact hx
    · exact hx
    · exact hx
    · have hx : x ∈ [receiver] ++ method :: Expr.identifiersAll (given.getD []) := hx
      show x ∈ [receiver] ++ ([method] ++ ((given.elim [] Expr.identifiersAll) ++ []))
      cases given <;> simpa [Expr.identifiersAll] using hx
    · have hx : x ∈ method :: Expr.identifiersAll (given.getD []) := hx
      show x ∈ [method] ++ ((given.elim [] Expr.identifiersAll) ++ [])
      cases given <;> simpa [Expr.identifiersAll] using hx
    · exact hx
    · show x ∈ e.identifiers ++ []
      exact List.mem_append_left _ hx
  | args =>
    obtain ⟨(first : Expr), (rest : List (Unit × Expr))⟩ := v
    have hx : x ∈ Expr.identifiersAll (first :: rest.map (·.2)) := hx
    show x ∈ first.identifiers ++ rest.flatMap (·.2.identifiers)
    simpa [Expr.identifiersAll_eq_flatMap, List.flatMap_map] using hx

/-- The tree of a derivation spells only what stands in the derived tokens. -/
theorem Derivation.identifiers_value {r : Rhs} (t : Derivation r) {x : String}
    (hx : x ∈ r.identifiers t.value) : .ident x ∈ t.yield := by
  induction t with
  | token | int | nil | none => cases hx
  | ident name =>
    have hx : x ∈ [name] := hx
    rw [List.mem_singleton.mp hx]
    exact List.mem_singleton_self _
  | @sym s t ih => exact ih (s.identifiers_build t.value hx)
  | seq t u iht ihu => exact List.mem_append.mpr ((List.mem_append.mp hx).imp iht ihu)
  | left t ih | right t ih | some t ih => exact ih hx
  | cons t u iht ihu => exact List.mem_append.mpr ((List.mem_append.mp hx).imp iht ihu)

end Grammar

/-- The identifiers of a program are those of the tokens from which it is
    read. -/
theorem Program.identifiers_of_ofTokens {tokens : List Token} {p : Program}
    (h : ofTokens tokens = .ok p) {x : String} (hx : x ∈ p.identifiers) :
    .ident x ∈ tokens.map Token.kind := by
  obtain ⟨t, hyield, hvalue⟩ := spells_of_ofTokens h
  rw [List.append_nil] at hyield
  rw [hyield]
  apply t.identifiers_value
  rw [hvalue]
  show x ∈ p.unlined.identifiers
  rwa [p.identifiers_unlined]

/-- The identifiers of a program that is read are words. -/
theorem Program.isWord_of_ofSource {source : String} {p : Program} (h : ofSource source = .ok p) :
    ∀ x ∈ p.identifiers, Token.IsWord x.toList := by
  intro x hx
  unfold ofSource at h
  split at h
  · cases h
  · next hscan =>
    split at h
    · cases h
    · next htokens =>
      cases h
      exact Token.isWord_of_scan hscan (identifiers_of_ofTokens htokens hx)

end ClassLang
