import ClassLang.Syntax
import ClassLang.Token

/-! # The grammar

    The grammar of the language as data, and derivations as trees.

    * **`Rhs`** is the right side of a rule, and **`rules`** has one for each
      nonterminal.
    * **`Derivation`** is a derivation, **`Derivation.yield`** what it derives.
    * **`Sym.build`** gives each rule its meaning: from the values of its parts
      it makes a tree, all of whose lines are 0.  **`Derivation.value`** is the
      tree of a derivation.
    * **`unlined`** forgets the lines of a tree.
    * **`Rhs.Spells`** forgets which derivation it was. -/

namespace ClassLang

namespace Grammar

/-! ## Rules -/

/-- The nonterminals.  Fields and locals are declared in one form. -/
inductive Sym where
  | program | cls | declaration | method | param | type | stmt
  | expr | equality | relational | add | mul | unary | primary | args

/-- The right side of a rule. -/
inductive Rhs where
  | token (kind : TokenKind)
  | ident
  | int
  | sym (s : Sym)
  | seq (a b : Rhs)
  | alt (a b : Rhs)
  | many (a : Rhs)
  | maybe (a : Rhs)

/-- One after the other. -/
def inRow (a : Rhs) : List Rhs → Rhs
  | [] => a
  | b :: rest => .seq a (inRow b rest)

/-- One of them. -/
def oneOf (a : Rhs) : List Rhs → Rhs
  | [] => a
  | b :: rest => .alt a (oneOf b rest)

/-- Operands with operators between them. -/
def chain (operand : Sym) (op : Rhs) : Rhs := .seq (.sym operand) (.many (.seq op (.sym operand)))

/-- One or more, with commas between them. -/
def listed (a : Rhs) : Rhs := inRow a [.many (inRow (.token .comma) [a])]

/-- A list in parentheses, which may be empty. -/
def enclosed (a : Rhs) : Rhs := inRow (.token .openParen) [.maybe a, .token .closeParen]

/-- The rules. -/
def rules : Sym → Rhs
  | .program => .many (.sym .cls)
  | .cls => inRow (.token .cls) [.ident, .maybe (inRow (.token .colon) [.ident]),
      .token .openCurlyBrace, .many (.sym .declaration), .many (.sym .method),
      .token .closeCurlyBrace]
  | .declaration => inRow (.sym .type) [.ident, .many (inRow (.token .comma) [.ident]),
      .token .semiColon]
  | .method => inRow (.sym .type) [.ident,
      enclosed (listed (.sym .param)),
      .token .openCurlyBrace, .many (.sym .declaration), .many (.sym .stmt),
      .token .ret, .sym .expr, .token .semiColon, .token .closeCurlyBrace]
  | .param => inRow (.sym .type) [.ident]
  | .type => oneOf (.token .int) [.token .bool, .token .nothing, .ident]
  | .stmt => oneOf
      (inRow .ident [.token .equal, .sym .expr, .token .semiColon])
      [inRow (.token .cond) [.token .openParen, .sym .expr, .token .closeParen,
        .token .openCurlyBrace, .many (.sym .stmt), .token .closeCurlyBrace],
       inRow (.token .print) [.token .openParen, .sym .expr, .token .closeParen,
        .token .semiColon]]
  | .expr => chain .equality (.token .and)
  | .equality => chain .relational (oneOf (.token .doubleEqual) [.token .notEqual])
  -- at most one of these operators, so they do not associate
  | .relational => .seq (.sym .add)
      (.maybe (.seq (oneOf (.token .lessThan) [.token .lessEqual]) (.sym .add)))
  | .add => chain .mul (oneOf (.token .plus) [.token .minus])
  | .mul => chain .unary (oneOf (.token .star) [.token .slash])
  | .unary => oneOf (.seq (oneOf (.token .minus) [.token .not]) (.sym .unary)) [.sym .primary]
  | .primary => oneOf .int [.token .true, .token .false, .token .nothing,
      inRow (.token .new) [.ident],
      inRow .ident [.token .dot, .ident, enclosed (.sym .args)],
      inRow .ident [enclosed (.sym .args)],
      .ident,
      inRow (.token .openParen) [.sym .expr, .token .closeParen]]
  | .args => listed (.sym .expr)

/-! ## Derivations -/

/-- The derivations from a right side. -/
inductive Derivation : Rhs → Type
  | token (kind : TokenKind) : Derivation (.token kind)
  | ident (name : String) : Derivation .ident
  | int (value : Int) : Derivation .int
  | sym {s : Sym} (t : Derivation (rules s)) : Derivation (.sym s)
  | seq {a b : Rhs} (t : Derivation a) (u : Derivation b) : Derivation (.seq a b)
  | left {a b : Rhs} (t : Derivation a) : Derivation (.alt a b)
  | right {a b : Rhs} (t : Derivation b) : Derivation (.alt a b)
  | nil {a : Rhs} : Derivation (.many a)
  | cons {a : Rhs} (t : Derivation a) (u : Derivation (.many a)) : Derivation (.many a)
  | none {a : Rhs} : Derivation (.maybe a)
  | some {a : Rhs} (t : Derivation a) : Derivation (.maybe a)

/-- The kinds of tokens that are derived. -/
def Derivation.yield {r : Rhs} : Derivation r → List TokenKind
  | token kind => [kind]
  | ident name => [.ident name]
  | int value => [.num value]
  | sym t => t.yield
  | seq t u => t.yield ++ u.yield
  | left t | right t => t.yield
  | nil | none => []
  | cons t u => t.yield ++ u.yield
  | some t => t.yield

/-! ## Values -/

/-- What a nonterminal stands for. -/
def Sym.Value : Sym → Type
  | program => Program
  | cls => ClassDecl
  | declaration => Declaration
  | method => Method
  | param => Param
  | type => TypeName
  | stmt => Stmt
  | args => List Expr
  | expr | equality | relational | add | mul | unary | primary => Expr

/-- What a right side stands for: the values of its parts. -/
def Rhs.Value : Rhs → Type
  | token _ => Unit
  | ident => String
  | int => Int
  | sym s => s.Value
  | seq a b => a.Value × b.Value
  | alt a b => a.Value ⊕ b.Value
  | many a => List a.Value
  | maybe a => Option a.Value

/-- Operators between operands associate to the left. -/
def leftward {α : Type} (op : α → BinaryOp) (first : Expr) (rest : List (α × Expr)) : Expr :=
  rest.foldl (fun left o => .binary { line := 0 } (op o.1) left o.2) first

/-- One of two operators. -/
def either {α : Type} (a b : α) : Unit ⊕ Unit → α := Sum.elim (fun _ => a) fun _ => b

/-- The tree that a rule makes of the values of its parts. -/
def Sym.build : (s : Sym) → (rules s).Value → s.Value
  | program => fun (classes : List ClassDecl) => ({ classes, line := 0 } : Program)
  | cls => fun (v : Unit × String × Option (Unit × String) × Unit × List Declaration ×
        List Method × Unit) =>
      let (_, name, superclass, _, fields, methods, _) := v
      ({ name, superclass := superclass.map (·.2), fields, methods, line := 0 } : ClassDecl)
  | declaration => fun (v : TypeName × String × List (Unit × String) × Unit) =>
      let (ty, first, others, _) := v
      ({ ty, names := first :: others.map (·.2), line := 0 } : Declaration)
  | method => fun (v : TypeName × String × (Unit × Option (Param × List (Unit × Param)) × Unit) ×
        Unit × List Declaration × List Stmt × Unit × Expr × Unit × Unit) =>
      let (result, name, (_, params, _), _, locals, body, _, value, _, _) := v
      ({ name, result, params := params.elim [] fun ps => ps.1 :: ps.2.map (·.2), locals, body,
         value, line := 0 } : Method)
  | param => fun (v : TypeName × String) => ({ ty := v.1, name := v.2, line := 0 } : Param)
  | type => Sum.elim (fun _ => TypeName.int) <| Sum.elim (fun _ => .bool) <|
      Sum.elim (fun _ => .nothing) fun name => .cls name
  | stmt =>
      Sum.elim (fun (v : String × Unit × Expr × Unit) => Stmt.assign 0 v.1 v.2.2.1) <|
      Sum.elim
        (fun (v : Unit × Unit × Expr × Unit × Unit × List Stmt × Unit) =>
          let (_, _, test, _, _, body, _) := v
          .cond 0 test body)
        fun (v : Unit × Unit × Expr × Unit × Unit) => .print 0 v.2.2.1
  | expr => fun (v : Expr × List (Unit × Expr)) => leftward (fun _ => .and) v.1 v.2
  | equality => fun (v : Expr × List ((Unit ⊕ Unit) × Expr)) =>
      leftward (either .equal .notEqual) v.1 v.2
  | relational => fun (v : Expr × Option ((Unit ⊕ Unit) × Expr)) =>
      leftward (either .lessThan .lessEqual) v.1 v.2.toList
  | add => fun (v : Expr × List ((Unit ⊕ Unit) × Expr)) => leftward (either .add .sub) v.1 v.2
  | mul => fun (v : Expr × List ((Unit ⊕ Unit) × Expr)) => leftward (either .mul .div) v.1 v.2
  | unary => Sum.elim
      (fun (v : (Unit ⊕ Unit) × Expr) => Expr.unary { line := 0 } (either .neg .not v.1) v.2) id
  | primary =>
      Sum.elim (fun value => Expr.num { line := 0 } value) <|
      Sum.elim (fun _ => .bool { line := 0 } true) <|
      Sum.elim (fun _ => .bool { line := 0 } false) <|
      Sum.elim (fun _ => .nothing { line := 0 }) <|
      Sum.elim (fun (v : Unit × String) => .new { line := 0 } v.2) <|
      Sum.elim
        (fun (v : String × Unit × String × Unit × Option (List Expr) × Unit) =>
          let (receiver, _, name, _, given, _) := v
          .methodCall { line := 0 } (.var { line := 0 } receiver) name (given.getD [])) <|
      Sum.elim
        (fun (v : String × Unit × Option (List Expr) × Unit) =>
          let (name, _, given, _) := v
          .selfCall { line := 0 } name (given.getD [])) <|
      Sum.elim (fun name => .var { line := 0 } name)
        -- parentheses leave no node
        fun (v : Unit × Expr × Unit) => v.2.1
  | args => fun (v : Expr × List (Unit × Expr)) => v.1 :: v.2.map (·.2)

/-- What a derivation stands for. -/
def Derivation.value {r : Rhs} : Derivation r → r.Value
  | token _ => ()
  | ident name => name
  | int value => value
  | sym (s := s) t => s.build t.value
  | seq t u => (t.value, u.value)
  | left t => .inl t.value
  | right t => .inr t.value
  | nil => []
  | cons t u => t.value :: u.value
  | none => Option.none
  | some t => Option.some t.value

/-! ## Trees without lines -/

end Grammar

/-- The note without its line. -/
def Note.unlined (n : Note) : Note := { n with line := 0 }

namespace Expr

mutual

/-- The expression without lines. -/
def unlined : Expr → Expr
  | binary n op left right => binary n.unlined op left.unlined right.unlined
  | unary n op operand => unary n.unlined op operand.unlined
  | methodCall n receiver method args =>
    methodCall n.unlined receiver.unlined method (unlinedAll args)
  | selfCall n method args => selfCall n.unlined method (unlinedAll args)
  | var n name => var n.unlined name
  | num n value => num n.unlined value
  | bool n value => bool n.unlined value
  | nothing n => nothing n.unlined
  | new n cls => new n.unlined cls

/-- The expressions without lines. -/
def unlinedAll : List Expr → List Expr
  | [] => []
  | e :: rest => e.unlined :: unlinedAll rest

end

theorem unlinedAll_eq_map (es : List Expr) : unlinedAll es = es.map unlined := by
  induction es with
  | nil => rfl
  | cons e rest ih => rw [unlinedAll, ih, List.map_cons]

end Expr

namespace Stmt

mutual

/-- The statement without lines. -/
def unlined : Stmt → Stmt
  | assign _ name value => assign 0 name value.unlined
  | cond _ test body => cond 0 test.unlined (unlinedAll body)
  | print _ value => print 0 value.unlined

/-- The statements without lines. -/
def unlinedAll : List Stmt → List Stmt
  | [] => []
  | s :: rest => s.unlined :: unlinedAll rest

end

theorem unlinedAll_eq_map (body : List Stmt) : unlinedAll body = body.map unlined := by
  induction body with
  | nil => rfl
  | cons s rest ih => rw [unlinedAll, ih, List.map_cons]

end Stmt

/-- The declaration without its line. -/
def Declaration.unlined (d : Declaration) : Declaration := { d with line := 0 }

/-- The parameter without its line. -/
def Param.unlined (p : Param) : Param := { p with line := 0 }

/-- The method without lines. -/
def Method.unlined (m : Method) : Method :=
  { m with params := m.params.map Param.unlined, locals := m.locals.map Declaration.unlined,
           body := m.body.map Stmt.unlined, value := m.value.unlined, line := 0 }

/-- The class without lines. -/
def ClassDecl.unlined (c : ClassDecl) : ClassDecl :=
  { c with fields := c.fields.map Declaration.unlined, methods := c.methods.map Method.unlined,
           line := 0 }

/-- The program without lines. -/
def Program.unlined (p : Program) : Program :=
  { p with classes := p.classes.map ClassDecl.unlined, line := 0 }

namespace Grammar

/-! ## What is spelled -/

/-- The tokens `w` start with a derivation of this value, and `w'` is left. -/
def Rhs.Spells (r : Rhs) (w : List TokenKind) (v : r.Value) (w' : List TokenKind) : Prop :=
  ∃ t : Derivation r, w = t.yield ++ w' ∧ t.value = v

section spells

variable {a b : Rhs} {s : Sym} {w w' : List TokenKind}

theorem spells_token {kind : TokenKind} {v : Unit} :
    (Rhs.token kind).Spells w v w' ↔ w = kind :: w' := by
  constructor
  · rintro ⟨t, rfl, _⟩
    cases t
    rfl
  · rintro rfl
    exact ⟨.token kind, rfl, rfl⟩

theorem spells_ident {x : String} : Rhs.ident.Spells w x w' ↔ w = .ident x :: w' := by
  constructor
  · rintro ⟨t, rfl, rfl⟩
    cases t
    rfl
  · rintro rfl
    exact ⟨.ident x, rfl, rfl⟩

theorem spells_int {n : Int} : Rhs.int.Spells w n w' ↔ w = .num n :: w' := by
  constructor
  · rintro ⟨t, rfl, rfl⟩
    cases t
    rfl
  · rintro rfl
    exact ⟨.int n, rfl, rfl⟩

theorem spells_sym {v : s.Value} :
    (Rhs.sym s).Spells w v w' ↔ ∃ x, (rules s).Spells w x w' ∧ s.build x = v := by
  constructor
  · rintro ⟨t, rfl, rfl⟩
    cases t with
    | sym t => exact ⟨t.value, ⟨t, rfl, rfl⟩, rfl⟩
  · rintro ⟨_, ⟨t, rfl, rfl⟩, rfl⟩
    exact ⟨.sym t, rfl, rfl⟩

theorem spells_seq {v : a.Value × b.Value} :
    (Rhs.seq a b).Spells w v w' ↔ ∃ u, a.Spells w v.1 u ∧ b.Spells u v.2 w' := by
  constructor
  · rintro ⟨t, rfl, rfl⟩
    cases t with
    | seq t u => exact ⟨u.yield ++ w', ⟨t, List.append_assoc _ _ _, rfl⟩, u, rfl, rfl⟩
  · rintro ⟨_, ⟨t, rfl, ht⟩, u, rfl, hu⟩
    exact ⟨.seq t u, (List.append_assoc _ _ _).symm, Prod.ext ht hu⟩

theorem spells_alt {v : a.Value ⊕ b.Value} : (Rhs.alt a b).Spells w v w' ↔
    (∃ x, v = .inl x ∧ a.Spells w x w') ∨ ∃ y, v = .inr y ∧ b.Spells w y w' := by
  constructor
  · rintro ⟨t, rfl, rfl⟩
    cases t with
    | left t => exact Or.inl ⟨t.value, rfl, t, rfl, rfl⟩
    | right t => exact Or.inr ⟨t.value, rfl, t, rfl, rfl⟩
  · rintro (⟨_, rfl, t, rfl, rfl⟩ | ⟨_, rfl, t, rfl, rfl⟩)
    · exact ⟨.left t, rfl, rfl⟩
    · exact ⟨.right t, rfl, rfl⟩

theorem spells_maybe {v : Option a.Value} : (Rhs.maybe a).Spells w v w' ↔
    (v = none ∧ w = w') ∨ ∃ x, v = some x ∧ a.Spells w x w' := by
  constructor
  · rintro ⟨t, rfl, rfl⟩
    cases t with
    | none => exact Or.inl ⟨rfl, rfl⟩
    | some t => exact Or.inr ⟨t.value, rfl, t, rfl, rfl⟩
  · rintro (⟨rfl, rfl⟩ | ⟨_, rfl, t, rfl, rfl⟩)
    · exact ⟨.none, rfl, rfl⟩
    · exact ⟨.some t, rfl, rfl⟩

theorem spells_nil : (Rhs.many a).Spells w [] w' ↔ w = w' := by
  constructor
  · rintro ⟨t, rfl, ht⟩
    cases t with
    | nil => rfl
    | cons t u => cases ht
  · rintro rfl
    exact ⟨.nil, rfl, rfl⟩

theorem spells_cons {x : a.Value} {xs : List a.Value} : (Rhs.many a).Spells w (x :: xs) w' ↔
    ∃ u, a.Spells w x u ∧ (Rhs.many a).Spells u xs w' := by
  constructor
  · rintro ⟨t, rfl, ht⟩
    cases t with
    | nil => cases ht
    | cons t u =>
      obtain ⟨rfl, rfl⟩ := List.cons.inj ht
      exact ⟨u.yield ++ w', ⟨t, List.append_assoc _ _ _, rfl⟩, u, rfl, rfl⟩
  · rintro ⟨_, ⟨t, rfl, rfl⟩, u, rfl, rfl⟩
    exact ⟨.cons t u, (List.append_assoc _ _ _).symm, rfl⟩

/-- The first alternative. -/
theorem Rhs.Spells.left {x : a.Value} (h : a.Spells w x w') : (Rhs.alt a b).Spells w (.inl x) w' :=
  spells_alt.mpr (Or.inl ⟨x, rfl, h⟩)

/-- Another alternative. -/
theorem Rhs.Spells.right {y : b.Value} (h : b.Spells w y w') : (Rhs.alt a b).Spells w (.inr y) w' :=
  spells_alt.mpr (Or.inr ⟨y, rfl, h⟩)

theorem spells_inl {x : a.Value} : (Rhs.alt a b).Spells w (.inl x) w' ↔ a.Spells w x w' := by
  constructor
  · intro h
    rcases spells_alt.mp h with ⟨_, heq, hx⟩ | ⟨_, heq, _⟩
    · cases heq
      exact hx
    · cases heq
  · exact Rhs.Spells.left

theorem spells_inr {y : b.Value} : (Rhs.alt a b).Spells w (.inr y) w' ↔ b.Spells w y w' := by
  constructor
  · intro h
    rcases spells_alt.mp h with ⟨_, heq, _⟩ | ⟨_, heq, hy⟩
    · cases heq
    · cases heq
      exact hy
  · exact Rhs.Spells.right

end spells

end Grammar

end ClassLang
