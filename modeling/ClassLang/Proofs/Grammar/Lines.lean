import ClassLang.Proofs.Grammar.Lookahead

/-! # The lines of a tree

    The tree of a derivation, with a line at each node that depends on the
    tokens from which the node was derived.

    * **`firstLine`** is the line of the first token, and **`lineBehindParens`**
      that of the first one that is no opening parenthesis.  They differ only
      where a line ends behind an opening parenthesis (**`ParensInline`**).
    * **`Sym.buildAt`** gives each rule its meaning as `Sym.build` does, with
      lines.
    * **`Derivation.lined`** hands each part of a derivation its part of the
      tokens.  Which line of the tokens is recorded is a parameter, and a second
      one for the operations with two operands.
    * **`Rhs.Lined`** forgets which derivation it was. -/

namespace ClassLang.Grammar

/-! ## Lines of tokens -/

/-- The line of the first token. -/
def firstLine (w : List Token) : Nat := (w.head?.map Token.line).getD 1

/-- The line of the first token that is no opening parenthesis. -/
def lineBehindParens (w : List Token) : Nat := firstLine (w.dropWhile (·.kind = .openParen))

/-- No line ends behind an opening parenthesis. -/
def ParensInline (w : List Token) : Prop :=
  ∀ s t, [s, t] <:+: w → s.kind = .openParen → s.line = t.line

section lines

variable {s : Token} {u w : List Token}

theorem lineBehindParens_paren (hs : s.kind = .openParen) :
    lineBehindParens (s :: w) = lineBehindParens w := by
  rw [lineBehindParens, List.dropWhile_cons_of_pos (by simpa using hs), lineBehindParens]

theorem lineBehindParens_other (hs : s.kind ≠ .openParen) : lineBehindParens (s :: w) = s.line := by
  rw [lineBehindParens, List.dropWhile_cons_of_neg (by simpa using hs)]
  rfl

theorem ParensInline.within (h : ParensInline w) (hu : u <:+: w) : ParensInline u :=
  fun s t hst => h s t (hst.trans hu)

/-- Where no line ends behind an opening parenthesis, the lines are the same,
    if there is something behind the parentheses. -/
theorem ParensInline.lineBehindParens_eq (h : ParensInline w) (hw : ∃ t ∈ w, t.kind ≠ .openParen) :
    lineBehindParens w = firstLine w := by
  induction w with
  | nil =>
    obtain ⟨t, ht, -⟩ := hw
    cases ht
  | cons s w ih =>
    by_cases hs : s.kind = .openParen
    · have hrest : ∃ t ∈ w, t.kind ≠ .openParen := by
        obtain ⟨t, ht, hkind⟩ := hw
        rcases List.mem_cons.mp ht with rfl | ht
        · exact absurd hs hkind
        · exact ⟨t, ht, hkind⟩
      rw [lineBehindParens_paren hs, ih (h.within (List.suffix_cons s w).isInfix) hrest]
      cases w with
      | nil =>
        obtain ⟨t, ht, -⟩ := hrest
        cases ht
      | cons t w =>
        have hpair : [s, t] <:+: s :: t :: w := (List.prefix_append [s, t] w).isInfix
        exact (h s t hpair hs).symm
    · rw [lineBehindParens_other hs]
      rfl

end lines

/-! ## Trees with lines -/

/-- Operators between operands associate to the left, and all of the operations
    are on one line. -/
def leftwardAt {α : Type} (line : Nat) (op : α → BinaryOp) (first : Expr)
    (rest : List (α × Expr)) : Expr :=
  rest.foldl (fun left o => .binary { line } (op o.1) left o.2) first

/-- The tree that a rule makes of the values of its parts, with a line for its
    node, and one for the operations with two operands. -/
def Sym.buildAt (line operation : Nat) : (s : Sym) → (rules s).Value → s.Value
  | program => fun (classes : List ClassDecl) => ({ classes, line } : Program)
  | cls => fun (v : Unit × String × Option (Unit × String) × Unit × List Declaration ×
        List Method × Unit) =>
      let (_, name, superclass, _, fields, methods, _) := v
      ({ name, superclass := superclass.map (·.2), fields, methods, line } : ClassDecl)
  | declaration => fun (v : TypeName × String × List (Unit × String) × Unit) =>
      let (ty, first, others, _) := v
      ({ ty, names := first :: others.map (·.2), line } : Declaration)
  | method => fun (v : TypeName × String × (Unit × Option (Param × List (Unit × Param)) × Unit) ×
        Unit × List Declaration × List Stmt × Unit × Expr × Unit × Unit) =>
      let (result, name, (_, params, _), _, locals, body, _, value, _, _) := v
      ({ name, result, params := params.elim [] fun ps => ps.1 :: ps.2.map (·.2), locals, body,
         value, line } : Method)
  | param => fun (v : TypeName × String) => ({ ty := v.1, name := v.2, line } : Param)
  | type => Sum.elim (fun _ => TypeName.int) <| Sum.elim (fun _ => .bool) <|
      Sum.elim (fun _ => .nothing) fun name => .cls name
  | stmt =>
      Sum.elim (fun (v : String × Unit × Expr × Unit) => Stmt.assign line v.1 v.2.2.1) <|
      Sum.elim
        (fun (v : Unit × Unit × Expr × Unit × Unit × List Stmt × Unit) =>
          let (_, _, test, _, _, body, _) := v
          .cond line test body)
        fun (v : Unit × Unit × Expr × Unit × Unit) => .print line v.2.2.1
  | expr => fun (v : Expr × List (Unit × Expr)) => leftwardAt operation (fun _ => .and) v.1 v.2
  | equality => fun (v : Expr × List ((Unit ⊕ Unit) × Expr)) =>
      leftwardAt operation (either .equal .notEqual) v.1 v.2
  | relational => fun (v : Expr × Option ((Unit ⊕ Unit) × Expr)) =>
      leftwardAt operation (either .lessThan .lessEqual) v.1 v.2.toList
  | add => fun (v : Expr × List ((Unit ⊕ Unit) × Expr)) =>
      leftwardAt operation (either .add .sub) v.1 v.2
  | mul => fun (v : Expr × List ((Unit ⊕ Unit) × Expr)) =>
      leftwardAt operation (either .mul .div) v.1 v.2
  | unary => Sum.elim
      (fun (v : (Unit ⊕ Unit) × Expr) => Expr.unary { line } (either .neg .not v.1) v.2) id
  | primary =>
      Sum.elim (fun value => Expr.num { line } value) <|
      Sum.elim (fun _ => .bool { line } true) <|
      Sum.elim (fun _ => .bool { line } false) <|
      Sum.elim (fun _ => .nothing { line }) <|
      Sum.elim (fun (v : Unit × String) => .new { line } v.2) <|
      Sum.elim
        (fun (v : String × Unit × String × Unit × Option (List Expr) × Unit) =>
          let (receiver, _, name, _, given, _) := v
          -- the receiver is the first token of the call
          .methodCall { line } (.var { line } receiver) name (given.getD [])) <|
      Sum.elim
        (fun (v : String × Unit × Option (List Expr) × Unit) =>
          let (name, _, given, _) := v
          .selfCall { line } name (given.getD [])) <|
      Sum.elim (fun name => .var { line } name)
        fun (v : Unit × Expr × Unit) => v.2.1
  | args => fun (v : Expr × List (Unit × Expr)) => v.1 :: v.2.map (·.2)

namespace Derivation

variable {r a b : Rhs}

/-- What a derivation of the tokens `w` stands for, with lines: `node` tells that
    of a node from its tokens, and `operation` that of an operation with two
    operands. -/
def lined (node operation : List Token → Nat) {r : Rhs} :
    Derivation r → (w : List Token) → r.Value
  | token _, _ => ()
  | ident name, _ => name
  | int value, _ => value
  | sym (s := s) t, w => s.buildAt (node w) (operation w) (t.lined node operation w)
  | seq t u, w =>
    (t.lined node operation (w.take t.yield.length), u.lined node operation (w.drop t.yield.length))
  | left t, w => .inl (t.lined node operation w)
  | right t, w => .inr (t.lined node operation w)
  | nil, _ => []
  | cons t u, w =>
    t.lined node operation (w.take t.yield.length) ::
      u.lined node operation (w.drop t.yield.length)
  | none, _ => Option.none
  | some t, w => Option.some (t.lined node operation w)

end Derivation

/-! ## Where lines agree -/

/-- Every derivation from the right side has a token that is no opening
    parenthesis. -/
def Rhs.solid : Rhs → Bool
  | token kind => kind ≠ .openParen
  | ident | int => true
  | sym .program => false
  | sym _ => true
  | seq a b => a.solid || b.solid
  | alt a b => a.solid && b.solid
  | many _ | maybe _ => false

theorem rules_solid {s : Sym} (h : (Rhs.sym s).solid = true) : (rules s).solid = true := by
  cases s with
  | program => cases h
  | _ => rfl

namespace Derivation

variable {r : Rhs} {w : List Token}

theorem exists_solid (t : Derivation r) (h : r.solid = true) :
    ∃ k ∈ t.yield, k ≠ .openParen := by
  induction t with
  | token k => exact ⟨k, List.mem_singleton_self k, of_decide_eq_true h⟩
  | ident name => exact ⟨.ident name, List.mem_singleton_self _, nofun⟩
  | int value => exact ⟨.num value, List.mem_singleton_self _, nofun⟩
  | sym t ih => exact ih (rules_solid h)
  | seq t u iht ihu =>
    rcases Bool.or_eq_true_iff.mp h with h | h
    · obtain ⟨k, hk, hne⟩ := iht h
      exact ⟨k, List.mem_append_left _ hk, hne⟩
    · obtain ⟨k, hk, hne⟩ := ihu h
      exact ⟨k, List.mem_append_right _ hk, hne⟩
  | left t ih => exact ih (Bool.and_eq_true_iff.mp h).1
  | right t ih => exact ih (Bool.and_eq_true_iff.mp h).2
  | nil | cons _ _ | none | some _ => cases h

/-- The tokens of the two parts of a row. -/
theorem kindsOf_split {u v : List TokenKind} (h : u ++ v = kindsOf w) :
    u = kindsOf (w.take u.length) ∧ v = kindsOf (w.drop u.length) := by
  obtain ⟨x, y, rfl, rfl, rfl⟩ := List.map_eq_append_iff.mp h.symm
  rw [List.length_map, List.take_left, List.drop_left]
  exact ⟨rfl, rfl⟩

/-- Where no line ends behind an opening parenthesis, operations are on the lines
    of their first tokens. -/
theorem lined_of_parensInline (t : Derivation r) (hw : t.yield = kindsOf w) (h : ParensInline w) :
    t.lined firstLine lineBehindParens w = t.lined firstLine firstLine w := by
  induction t generalizing w with
  | token _ | ident _ | int _ | nil | none => rfl
  | @sym s t ih =>
    show s.buildAt (firstLine w) (lineBehindParens w) _ = s.buildAt (firstLine w) (firstLine w) _
    rw [ih hw h]
    by_cases hs : (Rhs.sym s).solid = true
    · -- something is derived that is no opening parenthesis
      obtain ⟨k, hk, hne⟩ := (Derivation.sym t).exists_solid hs
      rw [show (Derivation.sym t).yield = kindsOf w from hw] at hk
      obtain ⟨x, hx, rfl⟩ := List.mem_map.mp hk
      rw [h.lineBehindParens_eq ⟨x, hx, hne⟩]
    · -- programs hold no operations of their own
      cases s with
      | program => rfl
      | _ => exact absurd rfl hs
  | seq t u iht ihu | cons t u iht ihu =>
    obtain ⟨ht, hu⟩ := kindsOf_split hw
    rw [lined, lined, iht ht (h.within (List.take_prefix _ _).isInfix),
      ihu hu (h.within (List.drop_suffix _ _).isInfix)]
  | left t ih | right t ih | some t ih =>
    rw [lined, lined, ih hw h]

end Derivation

/-! ## What tokens stand for -/

/-- The tokens `w` are a derivation of this value, where a node is on the line of
    its first token, and an operation with two operands on that of the first
    token that is no opening parenthesis. -/
def Rhs.Lined (r : Rhs) (w : List Token) (v : r.Value) : Prop :=
  ∃ t : Derivation r, t.yield = kindsOf w ∧ t.lined firstLine lineBehindParens w = v

section lined

variable {a b r : Rhs} {s : Sym} {w w' : List Token}

theorem kindsOf_append (w w' : List Token) : kindsOf (w ++ w') = kindsOf w ++ kindsOf w' :=
  List.map_append

theorem lined_token (k : TokenKind) (l : Nat) : (Rhs.token k).Lined [⟨k, l⟩] () :=
  ⟨.token k, rfl, rfl⟩

theorem lined_ident (name : String) (l : Nat) : Rhs.ident.Lined [⟨.ident name, l⟩] name :=
  ⟨.ident name, rfl, rfl⟩

theorem lined_int (value : Int) (l : Nat) : Rhs.int.Lined [⟨.num value, l⟩] value :=
  ⟨.int value, rfl, rfl⟩

theorem Rhs.Lined.sym {v : (rules s).Value} (h : (rules s).Lined w v) :
    (Rhs.sym s).Lined w (s.buildAt (firstLine w) (lineBehindParens w) v) := by
  obtain ⟨t, hw, rfl⟩ := h
  exact ⟨.sym t, hw, rfl⟩

theorem Rhs.Lined.seq {v : a.Value} {v' : b.Value} (h : a.Lined w v) (h' : b.Lined w' v') :
    (Rhs.seq a b).Lined (w ++ w') (v, v') := by
  obtain ⟨t, hw, rfl⟩ := h
  obtain ⟨u, hw', rfl⟩ := h'
  have hlength : t.yield.length = w.length := by rw [hw, List.length_map]
  refine ⟨.seq t u, ?_, ?_⟩
  · rw [Derivation.yield, hw, hw', kindsOf_append]
  · rw [Derivation.lined, hlength, List.take_left, List.drop_left]

theorem Rhs.Lined.left {v : a.Value} (h : a.Lined w v) : (Rhs.alt a b).Lined w (.inl v) := by
  obtain ⟨t, hw, rfl⟩ := h
  exact ⟨.left t, hw, rfl⟩

theorem Rhs.Lined.right {v : b.Value} (h : b.Lined w v) : (Rhs.alt a b).Lined w (.inr v) := by
  obtain ⟨t, hw, rfl⟩ := h
  exact ⟨.right t, hw, rfl⟩

theorem lined_nil (a : Rhs) : (Rhs.many a).Lined [] [] := ⟨.nil, rfl, rfl⟩

theorem Rhs.Lined.cons {v : a.Value} {vs : List a.Value} (h : a.Lined w v)
    (h' : (Rhs.many a).Lined w' vs) : (Rhs.many a).Lined (w ++ w') (v :: vs) := by
  obtain ⟨t, hw, rfl⟩ := h
  obtain ⟨u, hw', rfl⟩ := h'
  have hlength : t.yield.length = w.length := by rw [hw, List.length_map]
  refine ⟨.cons t u, ?_, ?_⟩
  · rw [Derivation.yield, hw, hw', kindsOf_append]
  · rw [Derivation.lined, hlength, List.take_left, List.drop_left]

theorem lined_none (a : Rhs) : (Rhs.maybe a).Lined [] none := ⟨.none, rfl, rfl⟩

theorem Rhs.Lined.some {v : a.Value} (h : a.Lined w v) : (Rhs.maybe a).Lined w (some v) := by
  obtain ⟨t, hw, rfl⟩ := h
  exact ⟨.some t, hw, rfl⟩

/-- Each part of a row has its part of the tokens. -/
theorem lined_seq_iff {v : (Rhs.seq a b).Value} : (Rhs.seq a b).Lined w v ↔
    ∃ u u', w = u ++ u' ∧ a.Lined u v.1 ∧ b.Lined u' v.2 := by
  constructor
  · rintro ⟨t, hw, rfl⟩
    cases t with
    | seq t s =>
      obtain ⟨ht, hs⟩ := Derivation.kindsOf_split hw
      exact ⟨_, _, (List.take_append_drop t.yield.length w).symm, ⟨t, ht, rfl⟩, ⟨s, hs, rfl⟩⟩
  · rintro ⟨u, u', rfl, h, h'⟩
    exact h.seq h'

/-- A row of three parts can be grouped in two ways. -/
theorem lined_assoc {v : a.Value} {v' : b.Value} {v'' : r.Value} :
    (Rhs.seq (.seq a b) r).Lined w ((v, v'), v'') ↔
      (Rhs.seq a (.seq b r)).Lined w (v, v', v'') := by
  constructor
  · intro hall
    obtain ⟨_, u'', rfl, hfirst, h''⟩ := lined_seq_iff.mp hall
    obtain ⟨u, u', rfl, h, h'⟩ := lined_seq_iff.mp hfirst
    rw [List.append_assoc]
    exact h.seq (h'.seq h'')
  · intro hall
    obtain ⟨u, _, rfl, h, hrest⟩ := lined_seq_iff.mp hall
    obtain ⟨u', u'', rfl, h', h''⟩ := lined_seq_iff.mp hrest
    rw [← List.append_assoc]
    exact (h.seq h').seq h''

/-- Every right side that takes a token has one. -/
theorem Rhs.Lined.ne_nil {v : a.Value} (h : a.Lined w v) (ha : a.takes = true) : w ≠ [] := by
  obtain ⟨t, hw, -⟩ := h
  rintro rfl
  exact t.yield_ne_nil ha hw

end lined

end ClassLang.Grammar
