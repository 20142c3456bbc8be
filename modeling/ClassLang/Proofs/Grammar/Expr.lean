import ClassLang.Grammar.Expr
import ClassLang.Proofs.Grammar.Agree

/-! # Reading expressions by the rules

    The reader of expressions reads what the rules for them spell.

    * **`Level.Means`**: the tokens of a level of operators are those of a rule.
      **`level_agrees`** is a level around any operands, and **`climb_agrees`** are
      all five levels around the operands.
    * **`primary_agrees`** and **`unary_agrees`**: the operands.  What they hold
      inside is shorter, so this is an induction on the number of tokens.
    * **`expr_agrees`** ties the knot. -/

namespace ClassLang.Grammar

/-- The value stands for the expression. -/
abbrev Unlined (e v : Expr) : Prop := e.unlined = v

variable {n : Nat} {F G : List TokenKind → Prop}

/-! ## Operators -/

/-- The tokens of the level are those of a rule, with this meaning. -/
structure Level.Means (level : Level) (op : Rhs) (meaning : op.Value → BinaryOp) : Prop where
  takes : op.takes = true
  token : ∀ {w v w'}, op.Spells w v w' →
    ∃ k, w = k :: w' ∧ level.operator? k = some (meaning v)
  spelled : ∀ {k o}, level.operator? k = some o →
    ∀ w', ∃ v, op.Spells (k :: w') v w' ∧ meaning v = o

/-- An operation stands for an operator and an operand. -/
def Operation {op a : Rhs} (meaning : op.Value → BinaryOp) (P : Expr → a.Value → Prop)
    (o : BinaryOp × Expr) (v : op.Value × a.Value) : Prop :=
  meaning v.1 = o.1 ∧ P o.2 v.2

section levels

variable {level : Level} {op a : Rhs} {meaning : op.Value → BinaryOp} {x : Parse Expr}
  {P : Expr → a.Value → Prop}

/-- Without an operator there is no operation. -/
theorem operation_none {c c' : Cursor} (h : level.operation x c = .ok none c') : c' = c := by
  obtain ⟨k, c₁, hk, h⟩ := estate_bind_ok_iff.mp h
  cases hk
  cases hop : (c.kindAt 0).bind level.operator? with
  | none =>
    simp only [hop] at h
    cases h
    rfl
  | some o =>
    simp only [hop] at h
    obtain ⟨_, c₁, hadvance, h⟩ := estate_bind_ok_iff.mp h
    obtain ⟨e, c₂, _, hpure⟩ := estate_bind_ok_iff.mp h
    cases hpure

/-- One operator with its right operand. -/
theorem operation_steps (hm : level.Means op meaning)
    (hx : Agrees n x a ((Rhs.many (.seq op a)).Starts F) P)
    (hF : ∀ w, F w → ∀ k ∈ w.head?, level.operator? k = none) :
    Steps n (level.operation x) (.seq op a) F (Operation meaning P) where
  takes := by
    rw [Rhs.takes, hm.takes, Bool.true_or]
  sound := by
    intro c o c' h
    obtain ⟨k, c₁, hk, h⟩ := estate_bind_ok_iff.mp h
    cases hk
    cases hop : (c.kindAt 0).bind level.operator? with
    | none =>
      simp only [hop] at h
      cases h
    | some b =>
      simp only [hop] at h
      obtain ⟨_, c₁, hadvance, h⟩ := estate_bind_ok_iff.mp h
      cases hadvance
      obtain ⟨e, c₂, he, hpure⟩ := estate_bind_ok_iff.mp h
      cases hpure
      obtain ⟨k, hk, hb⟩ := Option.bind_eq_some_iff.mp hop
      obtain ⟨v, hv, rfl⟩ := hm.spelled hb c.next.kinds
      obtain ⟨u, hu, hP⟩ := hx.sound he
      rw [← Cursor.kinds_eq_cons hk] at hv
      exact ⟨(v, u), spells_seq.mpr ⟨c.next.kinds, hv, hu⟩, rfl, hP⟩
  complete := by
    intro c v w' hc hv hmore
    obtain ⟨w₁, hop, he⟩ := spells_seq.mp hv
    obtain ⟨k, hkinds, hb⟩ := hm.token hop
    have hnext : c.next.kinds = w₁ := by rw [Cursor.kinds_next, hkinds, List.tail_cons]
    obtain ⟨e, c', he, hc', hP⟩ := hx.complete (Agrees.length_lt hop hc hnext) (hnext ▸ he) hmore
    have hk : (c.kindAt 0).bind level.operator? = some (meaning v.1) := by
      rw [Cursor.kindAt_eq, hkinds]
      exact hb
    refine ⟨(meaning v.1, e), c', ?_, hc', rfl, hP⟩
    refine estate_bind_ok_iff.mpr ⟨_, c, rfl, ?_⟩
    simp only [hk]
    exact estate_bind_ok_iff.mpr ⟨(), c.next, rfl, estate_bind_ok_iff.mpr ⟨e, c', he, rfl⟩⟩
  stop := by
    intro c hc
    have hk : (c.kindAt 0).bind level.operator? = none := by
      rw [Cursor.kindAt_eq, ← List.head?_eq_getElem?]
      exact Option.bind_eq_none_iff.mpr (hF _ hc)
    refine ⟨c, estate_bind_ok_iff.mpr ⟨_, c, rfl, ?_⟩⟩
    simp only [hk]
    rfl

/-- All operations of a level that chains. -/
theorem operations_agrees (hchains : level.chains = true) (hm : level.Means op meaning)
    (hx : Agrees n x a ((Rhs.many (.seq op a)).Starts F) P)
    (hF : ∀ w, F w → ∀ k ∈ w.head?, level.operator? k = none) :
    Agrees n (level.operations x) (.many (.seq op a)) F
      (List.Forall₂ (Operation meaning P)) := by
  rw [Level.operations, if_pos hchains]
  exact (operation_steps hm hx hF).collect operation_none

/-- At most one operation of a level that does not. -/
theorem operation_agrees (hchains : level.chains = false) (hm : level.Means op meaning)
    (hx : Agrees n x a ((Rhs.many (.seq op a)).Starts F) P)
    (hF : ∀ w, F w → ∀ k ∈ w.head?, level.operator? k = none) :
    Agrees n (level.operations x) (.maybe (.seq op a)) F
      fun os (v : Option (op.Value × a.Value)) =>
        List.Forall₂ (Operation meaning P) os v.toList := by
  have hsteps := operation_steps hm hx hF
  rw [Level.operations, hchains]
  refine ⟨?_, ?_⟩
  · intro c os c' h
    obtain ⟨o, c₁, ho, h⟩ := estate_bind_ok_iff.mp h
    cases o with
    | none =>
      cases operation_none ho
      cases h
      exact ⟨none, spells_maybe.mpr (Or.inl ⟨rfl, rfl⟩), .nil⟩
    | some o =>
      obtain ⟨rest, c₂, hrest, hpure⟩ := estate_bind_ok_iff.mp h
      cases hrest
      cases hpure
      obtain ⟨v, hv, hP⟩ := hsteps.sound ho
      exact ⟨some v, spells_maybe.mpr (Or.inr ⟨v, rfl, hv⟩), .cons hP .nil⟩
  · intro c v w' hc hv hw'
    rcases spells_maybe.mp hv with ⟨rfl, hkinds⟩ | ⟨u, rfl, hu⟩
    · obtain ⟨c', hstop⟩ := hsteps.stop (hkinds ▸ hw')
      cases operation_none hstop
      exact ⟨[], c, estate_bind_ok_iff.mpr ⟨none, c, hstop, rfl⟩, hkinds, .nil⟩
    · obtain ⟨o, c', ho, hc', hP⟩ := hsteps.complete hc hu (starts_many.mpr (Or.inl hw'))
      refine ⟨[o], c', ?_, hc', .cons hP .nil⟩
      refine estate_bind_ok_iff.mpr ⟨some o, c', ho, ?_⟩
      exact estate_bind_ok_iff.mpr ⟨[], c', rfl, rfl⟩

end levels

/-- The left operand of a level, and its operations. -/
theorem climb_cons_agrees {level : Level} {tighter : List Level} {operand : Parse Expr}
    {op a b : Rhs} {meaning : op.Value → BinaryOp} {P : Expr → a.Value → Prop}
    {items : b.Value → List (op.Value × a.Value)}
    (hx : Agrees n (climb operand tighter) a (b.Starts F) P)
    (hops : Agrees n (level.operations (climb operand tighter)) b F
      fun os v => List.Forall₂ (Operation meaning P) os (items v)) :
    Agrees n (climb operand (level :: tighter)) (.seq a b) F fun e v =>
      ∃ first, P first v.1 ∧ ∃ os, List.Forall₂ (Operation meaning P) os (items v.2) ∧
        e = os.foldl combine first := by
  refine hx.bind (Q := fun first e v =>
    ∃ os, List.Forall₂ (Operation meaning P) os (items v) ∧ e = os.foldl combine first) ?_
  intro first
  exact hops.map fun os v hall => ⟨os, hall, rfl⟩

/-- Both the reader and the rules associate to the left. -/
theorem unlined_foldl_combine {α : Type} (meaning : α → BinaryOp) {first v : Expr}
    {os : List (BinaryOp × Expr)} {vs : List (α × Expr)} (hfirst : Unlined first v)
    (hall : List.Forall₂ (fun o u => meaning u.1 = o.1 ∧ Unlined o.2 u.2) os vs) :
    Unlined (os.foldl combine first) (leftward meaning v vs) := by
  induction hall generalizing first v with
  | nil => exact hfirst
  | @cons o u os vs ho _ ih =>
    refine ih ?_
    rw [combine, Unlined, Expr.unlined, hfirst, ho.2, ← ho.1]
    rfl

/-! ### The five levels -/

/-- A token that stands for an operator on a level with one operator. -/
theorem means_token {level : Level} {k : TokenKind} {o : BinaryOp}
    (h : ∀ k' o', level.operator? k' = some o' ↔ k' = k ∧ o' = o) :
    level.Means (.token k) fun _ => o where
  takes := rfl
  token := by
    intro w v w' hv
    exact ⟨k, spells_token.mp hv, (h k o).mpr ⟨rfl, rfl⟩⟩
  spelled := by
    intro k' o' hk w'
    obtain ⟨rfl, rfl⟩ := (h k' o').mp hk
    exact ⟨(), spells_token.mpr rfl, rfl⟩

/-- Two tokens that stand for operators on a level. -/
theorem means_either {level : Level} {k l : TokenKind} {o p : BinaryOp}
    (h : ∀ k' o', level.operator? k' = some o' ↔ (k' = k ∧ o' = o) ∨ (k' = l ∧ o' = p)) :
    level.Means (oneOf (.token k) [.token l]) (either o p) where
  takes := rfl
  token := by
    intro w v w' hv
    rcases spells_alt.mp hv with ⟨u, rfl, hu⟩ | ⟨u, rfl, hu⟩
    · exact ⟨k, spells_token.mp hu, (h k o).mpr (Or.inl ⟨rfl, rfl⟩)⟩
    · exact ⟨l, spells_token.mp hu, (h l p).mpr (Or.inr ⟨rfl, rfl⟩)⟩
  spelled := by
    intro k' o' hk w'
    rcases (h k' o').mp hk with ⟨rfl, rfl⟩ | ⟨rfl, rfl⟩
    · exact ⟨.inl (), (spells_token.mpr rfl : (Rhs.token k').Spells _ () w').left, rfl⟩
    · exact ⟨.inr (), (spells_token.mpr rfl : (Rhs.token k').Spells _ () w').right, rfl⟩

/-- The operators of the five levels. -/
theorem means_and : Level.Means levels[0] (.token .and) fun _ => .and :=
  means_token fun k o => by cases k <;> simp [levels, eq_comm]

theorem means_equality :
    Level.Means levels[1] (oneOf (.token .doubleEqual) [.token .notEqual]) (either .equal .notEqual) :=
  means_either fun k o => by cases k <;> simp [levels, eq_comm]

theorem means_relational : Level.Means levels[2] (oneOf (.token .lessThan) [.token .lessEqual])
    (either .lessThan .lessEqual) :=
  means_either fun k o => by cases k <;> simp [levels, eq_comm]

theorem means_add :
    Level.Means levels[3] (oneOf (.token .plus) [.token .minus]) (either .add .sub) :=
  means_either fun k o => by cases k <;> simp [levels, eq_comm]

theorem means_mul :
    Level.Means levels[4] (oneOf (.token .star) [.token .slash]) (either .mul .div) :=
  means_either fun k o => by cases k <;> simp [levels, eq_comm]

/-- Behind an expression there is no operator that its level could go on with. -/
theorem operator_none {level : Level} {op : Rhs} {meaning : op.Value → BinaryOp}
    {clash : List TokenKind} (hm : level.Means op meaning)
    (hops : ∀ {F w}, op.Starts F w → ∃ k w', w = k :: w' ∧ k ∈ clash) :
    ∀ w, Avoids clash w → ∀ k ∈ w.head?, level.operator? k = none := by
  intro w hw k hk
  cases ho : level.operator? k with
  | none => rfl
  | some o =>
    obtain ⟨v, hv, _⟩ := hm.spelled ho []
    obtain ⟨k', w', heq, hmem⟩ := hops (hv.starts (F := fun _ => True) trivial)
    cases heq
    exact absurd hmem (hw k hk)

/-- A level that chains, around the tighter ones. -/
theorem level_agrees {level : Level} {tighter : List Level} {operand : Parse Expr} {lower : Sym}
    {op : Rhs} {meaning : op.Value → BinaryOp} {ops clash : List TokenKind}
    {P : Expr → (Rhs.sym lower).Value → Prop} (hchains : level.chains = true) (hm : level.Means op meaning)
    (hops : ∀ {F w}, op.Starts F w → ∃ k w', w = k :: w' ∧ k ∈ ops)
    (hx : Agrees n (climb operand tighter) (.sym lower) lower.Follow P)
    (hp : (chain lower op).Predictive (Avoids (ops ++ clash))) :
    Agrees n (climb operand (level :: tighter)) (chain lower op) (Avoids (ops ++ clash)) fun e v =>
      ∃ first, P first v.1 ∧ ∃ os, List.Forall₂ (Operation meaning P) os v.2 ∧
        e = os.foldl combine first := by
  have hx := hx.before hp.1
  have hnone : ∀ w, Avoids (ops ++ clash) w → ∀ k ∈ w.head?, level.operator? k = none := by
    refine operator_none hm fun h => ?_
    obtain ⟨k, w', hw, hk⟩ := hops h
    exact ⟨k, w', hw, List.mem_append_left _ hk⟩
  exact climb_cons_agrees hx (operations_agrees hchains hm hx hnone)

section climb

variable {operand : Parse Expr}

theorem mul_agrees (h : Agrees n operand (.sym .unary) Sym.unary.Follow Unlined) :
    Agrees n (climb operand (levels.drop 4)) (.sym .mul) Sym.mul.Follow Unlined := by
  refine (level_agrees rfl means_mul operator_either h (rules_predictive .mul)).sym ?_
  rintro e v ⟨first, hfirst, os, hall, rfl⟩
  exact unlined_foldl_combine _ hfirst hall

theorem add_agrees (h : Agrees n operand (.sym .unary) Sym.unary.Follow Unlined) :
    Agrees n (climb operand (levels.drop 3)) (.sym .add) Sym.add.Follow Unlined := by
  refine (level_agrees rfl means_add operator_either (mul_agrees h) (rules_predictive .add)).sym ?_
  rintro e v ⟨first, hfirst, os, hall, rfl⟩
  exact unlined_foldl_combine _ hfirst hall

/-- At most one comparison stands between two sums. -/
theorem relational_agrees (h : Agrees n operand (.sym .unary) Sym.unary.Follow Unlined) :
    Agrees n (climb operand (levels.drop 2)) (.sym .relational) Sym.relational.Follow Unlined := by
  have hnone : ∀ w, Sym.relational.Follow w → ∀ k ∈ w.head?, levels[2].operator? k = none := by
    refine operator_none means_relational fun h => ?_
    obtain ⟨k, w', hw, hk⟩ := operator_either h
    exact ⟨k, w', hw, List.mem_append_left _ (List.mem_append_left _ (List.mem_append_left _ hk))⟩
  have hfirst := (add_agrees h).before (rules_predictive .relational).1
  have hfollow : ∀ w, (Rhs.many (.seq (oneOf (.token .lessThan) [.token .lessEqual])
      (.sym .add))).Starts Sym.relational.Follow w → Sym.add.Follow w := by
    intro w hw
    exact avoids_of_operator operator_either (by decide) (starts_many.mp hw)
  have hsecond := (add_agrees h).before hfollow
  have hops := operation_agrees rfl means_relational hsecond hnone
  refine (climb_cons_agrees hfirst hops).sym ?_
  rintro e v ⟨first, hfirst, os, hall, rfl⟩
  exact unlined_foldl_combine _ hfirst hall

theorem equality_agrees (h : Agrees n operand (.sym .unary) Sym.unary.Follow Unlined) :
    Agrees n (climb operand (levels.drop 1)) (.sym .equality) Sym.equality.Follow Unlined := by
  refine (level_agrees rfl means_equality operator_either (relational_agrees h)
    (rules_predictive .equality)).sym ?_
  rintro e v ⟨first, hfirst, os, hall, rfl⟩
  exact unlined_foldl_combine _ hfirst hall

/-- All levels around the operands. -/
theorem climb_agrees (h : Agrees n operand (.sym .unary) Sym.unary.Follow Unlined) :
    Agrees n (climb operand levels) (.sym .expr) Sym.expr.Follow Unlined := by
  refine (level_agrees rfl means_and operator_token (equality_agrees h) (rules_predictive .expr)).sym ?_
  rintro e v ⟨first, hfirst, os, hall, rfl⟩
  exact unlined_foldl_combine (fun _ => .and) hfirst hall

end climb

/-! ## Operands -/

section operands

variable {e : Parse Expr}

/-- The arguments of a call in their parentheses. -/
theorem arguments_agrees (he : Agrees n e (.sym .expr) Sym.expr.Follow Unlined) :
    Agrees (n + 1) (arguments e) (enclosed (.sym .args)) F
      fun es (v : Unit × Option (List Expr) × Unit) => es.map Expr.unlined = v.2.1.getD [] := by
  have hfollow : ∀ w, (Rhs.token .closeParen).Starts F w → Sym.args.Follow w := by
    intro w h
    obtain ⟨w', rfl, _⟩ := starts_token.mp h
    exact ⟨w', rfl⟩
  have hexpr : Agrees n e (.sym .expr) ((Rhs.many (inRow (.token .comma) [.sym .expr])).Starts
      ((Rhs.token .closeParen).Starts F)) Unlined := by
    refine he.before fun w h => ?_
    exact (rules_predictive .args).1 w (h.mono hfollow)
  have hrow := (Agrees.row (by decide) hexpr).sym_seq (s := .args)
    (Q := fun es v => es.map Expr.unlined = v.1) fun es v u hall => map_eq_of_forall₂ hall
  have hstart : ∀ w, (Rhs.sym .args).Starts ((Rhs.token .closeParen).Starts F) w →
      Avoids [.closeParen] w :=
    fun w h => avoids_of_first (Rhs.Starts.expr (starts_seq.mp (starts_sym.mp h))) rfl
  have hall := Agrees.enclosed hrow hstart
  refine hall.weaken ?_
  rintro es ⟨_, given, _⟩ hes
  cases given with
  | none =>
    have hes : es = [] := hes
    rw [hes]
    rfl
  | some vs => exact hes

/-- What follows a name: a method of an object, a call, or nothing. -/
theorem afterName_sound (he : Agrees n e (.sym .expr) Sym.expr.Follow Unlined) {line : Nat}
    {name : String} {c c' : Cursor} {x : Expr} {w : List TokenKind}
    (hw : w = .ident name :: c.kinds) (h : afterName e line name c = .ok x c') :
    ∃ v, (rules .primary).Spells w v c'.kinds ∧ Unlined x (Sym.primary.build v) := by
  have hargs := arguments_agrees (F := fun _ => True) he
  have hname : Rhs.ident.Spells w name c.kinds := spells_ident.mpr hw
  rcases accept_bind_ok_iff.mp h with ⟨hdot, h⟩ | ⟨_, h⟩
  · obtain ⟨method, c₂, hmethod, h⟩ := estate_bind_ok_iff.mp h
    obtain ⟨es, c₃, hes, hpure⟩ := estate_bind_ok_iff.mp h
    cases hpure
    obtain ⟨m, hm, rfl⟩ := (Agrees.ident (n := n) (F := fun _ => True)).sound hmethod
    obtain ⟨v, hv, hP⟩ := hargs.sound hes
    have hcall : (inRow .ident [.token .dot, .ident, enclosed (.sym .args)]).Spells w
        (name, (), method, v) c'.kinds :=
      spells_seq.mpr ⟨_, hname, spells_seq.mpr ⟨_, spells_token.mpr (Cursor.kinds_eq_cons hdot),
        spells_seq.mpr ⟨_, hm, hv⟩⟩⟩
    refine ⟨.inr (.inr (.inr (.inr (.inr (.inl (name, (), method, v)))))),
      .right (.right (.right (.right (.right (.left hcall))))), ?_⟩
    show Expr.unlined (.methodCall _ _ _ _) = _
    rw [Expr.unlined, Expr.unlinedAll_eq_map, hP]
    rfl
  · obtain ⟨k, c₂, hk, h⟩ := estate_bind_ok_iff.mp h
    cases hk
    split at h
    · obtain ⟨es, c₃, hes, hpure⟩ := estate_bind_ok_iff.mp h
      cases hpure
      obtain ⟨v, hv, hP⟩ := hargs.sound hes
      have hcall : (inRow .ident [enclosed (.sym .args)]).Spells w (name, v) c'.kinds :=
        spells_seq.mpr ⟨_, hname, hv⟩
      refine ⟨.inr (.inr (.inr (.inr (.inr (.inr (.inl (name, v))))))),
        .right (.right (.right (.right (.right (.right (.left hcall)))))), ?_⟩
      show Expr.unlined (.selfCall _ _ _) = _
      rw [Expr.unlined, Expr.unlinedAll_eq_map, hP]
      rfl
    · cases h
      exact ⟨.inr (.inr (.inr (.inr (.inr (.inr (.inr (.inl name))))))),
        .right (.right (.right (.right (.right (.right (.right (.left hname))))))), rfl⟩

/-- What is read without operators is spelled so. -/
theorem primary_sound (he : Agrees n e (.sym .expr) Sym.expr.Follow Unlined) {c c' : Cursor}
    {x : Expr} (h : primary e c = .ok x c') :
    ∃ v, (rules .primary).Spells c.kinds v c'.kinds ∧ Unlined x (Sym.primary.build v) := by
  obtain ⟨line, c₁, hline, h⟩ := estate_bind_ok_iff.mp h
  cases hline
  obtain ⟨k, c₁, hk, h⟩ := estate_bind_ok_iff.mp h
  cases hk
  cases hk : c.kindAt 0 with
  | none =>
    rw [hk] at h
    cases h
  | some k =>
    have hkinds := Cursor.kinds_eq_cons hk
    rw [hk] at h
    cases k with
    | num value =>
      cases h
      exact ⟨.inl value, .left (spells_int.mpr hkinds), rfl⟩
    | true =>
      cases h
      exact ⟨.inr (.inl ()), .right (.left (spells_token.mpr hkinds)), rfl⟩
    | false =>
      cases h
      exact ⟨.inr (.inr (.inl ())), .right (.right (.left (spells_token.mpr hkinds))), rfl⟩
    | nothing =>
      cases h
      exact ⟨.inr (.inr (.inr (.inl ()))),
        .right (.right (.right (.left (spells_token.mpr hkinds)))), rfl⟩
    | new =>
      obtain ⟨_, c₁, hadvance, h⟩ := estate_bind_ok_iff.mp h
      cases hadvance
      obtain ⟨cls, c₂, hcls, hpure⟩ := estate_bind_ok_iff.mp h
      cases hpure
      obtain ⟨name, hname, rfl⟩ := (Agrees.ident (n := n) (F := fun _ => True)).sound hcls
      have hnew : (inRow (.token .new) [.ident]).Spells c.kinds ((), cls) c'.kinds :=
        spells_seq.mpr ⟨_, spells_token.mpr hkinds, hname⟩
      exact ⟨.inr (.inr (.inr (.inr (.inl ((), cls))))),
        .right (.right (.right (.right (.left hnew)))), rfl⟩
    | openParen =>
      obtain ⟨_, c₁, hadvance, h⟩ := estate_bind_ok_iff.mp h
      cases hadvance
      obtain ⟨inner, c₂, hinner, h⟩ := estate_bind_ok_iff.mp h
      obtain ⟨_, c₃, hclose, hpure⟩ := estate_bind_ok_iff.mp h
      cases hpure
      obtain ⟨v, hv, hP⟩ := he.sound hinner
      obtain ⟨_, hend, _⟩ := (Agrees.expect (n := n) (F := fun _ => True)).sound hclose
      have hparen : (inRow (.token .openParen) [.sym .expr, .token .closeParen]).Spells c.kinds
          ((), v, ()) c'.kinds :=
        spells_seq.mpr ⟨_, spells_token.mpr hkinds, spells_seq.mpr ⟨_, hv, hend⟩⟩
      exact ⟨.inr (.inr (.inr (.inr (.inr (.inr (.inr (.inr ((), v, ())))))))),
        .right (.right (.right (.right (.right (.right (.right (.right hparen))))))), hP⟩
    | ident name =>
      obtain ⟨_, c₁, hadvance, h⟩ := estate_bind_ok_iff.mp h
      cases hadvance
      exact afterName_sound he hkinds h
    | _ => cases h

/-- A method of an object is read behind its name. -/
theorem afterName_method (he : Agrees n e (.sym .expr) Sym.expr.Follow Unlined) (line : Nat)
    {name m : String} {v : Unit × Option (List Expr) × Unit} {c : Cursor} {w' : List TokenKind}
    (hc : c.rest.length < n)
    (hv : (inRow (.token .dot) [.ident, enclosed (.sym .args)]).Spells c.kinds ((), m, v) w') :
    ∃ x c', afterName e line name c = .ok x c' ∧ c'.kinds = w' ∧
      Unlined x (.methodCall { line := 0 } (.var { line := 0 } name) m (v.2.1.getD [])) := by
  obtain ⟨_, hdot, hv⟩ := spells_seq.mp hv
  obtain ⟨_, hm, hv⟩ := spells_seq.mp hv
  obtain ⟨hk, hnext⟩ := Cursor.of_kinds (spells_token.mp hdot)
  have hlt := Agrees.length_lt hdot hc hnext
  rw [← hnext] at hm
  obtain ⟨m, c₂, hmethod, hc₂, rfl⟩ := (Agrees.ident (F := fun _ => True)).complete hlt hm trivial
  have hlt₂ := Agrees.length_lt hm hlt hc₂
  obtain ⟨es, c', hes, hc', hP⟩ := (arguments_agrees (F := fun _ => True) he).complete
    (Nat.lt_succ_of_lt hlt₂) (hc₂ ▸ hv) trivial
  refine ⟨.methodCall { line } (.var { line } name) m es, c',
    accept_bind_ok_iff.mpr (Or.inl ⟨hk, ?_⟩), hc', ?_⟩
  · refine estate_bind_ok_iff.mpr ⟨m, c₂, hmethod, ?_⟩
    exact estate_bind_ok_iff.mpr ⟨es, c', hes, rfl⟩
  · rw [Unlined, Expr.unlined, Expr.unlinedAll_eq_map, hP]
    rfl

/-- The arguments of a call are read behind its name. -/
theorem afterName_call (he : Agrees n e (.sym .expr) Sym.expr.Follow Unlined) (line : Nat)
    {name : String} {v : Unit × Option (List Expr) × Unit} {c : Cursor} {w' : List TokenKind}
    (hc : c.rest.length < n) (hv : (enclosed (.sym .args)).Spells c.kinds v w') :
    ∃ x c', afterName e line name c = .ok x c' ∧ c'.kinds = w' ∧
      Unlined x (.selfCall { line := 0 } name (v.2.1.getD [])) := by
  obtain ⟨es, c', hes, hc', hP⟩ := (arguments_agrees (F := fun _ => True) he).complete
    (Nat.lt_succ_of_lt hc) hv trivial
  obtain ⟨_, hopen, _⟩ := spells_seq.mp hv
  obtain ⟨hk, _⟩ := Cursor.of_kinds (spells_token.mp hopen)
  have hdot : c.kindAt 0 ≠ some .dot := by
    rw [hk]
    decide
  refine ⟨.selfCall { line } name es, c', accept_bind_ok_iff.mpr (Or.inr ⟨hdot, ?_⟩), hc', ?_⟩
  · refine estate_bind_ok_iff.mpr ⟨_, c, rfl, ?_⟩
    rw [if_pos hk]
    exact estate_bind_ok_iff.mpr ⟨es, c', hes, rfl⟩
  · rw [Unlined, Expr.unlined, Expr.unlinedAll_eq_map, hP]
    rfl

/-- Nothing is read behind the name of a variable. -/
theorem afterName_alone (e : Parse Expr) (line : Nat) (name : String) {c : Cursor}
    (hF : Sym.primary.Follow c.kinds) : afterName e line name c = .ok (.var { line } name) c := by
  have havoids : Avoids [.dot, .openParen] c.kinds := hF
  have hdot : c.kindAt 0 ≠ some .dot := havoids.kindAt_ne (by simp)
  have hopen : c.kindAt 0 ≠ some .openParen := havoids.kindAt_ne (by simp)
  refine accept_bind_ok_iff.mpr (Or.inr ⟨hdot, estate_bind_ok_iff.mpr ⟨_, c, rfl, ?_⟩⟩)
  rw [if_neg hopen]
  rfl

theorem primary_of_name {c c' : Cursor} {name : String} {x : Expr}
    (hk : c.kindAt 0 = some (.ident name)) (h : afterName e c.line name c.next = .ok x c') :
    primary e c = .ok x c' := by
  refine estate_bind_ok_iff.mpr ⟨_, c, rfl, estate_bind_ok_iff.mpr ⟨_, c, rfl, ?_⟩⟩
  rw [hk]
  exact estate_bind_ok_iff.mpr ⟨(), c.next, rfl, h⟩

/-- What the rules spell without operators is read. -/
theorem primary_complete (he : Agrees n e (.sym .expr) Sym.expr.Follow Unlined) {c : Cursor}
    {v : (rules .primary).Value} {w' : List TokenKind} (hc : c.rest.length < n + 1)
    (hv : (rules .primary).Spells c.kinds v w') (hF : Sym.primary.Follow w') :
    ∃ x c', primary e c = .ok x c' ∧ c'.kinds = w' ∧ Unlined x (Sym.primary.build v) := by
  rcases v with value | _ | _ | _ | ⟨_, cls⟩ | ⟨name, _, m, v⟩ | ⟨name, v⟩ | name | ⟨_, v, _⟩
  -- a literal is one token
  · obtain ⟨hk, hnext⟩ := Cursor.of_kinds (spells_int.mp (spells_inl.mp hv))
    refine ⟨.num { line := c.line } value, c.next, ?_, hnext, rfl⟩
    exact estate_bind_ok_iff.mpr ⟨_, c, rfl, estate_bind_ok_iff.mpr ⟨_, c, rfl, hk ▸ rfl⟩⟩
  · have hv := spells_inl.mp (spells_inr.mp hv)
    obtain ⟨hk, hnext⟩ := Cursor.of_kinds (spells_token.mp hv)
    refine ⟨.bool { line := c.line } true, c.next, ?_, hnext, rfl⟩
    exact estate_bind_ok_iff.mpr ⟨_, c, rfl, estate_bind_ok_iff.mpr ⟨_, c, rfl, hk ▸ rfl⟩⟩
  · have hv := spells_inl.mp (spells_inr.mp (spells_inr.mp hv))
    obtain ⟨hk, hnext⟩ := Cursor.of_kinds (spells_token.mp hv)
    refine ⟨.bool { line := c.line } false, c.next, ?_, hnext, rfl⟩
    exact estate_bind_ok_iff.mpr ⟨_, c, rfl, estate_bind_ok_iff.mpr ⟨_, c, rfl, hk ▸ rfl⟩⟩
  · have hv := spells_inl.mp (spells_inr.mp (spells_inr.mp (spells_inr.mp hv)))
    obtain ⟨hk, hnext⟩ := Cursor.of_kinds (spells_token.mp hv)
    refine ⟨.nothing { line := c.line }, c.next, ?_, hnext, rfl⟩
    exact estate_bind_ok_iff.mpr ⟨_, c, rfl, estate_bind_ok_iff.mpr ⟨_, c, rfl, hk ▸ rfl⟩⟩
  · have hv := spells_inl.mp (spells_inr.mp (spells_inr.mp (spells_inr.mp (spells_inr.mp hv))))
    obtain ⟨_, hnew, hv⟩ := spells_seq.mp hv
    have hkinds := spells_token.mp hnew
    obtain ⟨hk, hnext⟩ := Cursor.of_kinds hkinds
    obtain ⟨cls, c', hcls, hc', rfl⟩ := (Agrees.ident (F := fun _ => True)).complete
      (Cursor.next_lt hkinds hc) (hnext ▸ hv) trivial
    refine ⟨.new { line := c.line } cls, c', ?_, hc', rfl⟩
    refine estate_bind_ok_iff.mpr ⟨_, c, rfl, estate_bind_ok_iff.mpr ⟨_, c, rfl, ?_⟩⟩
    rw [hk]
    refine estate_bind_ok_iff.mpr ⟨(), c.next, rfl, ?_⟩
    exact estate_bind_ok_iff.mpr ⟨_, c', hcls, rfl⟩
  -- three alternatives start with a name
  · have hv := spells_inl.mp (spells_inr.mp (spells_inr.mp (spells_inr.mp (spells_inr.mp
      (spells_inr.mp hv)))))
    obtain ⟨_, hname, hv⟩ := spells_seq.mp hv
    have hkinds := spells_ident.mp hname
    obtain ⟨hk, hnext⟩ := Cursor.of_kinds hkinds
    obtain ⟨x, c', hx, hc', hP⟩ :=
      afterName_method he c.line (Cursor.next_lt hkinds hc) (hnext ▸ hv)
    exact ⟨x, c', primary_of_name hk hx, hc', hP⟩
  · have hv := spells_inl.mp (spells_inr.mp (spells_inr.mp (spells_inr.mp (spells_inr.mp
      (spells_inr.mp (spells_inr.mp hv))))))
    obtain ⟨_, hname, hv⟩ := spells_seq.mp hv
    have hkinds := spells_ident.mp hname
    obtain ⟨hk, hnext⟩ := Cursor.of_kinds hkinds
    obtain ⟨x, c', hx, hc', hP⟩ :=
      afterName_call he c.line (Cursor.next_lt hkinds hc) (hnext ▸ hv)
    exact ⟨x, c', primary_of_name hk hx, hc', hP⟩
  · have hv := spells_inl.mp (spells_inr.mp (spells_inr.mp (spells_inr.mp (spells_inr.mp
      (spells_inr.mp (spells_inr.mp (spells_inr.mp hv)))))))
    obtain ⟨hk, hnext⟩ := Cursor.of_kinds (spells_ident.mp hv)
    have hx := afterName_alone e c.line name (hnext ▸ hF)
    exact ⟨.var { line := c.line } name, c.next, primary_of_name hk hx, hnext, rfl⟩
  -- parentheses start over
  · have hv := spells_inr.mp (spells_inr.mp (spells_inr.mp (spells_inr.mp (spells_inr.mp
      (spells_inr.mp (spells_inr.mp (spells_inr.mp hv)))))))
    obtain ⟨_, hopen, hv⟩ := spells_seq.mp hv
    obtain ⟨_, hv, hclose⟩ := spells_seq.mp hv
    have hkinds := spells_token.mp hopen
    obtain ⟨hk, hnext⟩ := Cursor.of_kinds hkinds
    have hfollow : Sym.expr.Follow _ :=
      avoids_of_token (by decide) (hclose.starts (F := fun _ => True) trivial)
    obtain ⟨x, c₂, hx, hc₂, hP⟩ :=
      he.complete (Cursor.next_lt hkinds hc) (hnext ▸ hv) hfollow
    obtain ⟨hkclose, hlast⟩ := Cursor.of_kinds (hc₂.trans (spells_token.mp hclose))
    refine ⟨x, c₂.next, ?_, hlast, hP⟩
    refine estate_bind_ok_iff.mpr ⟨_, c, rfl, estate_bind_ok_iff.mpr ⟨_, c, rfl, ?_⟩⟩
    rw [hk]
    refine estate_bind_ok_iff.mpr ⟨(), c.next, rfl, estate_bind_ok_iff.mpr ⟨x, c₂, hx, ?_⟩⟩
    exact estate_bind_ok_iff.mpr ⟨(), c₂.next, if_pos hkclose, rfl⟩

/-- Operands without operators. -/
theorem primary_agrees (he : Agrees n e (.sym .expr) Sym.expr.Follow Unlined) :
    Agrees (n + 1) (primary e) (.sym .primary) Sym.primary.Follow Unlined := by
  have hrule : Agrees (n + 1) (primary e) (rules .primary) Sym.primary.Follow
      fun x v => Unlined x (Sym.primary.build v) :=
    ⟨primary_sound he, primary_complete he⟩
  exact hrule.sym fun _ _ hP => hP

end operands

section regrouping

variable {a b r : Rhs} {w w' : List TokenKind}

/-- An alternative in front of a row is an alternative of rows. -/
theorem spells_left_seq {x : a.Value} {y : r.Value} :
    (Rhs.seq (.alt a b) r).Spells w (.inl x, y) w' ↔ (Rhs.seq a r).Spells w (x, y) w' := by
  constructor
  · intro h
    obtain ⟨u, hx, hy⟩ := spells_seq.mp h
    exact spells_seq.mpr ⟨u, spells_inl.mp hx, hy⟩
  · intro h
    obtain ⟨u, hx, hy⟩ := spells_seq.mp h
    exact spells_seq.mpr ⟨u, hx.left, hy⟩

theorem spells_right_seq {x : b.Value} {y : r.Value} :
    (Rhs.seq (.alt a b) r).Spells w (.inr x, y) w' ↔ (Rhs.seq b r).Spells w (x, y) w' := by
  constructor
  · intro h
    obtain ⟨u, hx, hy⟩ := spells_seq.mp h
    exact spells_seq.mpr ⟨u, spells_inr.mp hx, hy⟩
  · intro h
    obtain ⟨u, hx, hy⟩ := spells_seq.mp h
    exact spells_seq.mpr ⟨u, hx.right, hy⟩

end regrouping

/-- Operands with the operators in front of them. -/
theorem unary_agrees : ∀ fuel, Agrees fuel (unary fuel) (.sym .unary) Sym.unary.Follow Unlined
  | 0 => by
    refine ⟨?_, ?_⟩
    · intro c x c' h
      cases h
    · intro c v w' hc
      exact absurd hc (Nat.not_lt_zero _)
  | fuel + 1 => by
    have ih := unary_agrees fuel
    have hop : ∀ line op, Agrees fuel (do return .unary { line } op (← unary fuel)) (.sym .unary)
        Sym.unary.Follow fun e (v : Expr) => Unlined e (.unary { line := 0 } op v) := by
      intro line op
      refine ih.map fun e v he => ?_
      rw [Unlined, Expr.unlined, he]
      rfl
    have hprimary : ∀ {k w}, startsPrimary k = false →
        (Rhs.sym .primary).Starts Sym.unary.Follow w → Avoids [k] w :=
      fun hk h => avoids_of_first (Rhs.Starts.primary h) hk
    have hnot : ∀ w, (Rhs.alt (.seq (.token .not) (.sym .unary)) (.sym .primary)).Starts
        Sym.unary.Follow w → Avoids [.minus] w := by
      intro w h
      rcases starts_alt.mp h with h | h
      · exact avoids_of_token (by decide) (starts_seq.mp h)
      · exact hprimary rfl h
    -- the reader looks for the two operators one after the other
    have hrule := fun line => Agrees.accept (hop line .neg) (Agrees.accept (hop line .not)
      (primary_agrees (climb_agrees ih)) fun w => hprimary rfl) hnot
    have hregroup := fun line => (hrule line).congr (b := rules .unary)
      (Q := fun e v => Unlined e (Sym.unary.build v)) ?_ ?_
    · exact (Agrees.line hregroup).sym fun _ _ ⟨_, hP⟩ => hP
    · rintro w (⟨_, v⟩ | ⟨_, v⟩ | v) w' hv
      · exact ⟨.inl (.inl (), v), (spells_left_seq.mpr (spells_inl.mp hv)).left, fun _ hP => hP⟩
      · exact ⟨.inl (.inr (), v), (spells_right_seq.mpr (spells_inl.mp (spells_inr.mp hv))).left,
          fun _ hP => hP⟩
      · exact ⟨.inr v, (spells_inr.mp (spells_inr.mp hv)).right, fun _ hP => hP⟩
    · rintro w (⟨_ | _, v⟩ | v) w' hv
      · exact ⟨.inl ((), v), (spells_left_seq.mp (spells_inl.mp hv)).left, fun _ hP => hP⟩
      · exact ⟨.inr (.inl ((), v)), (spells_right_seq.mp (spells_inl.mp hv)).left.right,
          fun _ hP => hP⟩
      · exact ⟨.inr (.inr v), (spells_inr.mp hv).right.right, fun _ hP => hP⟩

/-- The reader of expressions. -/
theorem expr_agrees : Agrees n expr (.sym .expr) Sym.expr.Follow Unlined where
  sound := by
    intro c x c' h
    exact (climb_agrees (unary_agrees (c.rest.length + 1))).sound h
  complete := by
    intro c v w' _ hv hF
    exact (climb_agrees (unary_agrees (c.rest.length + 1))).complete (Nat.lt_succ_self _) hv hF

end ClassLang.Grammar
