import ClassLang.Compile
import ClassLang.Proofs.Sequence

/-! # What readers keep

    A property that nodes have if their parts have it is a property of every
    tree that is read.

    * **`Reads`**: everything a reader can read has some property.
    * **`Kept`**: a property of expressions and one of statements that nodes take
      over from their parts.
    * **`expr_keeps`**, **`stmt_keeps`** and **`program_keeps`**: such properties
      hold of what is read.

    One lemma for each reader of the grammar, from the operands up. -/

namespace ClassLang

namespace Grammar

/-! ## Readers -/

/-- Everything that the reader can read has this property. -/
def Reads (reader : Parse α) (Q : α → Prop) : Prop :=
  ∀ ⦃c : Cursor⦄ ⦃a : α⦄ ⦃c' : Cursor⦄, reader c = .ok a c' → Q a

namespace Reads

variable {α β : Type} {Q : α → Prop} {R : β → Prop}

theorem pure {a : α} (h : Q a) : Reads (Pure.pure a) Q := by
  intro c b c' hb
  cases hb
  exact h

theorem bind {x : Parse α} {f : α → Parse β} (hx : Reads x Q) (hf : ∀ a, Q a → Reads (f a) R) :
    Reads (x >>= f) R := by
  intro c b c' h
  obtain ⟨a, u, ha, hb⟩ := estate_bind_ok_iff.mp h
  exact hf a (hx ha) hb

/-- The result of the first reader does not matter. -/
theorem skip {x : Parse α} {f : α → Parse β} (hf : ∀ a, Reads (f a) R) : Reads (x >>= f) R :=
  bind (Q := fun _ => True) (fun _ _ _ _ => trivial) fun a _ => hf a

theorem fail {wanted : Wanted} : Reads (Grammar.fail wanted) Q := by
  intro c a c' h
  cases h

theorem ite {p : Prop} [Decidable p] {x y : Parse α} (hx : Reads x Q) (hy : Reads y Q) :
    Reads (if p then x else y) Q := by
  split
  · exact hx
  · exact hy

/-- Repeating a step reads only what the step reads. -/
theorem collectUpTo {step : Parse (Option α)} (h : Reads step fun o => ∀ a ∈ o, Q a) :
    ∀ fuel, Reads (Grammar.collectUpTo step fuel) fun as => ∀ a ∈ as, Q a
  | 0 => .pure (by simp)
  | fuel + 1 => by
    refine bind h fun o ho => ?_
    cases o with
    | none => exact .pure (by simp)
    | some a =>
      refine bind (collectUpTo h fuel) fun rest hrest => ?_
      exact .pure (by simpa using ⟨ho a rfl, hrest⟩)

theorem collect {step : Parse (Option α)} (h : Reads step fun o => ∀ a ∈ o, Q a) :
    Reads (Grammar.collect step) fun as => ∀ a ∈ as, Q a :=
  fun c _ _ hc => collectUpTo h (c.rest.length + 1) hc

theorem manyWhile {more : Parse Bool} {item : Parse α} (h : Reads item Q) :
    Reads (Grammar.manyWhile more item) fun as => ∀ a ∈ as, Q a := by
  refine collect (skip fun b => ite (bind h fun a ha => .pure ?_) (.pure ?_))
  · rintro _ ⟨⟩
    exact ha
  · rintro _ ⟨⟩

theorem manyUntil {close : TokenKind} {item : Parse α} (h : Reads item Q) :
    Reads (Grammar.manyUntil close item) fun as => ∀ a ∈ as, Q a := by
  refine collect (skip fun b => ite (.pure ?_) (bind h fun a ha => .pure ?_))
  · rintro _ ⟨⟩
  · rintro _ ⟨⟩
    exact ha

end Reads

/-! ## Properties that nodes take over from their parts -/

/-- Nodes have these properties if their parts have them.  A receiver is a
    variable, and is no part in this sense. -/
structure Kept (Q : Expr → Prop) (R : Stmt → Prop) : Prop where
  binary : ∀ {line op left right}, Q left → Q right → Q (.binary { line } op left right)
  unary : ∀ {line op operand}, Q operand → Q (.unary { line } op operand)
  methodCall : ∀ {line receiver method args}, (∀ a ∈ args, Q a) →
    Q (.methodCall { line } (.var { line } receiver) method args)
  selfCall : ∀ {line method args}, (∀ a ∈ args, Q a) → Q (.selfCall { line } method args)
  var : ∀ {line name}, Q (.var { line } name)
  num : ∀ {line value}, Q (.num { line } value)
  bool : ∀ {line value}, Q (.bool { line } value)
  nothing : ∀ {line}, Q (.nothing { line })
  new : ∀ {line cls}, Q (.new { line } cls)
  assign : ∀ {line name value}, Q value → R (.assign line name value)
  cond : ∀ {line test body}, Q test → (∀ s ∈ body, R s) → R (.cond line test body)
  print : ∀ {line value}, Q value → R (.print line value)

/-! ## Expressions -/

section expressions

variable {Q : Expr → Prop} {R : Stmt → Prop} {operand e : Parse Expr}

/-- Operators take over from their operands. -/
theorem foldl_combine_keeps (hk : Kept Q R) {first : Expr} {rest : List (BinaryOp × Expr)}
    (hf : Q first) (hr : ∀ r ∈ rest, Q r.2) : Q (rest.foldl combine first) := by
  induction rest generalizing first with
  | nil => exact hf
  | cons r rest ih =>
    refine ih ?_ fun s hs => hr s (List.mem_cons_of_mem _ hs)
    exact hk.binary hf (hr r List.mem_cons_self)

theorem operation_keeps {level : Level} (h : Reads operand Q) :
    Reads (level.operation operand) fun o => ∀ r ∈ o, Q r.2 := by
  refine .skip fun kind => ?_
  cases kind.bind level.operator? with
  | none => exact .pure (by simp)
  | some op =>
    refine .skip fun _ => .bind h fun e he => .pure ?_
    rintro _ ⟨⟩
    exact he

theorem operations_keep {level : Level} (h : Reads operand Q) :
    Reads (level.operations operand) fun rs => ∀ r ∈ rs, Q r.2 :=
  .ite (.collect (operation_keeps h)) (.collectUpTo (operation_keeps h) 1)

theorem climb_keeps (hk : Kept Q R) (h : Reads operand Q) :
    ∀ levels, Reads (climb operand levels) Q
  | [] => h
  | _ :: tighter =>
    .bind (climb_keeps hk h tighter) fun _ hfirst =>
    .bind (operations_keep (climb_keeps hk h tighter)) fun _ hrest =>
    .pure (foldl_combine_keeps hk hfirst hrest)

theorem arguments_keep (h : Reads e Q) : Reads (arguments e) fun es => ∀ a ∈ es, Q a := by
  refine .skip fun _ => .skip fun _ => .ite (.pure (by simp)) ?_
  refine .bind h fun first hfirst => .bind (.manyWhile h) fun others hothers => .skip fun _ => ?_
  exact .pure (by simpa using ⟨hfirst, hothers⟩)

theorem afterName_keeps (hk : Kept Q R) (h : Reads e Q) (line : Nat) (name : String) :
    Reads (afterName e line name) Q := by
  refine .skip fun _ => .ite ?_ (.skip fun _ => .ite ?_ (.pure hk.var))
  · refine .skip fun method => .bind (arguments_keep h) fun args hargs => .pure ?_
    exact hk.methodCall hargs
  · refine .bind (arguments_keep h) fun args hargs => .pure ?_
    exact hk.selfCall hargs

theorem primary_keeps (hk : Kept Q R) (h : Reads e Q) : Reads (primary e) Q := by
  refine .skip fun line => .skip fun kind => ?_
  split
  · exact .skip fun _ => .pure hk.num
  · exact .skip fun _ => .pure hk.bool
  · exact .skip fun _ => .pure hk.bool
  · exact .skip fun _ => .pure hk.nothing
  · exact .skip fun _ => .skip fun _ => .pure hk.new
  -- parentheses leave no node
  · exact .skip fun _ => .bind h fun _ he => .skip fun _ => .pure he
  · exact .skip fun _ => afterName_keeps hk h _ _
  · exact .fail

theorem unary_keeps (hk : Kept Q R) : ∀ fuel, Reads (unary fuel) Q
  | 0 => .fail
  | fuel + 1 => by
    refine .skip fun line => .skip fun _ => .ite ?_ (.skip fun _ => .ite ?_ ?_)
    · exact .bind (unary_keeps hk fuel) fun e he => .pure (hk.unary he)
    · exact .bind (unary_keeps hk fuel) fun e he => .pure (hk.unary he)
    · exact primary_keeps hk (climb_keeps hk (unary_keeps hk fuel) levels)

theorem expr_keeps (hk : Kept Q R) : Reads expr Q :=
  fun c _ _ hc => climb_keeps hk (unary_keeps hk (c.rest.length + 1)) levels hc

end expressions

/-! ## Statements and declarations -/

section programs

variable {Q : Expr → Prop} {R : Stmt → Prop}

theorem stmtUpTo_keeps (hk : Kept Q R) : ∀ fuel, Reads (stmtUpTo fuel) R
  | 0 => .fail
  | fuel + 1 => by
    refine .skip fun line => .skip fun _ => .ite ?_ (.skip fun _ => .ite ?_ ?_)
    · refine .skip fun _ => .bind (expr_keeps hk) fun test ht => .skip fun _ => .skip fun _ => ?_
      exact .bind (.manyUntil (stmtUpTo_keeps hk fuel)) fun body hb => .pure (hk.cond ht hb)
    · refine .skip fun _ => .bind (expr_keeps hk) fun value hv => .skip fun _ => .skip fun _ => ?_
      exact .pure (hk.print hv)
    · refine .skip fun name => .skip fun _ => .bind (expr_keeps hk) fun value hv => ?_
      exact .skip fun _ => .pure (hk.assign hv)

theorem stmt_keeps (hk : Kept Q R) : Reads stmt R :=
  fun c _ _ hc => stmtUpTo_keeps hk (c.rest.length + 1) hc

theorem method_keeps (hk : Kept Q R) : Reads method fun m => (∀ s ∈ m.body, R s) ∧ Q m.value := by
  refine .skip fun line => .skip fun result => .skip fun name => .skip fun params => ?_
  refine .skip fun _ => .skip fun locals => .bind (.manyUntil (stmt_keeps hk)) fun body hb => ?_
  exact .bind (expr_keeps hk) fun value hv => .skip fun _ => .skip fun _ => .pure ⟨hb, hv⟩

theorem classDef_keeps (hk : Kept Q R) :
    Reads classDef fun c => ∀ m ∈ c.methods, (∀ s ∈ m.body, R s) ∧ Q m.value := by
  refine .skip fun line => .skip fun _ => .skip fun name => .skip fun superclass => ?_
  refine .skip fun _ => .skip fun fields => .bind (.manyUntil (method_keeps hk)) fun methods hm => ?_
  exact .pure hm

theorem program_keeps (hk : Kept Q R) : Reads program fun p =>
    ∀ c ∈ p.classes, ∀ m ∈ c.methods, (∀ s ∈ m.body, R s) ∧ Q m.value := by
  refine .skip fun line => .bind (.manyWhile (classDef_keeps hk)) fun classes hc => ?_
  exact .pure hc

end programs

end Grammar

namespace Program

variable {Q : Expr → Prop} {R : Stmt → Prop} {p : Program}

/-- What nodes take over from their parts holds of a program that is read from a
    token list. -/
theorem keeps_of_ofTokens (hk : Grammar.Kept Q R) {tokens : List Token}
    (h : ofTokens tokens = .ok p) :
    ∀ c ∈ p.classes, ∀ m ∈ c.methods, (∀ s ∈ m.body, R s) ∧ Q m.value := by
  unfold ofTokens at h
  cases hp : Grammar.program (.ofTokens tokens) with
  | error e c =>
    simp only [hp] at h
    cases h
  | ok q c =>
    simp only [hp, Except.ok.injEq] at h
    exact h ▸ Grammar.program_keeps hk hp

/-- A source text is read by its tokens. -/
theorem exists_ofTokens {source : String} (h : ofSource source = .ok p) :
    ∃ tokens, ofTokens tokens = .ok p := by
  unfold ofSource at h
  split at h
  · cases h
  · next tokens _ =>
    split at h
    · cases h
    · next hp =>
      cases h
      exact ⟨tokens, hp⟩

end Program

end ClassLang
