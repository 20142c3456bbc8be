import ClassLang.Proofs.Grammar.Kept
import ClassLang.Proofs.Typing.Erase
import ClassLang.Proofs.Typing.Places

/-! # Trees that are read

    Two properties of all trees that come from a source text.

    * **`Program.erase_of_ofTokens`** and **`erase_of_ofSource`**: they are bare,
      that is, they record nothing but lines.  So a checker never meets an
      attribute that it did not set itself.
    * **`Program.receivers_of_ofTokens`**: methods are called on variables only. -/

namespace ClassLang

/-! ## Bare trees -/

namespace Grammar

/-- The expression records nothing but lines. -/
def Bare (e : Expr) : Prop := e.erase = e

/-- A list does not change where none of its items does. -/
theorem map_eq_self {f : α → α} {as : List α} (h : ∀ a ∈ as, f a = a) : as.map f = as := by
  rw [List.map_congr_left h, List.map_id']

/-- Bare expressions make up a bare list. -/
theorem eraseAll_of_bare {es : List Expr} (h : ∀ e ∈ es, Bare e) : Expr.eraseAll es = es := by
  rw [Expr.eraseAll_eq_map]
  exact map_eq_self h

/-- Nodes with bare parts are bare. -/
theorem kept_bare : Kept Bare fun s => s.erase = s where
  binary := by
    intro line op left right hl hr
    rw [Bare, Expr.erase, hl, hr]
    rfl
  unary := by
    intro line op operand h
    rw [Bare, Expr.erase, h]
    rfl
  methodCall := by
    intro line receiver method args h
    rw [Bare, Expr.erase, eraseAll_of_bare h]
    rfl
  selfCall := by
    intro line method args h
    rw [Bare, Expr.erase, eraseAll_of_bare h]
    rfl
  var := rfl
  num := rfl
  bool := rfl
  nothing := rfl
  new := rfl
  assign := by
    intro line name value h
    rw [Stmt.erase, h]
  cond := by
    intro line test body ht hb
    rw [Stmt.erase, ht, Stmt.eraseAll_eq_map, map_eq_self hb]
  print := by
    intro line value h
    rw [Stmt.erase, h]

end Grammar

namespace Program

open Grammar

variable {p : Program}

/-- A program that is read from a token list is its own erasure. -/
theorem erase_of_ofTokens {tokens : List Token} (h : ofTokens tokens = .ok p) : p.erase = p := by
  have hmethods := keeps_of_ofTokens kept_bare h
  have hclasses : ∀ c ∈ p.classes, c.erase = c := by
    intro c hc
    have hall : ∀ m ∈ c.methods, m.erase = m := by
      intro m hm
      obtain ⟨hbody, hvalue⟩ := hmethods c hc m hm
      rw [Method.erase, hvalue, Stmt.eraseAll_eq_map, map_eq_self hbody]
    rw [ClassDecl.erase, map_eq_self hall]
  rw [erase, map_eq_self hclasses]

/-- A program that is read from a source text is its own erasure. -/
theorem erase_of_ofSource {source : String} (h : ofSource source = .ok p) : p.erase = p := by
  obtain ⟨tokens, hp⟩ := exists_ofTokens h
  exact erase_of_ofTokens hp

end Program

/-! ## Receivers -/

/-- Methods are called on variables only. -/
def Expr.CallsVariables (e : Expr) : Prop :=
  ∀ {n receiver method args}, (Expr.methodCall n receiver method args).Within e →
    ∃ n' x, receiver = .var n' x

/-- Methods are called on variables only, anywhere in the statement. -/
def Stmt.CallsVariables (s : Stmt) : Prop :=
  ∀ {n receiver method args}, s.Uses (.methodCall n receiver method args) →
    ∃ n' x, receiver = .var n' x

/-- Nodes call methods on variables if their parts do. -/
theorem Grammar.kept_callsVariables : Kept Expr.CallsVariables Stmt.CallsVariables where
  binary := by
    intro line op left right hl hr n receiver method args hw
    cases hw with
    | left hw => exact hl hw
    | right hw => exact hr hw
  unary := by
    intro line op operand h n receiver method args hw
    cases hw with
    | operand hw => exact h hw
  methodCall := by
    intro line name method' args' h n receiver method args hw
    cases hw with
    | self => exact ⟨_, _, rfl⟩
    | receiver hw => cases hw
    | methodArg ha hw => exact h _ ha hw
  selfCall := by
    intro line method' args' h n receiver method args hw
    cases hw with
    | selfArg ha hw => exact h _ ha hw
  var := by
    intro _ _ _ _ _ _ hw
    cases hw
  num := by
    intro _ _ _ _ _ _ hw
    cases hw
  bool := by
    intro _ _ _ _ _ _ hw
    cases hw
  nothing := by
    intro _ _ _ _ _ hw
    cases hw
  new := by
    intro _ _ _ _ _ _ hw
    cases hw
  assign := by
    intro line name value h n receiver method args hu
    cases hu with
    | assign hw => exact h hw
  cond := by
    intro line test body ht hb n receiver method args hu
    cases hu with
    | test hw => exact ht hw
    | body hs hu => exact hb _ hs hu
  print := by
    intro line value h n receiver method args hu
    cases hu with
    | print hw => exact h hw

/-- Methods are called on variables only, anywhere in a program that is read. -/
theorem Program.receivers_of_ofTokens {tokens : List Token} {p : Program}
    (h : ofTokens tokens = .ok p) : ∀ c ∈ p.classes, ∀ m ∈ c.methods,
      (∀ s ∈ m.body, s.CallsVariables) ∧ m.value.CallsVariables :=
  keeps_of_ofTokens Grammar.kept_callsVariables h

end ClassLang
