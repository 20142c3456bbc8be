import ClassLang.Proofs.Grammar.Derivation

/-! # Derivations are unique

    The next tokens say how a derivation goes on, so no token list has two.

    * **`Rhs.Starts`**: what a token list can start with.
    * **`Sym.Follow`**: what may come behind a nonterminal, so that it is clear
      where it ends.
    * **`Rhs.Predictive`**: wherever a derivation has a choice, the choices start
      with different tokens.  **`Predictive.unique`** is what follows from that
      for any grammar, and **`rules_predictive`** looks at this one.
    * **`Starts.type`**, **`declaration`**, **`method`**, **`stmt`** and
      **`primary`** are the tokens that tell. -/

namespace ClassLang.Grammar

/-! ## What comes next -/

/-- The tokens start with a derivation from `r`, and go on as `F` says. -/
def Rhs.Starts (r : Rhs) (F : List TokenKind → Prop) (w : List TokenKind) : Prop :=
  ∃ v w', r.Spells w v w' ∧ F w'

section starts

variable {a b : Rhs} {s : Sym} {F G : List TokenKind → Prop} {w w' : List TokenKind}

theorem Rhs.Spells.starts {v : a.Value} (h : a.Spells w v w') (hF : F w') : a.Starts F w :=
  ⟨v, w', h, hF⟩

theorem starts_token {kind : TokenKind} :
    (Rhs.token kind).Starts F w ↔ ∃ w', w = kind :: w' ∧ F w' := by
  constructor
  · rintro ⟨v, w', h, hF⟩
    exact ⟨w', spells_token.mp h, hF⟩
  · rintro ⟨w', h, hF⟩
    exact ⟨(), w', spells_token.mpr h, hF⟩

theorem starts_ident : Rhs.ident.Starts F w ↔ ∃ x w', w = .ident x :: w' ∧ F w' := by
  constructor
  · rintro ⟨x, w', h, hF⟩
    exact ⟨x, w', spells_ident.mp h, hF⟩
  · rintro ⟨x, w', h, hF⟩
    exact ⟨x, w', spells_ident.mpr h, hF⟩

theorem starts_int : Rhs.int.Starts F w ↔ ∃ n w', w = .num n :: w' ∧ F w' := by
  constructor
  · rintro ⟨n, w', h, hF⟩
    exact ⟨n, w', spells_int.mp h, hF⟩
  · rintro ⟨n, w', h, hF⟩
    exact ⟨n, w', spells_int.mpr h, hF⟩

theorem starts_sym : (Rhs.sym s).Starts F w ↔ (rules s).Starts F w := by
  constructor
  · rintro ⟨v, w', h, hF⟩
    obtain ⟨x, hx, _⟩ := spells_sym.mp h
    exact ⟨x, w', hx, hF⟩
  · rintro ⟨x, w', h, hF⟩
    exact ⟨s.build x, w', spells_sym.mpr ⟨x, h, rfl⟩, hF⟩

theorem starts_seq : (Rhs.seq a b).Starts F w ↔ a.Starts (b.Starts F) w := by
  constructor
  · rintro ⟨v, w', h, hF⟩
    obtain ⟨u, ha, hb⟩ := spells_seq.mp h
    exact ⟨v.1, u, ha, v.2, w', hb, hF⟩
  · rintro ⟨x, u, ha, y, w', hb, hF⟩
    exact ⟨(x, y), w', spells_seq.mpr ⟨u, ha, hb⟩, hF⟩

theorem starts_alt : (Rhs.alt a b).Starts F w ↔ a.Starts F w ∨ b.Starts F w := by
  constructor
  · rintro ⟨v, w', h, hF⟩
    rcases spells_alt.mp h with ⟨x, _, hx⟩ | ⟨y, _, hy⟩
    · exact Or.inl ⟨x, w', hx, hF⟩
    · exact Or.inr ⟨y, w', hy, hF⟩
  · rintro (⟨x, w', h, hF⟩ | ⟨y, w', h, hF⟩)
    · exact ⟨.inl x, w', spells_alt.mpr (Or.inl ⟨x, rfl, h⟩), hF⟩
    · exact ⟨.inr y, w', spells_alt.mpr (Or.inr ⟨y, rfl, h⟩), hF⟩

theorem starts_maybe : (Rhs.maybe a).Starts F w ↔ F w ∨ a.Starts F w := by
  constructor
  · rintro ⟨v, w', h, hF⟩
    rcases spells_maybe.mp h with ⟨_, rfl⟩ | ⟨x, _, hx⟩
    · exact Or.inl hF
    · exact Or.inr ⟨x, w', hx, hF⟩
  · rintro (hF | ⟨x, w', h, hF⟩)
    · exact ⟨none, w, spells_maybe.mpr (Or.inl ⟨rfl, rfl⟩), hF⟩
    · exact ⟨some x, w', spells_maybe.mpr (Or.inr ⟨x, rfl, h⟩), hF⟩

theorem starts_many : (Rhs.many a).Starts F w ↔ F w ∨ a.Starts ((Rhs.many a).Starts F) w := by
  constructor
  · rintro ⟨v, w', h, hF⟩
    cases v with
    | nil =>
      cases spells_nil.mp h
      exact Or.inl hF
    | cons x xs =>
      obtain ⟨u, hx, hxs⟩ := spells_cons.mp h
      exact Or.inr ⟨x, u, hx, xs, w', hxs, hF⟩
  · rintro (hF | ⟨x, u, hx, xs, w', hxs, hF⟩)
    · exact ⟨[], w, spells_nil.mpr rfl, hF⟩
    · exact ⟨x :: xs, w', spells_cons.mpr ⟨u, hx, hxs⟩, hF⟩

theorem Rhs.Starts.mono (h : a.Starts F w) (hFG : ∀ w, F w → G w) : a.Starts G w := by
  obtain ⟨v, w', hv, hF⟩ := h
  exact ⟨v, w', hv, hFG w' hF⟩

end starts

/-! ## What may follow -/

/-- The next token is none of these. -/
def Avoids (kinds : List TokenKind) (w : List TokenKind) : Prop := ∀ k ∈ w.head?, k ∉ kinds

/-- The tokens that would go on with an expression of this level. -/
def Sym.clash : Sym → List TokenKind
  | unary | primary => [.dot, .openParen]
  | mul => [.star, .slash] ++ [.dot, .openParen]
  | add => [.plus, .minus] ++ [.star, .slash] ++ [.dot, .openParen]
  | relational => [.lessThan, .lessEqual] ++ [.plus, .minus] ++ [.star, .slash]
      ++ [.dot, .openParen]
  | equality => [.doubleEqual, .notEqual] ++ [.lessThan, .lessEqual] ++ [.plus, .minus]
      ++ [.star, .slash] ++ [.dot, .openParen]
  | expr => [.and] ++ [.doubleEqual, .notEqual] ++ [.lessThan, .lessEqual] ++ [.plus, .minus]
      ++ [.star, .slash] ++ [.dot, .openParen]
  | _ => []

/-- What may come behind a nonterminal. -/
def Sym.Follow : Sym → List TokenKind → Prop
  | program => (· = [])
  | args => fun w => ∃ w', w = .closeParen :: w'
  | s => Avoids s.clash

theorem avoids_cons {kinds : List TokenKind} {k : TokenKind} {w : List TokenKind} :
    Avoids kinds (k :: w) ↔ k ∉ kinds := by
  simp [Avoids]

theorem Avoids.mono {kinds kinds' w : List TokenKind} (h : Avoids kinds w)
    (hsub : ∀ k ∈ kinds', k ∈ kinds) : Avoids kinds' w :=
  fun k hk hmem => h k hk (hsub k hmem)

theorem avoids_nil_kinds (w : List TokenKind) : Avoids [] w := fun _ _ => List.not_mem_nil

/-! ## Grammars whose next tokens decide -/

/-- Wherever a derivation from this right side has a choice, and whatever `F`
    says of what comes behind it, the choices start with different tokens. -/
def Rhs.Predictive : Rhs → (List TokenKind → Prop) → Prop
  | token _, _ | ident, _ | int, _ => True
  | sym s, F => ∀ w, F w → s.Follow w
  | seq a b, F => a.Predictive (b.Starts F) ∧ b.Predictive F
  | alt a b, F => a.Predictive F ∧ b.Predictive F ∧ ∀ w, a.Starts F w → ¬ b.Starts F w
  | many a, F => a.Predictive ((many a).Starts F) ∧
      ∀ w, a.Starts ((many a).Starts F) w → ¬ F w
  | maybe a, F => a.Predictive F ∧ ∀ w, a.Starts F w → ¬ F w

theorem Derivation.starts {r : Rhs} (t : Derivation r) {F : List TokenKind → Prop}
    {w : List TokenKind} (hF : F w) : r.Starts F (t.yield ++ w) :=
  ⟨t.value, w, ⟨t, rfl, rfl⟩, hF⟩

/-- If the next tokens decide in all rules, two derivations that derive the
    start of one token list are the same. -/
theorem Rhs.Predictive.unique (hrules : ∀ s, (rules s).Predictive s.Follow) {r : Rhs}
    (t : Derivation r) : ∀ {F : List TokenKind → Prop}, r.Predictive F →
    ∀ (t' : Derivation r) {w w' : List TokenKind}, F w → F w' →
      t.yield ++ w = t'.yield ++ w' → t = t' ∧ w = w' := by
  induction t with
  | token kind =>
    intro F _ t' w w' _ _ heq
    cases t'
    exact ⟨rfl, (List.cons.inj heq).2⟩
  | ident name =>
    intro F _ t' w w' _ _ heq
    cases t' with
    | ident name' =>
      obtain ⟨hname, hrest⟩ := List.cons.inj heq
      cases hname
      exact ⟨rfl, hrest⟩
  | int value =>
    intro F _ t' w w' _ _ heq
    cases t' with
    | int value' =>
      obtain ⟨hvalue, hrest⟩ := List.cons.inj heq
      cases hvalue
      exact ⟨rfl, hrest⟩
  | @sym s t ih =>
    intro F hp t' w w' hw hw' heq
    cases t' with
    | sym t' =>
      obtain ⟨rfl, rfl⟩ := ih (hrules s) t' (hp w hw) (hp w' hw') heq
      exact ⟨rfl, rfl⟩
  | seq t u iht ihu =>
    intro F hp t' w w' hw hw' heq
    cases t' with
    | seq t' u' =>
      have heq : t.yield ++ (u.yield ++ w) = t'.yield ++ (u'.yield ++ w') := by
        simpa [Derivation.yield] using heq
      obtain ⟨rfl, hrest⟩ := iht hp.1 t' (u.starts hw) (u'.starts hw') heq
      obtain ⟨rfl, rfl⟩ := ihu hp.2 u' hw hw' hrest
      exact ⟨rfl, rfl⟩
  | left t ih =>
    intro F hp t' w w' hw hw' heq
    cases t' with
    | left t' =>
      obtain ⟨rfl, rfl⟩ := ih hp.1 t' hw hw' heq
      exact ⟨rfl, rfl⟩
    | right t' =>
      have hstart : t.yield ++ w = t'.yield ++ w' := heq
      exact absurd (t'.starts hw') (hp.2.2 _ (hstart ▸ t.starts hw))
  | right t ih =>
    intro F hp t' w w' hw hw' heq
    cases t' with
    | right t' =>
      obtain ⟨rfl, rfl⟩ := ih hp.2.1 t' hw hw' heq
      exact ⟨rfl, rfl⟩
    | left t' =>
      have hstart : t.yield ++ w = t'.yield ++ w' := heq
      exact absurd (t.starts hw) (hp.2.2 _ (hstart ▸ t'.starts hw'))
  | @nil a =>
    intro F hp t' w w' hw hw' heq
    cases t' with
    | nil => exact ⟨rfl, heq⟩
    | cons t' u' =>
      have hstart : w = t'.yield ++ (u'.yield ++ w') := by
        simpa [Derivation.yield] using heq
      have hmore := t'.starts (F := (Rhs.many a).Starts F) (u'.starts hw')
      exact absurd (hstart ▸ hw) (hp.2 _ hmore)
  | @cons a t u iht ihu =>
    intro F hp t' w w' hw hw' heq
    cases t' with
    | nil =>
      have hstart : w' = t.yield ++ (u.yield ++ w) := by
        simpa [Derivation.yield] using heq.symm
      have hmore := t.starts (F := (Rhs.many a).Starts F) (u.starts hw)
      exact absurd (hstart ▸ hw') (hp.2 _ hmore)
    | cons t' u' =>
      have heq : t.yield ++ (u.yield ++ w) = t'.yield ++ (u'.yield ++ w') := by
        simpa [Derivation.yield] using heq
      obtain ⟨rfl, hrest⟩ := iht hp.1 t' (u.starts hw) (u'.starts hw') heq
      obtain ⟨rfl, rfl⟩ := ihu hp u' hw hw' hrest
      exact ⟨rfl, rfl⟩
  | none =>
    intro F hp t' w w' hw hw' heq
    cases t' with
    | none => exact ⟨rfl, heq⟩
    | some t' =>
      have hstart : w = t'.yield ++ w' := heq
      exact absurd (hstart ▸ hw) (hp.2 _ (t'.starts hw'))
  | some t ih =>
    intro F hp t' w w' hw hw' heq
    cases t' with
    | none =>
      have hstart : t.yield ++ w = w' := heq
      exact absurd (hstart ▸ hw') (hp.2 _ (t.starts hw))
    | some t' =>
      obtain ⟨rfl, rfl⟩ := ih hp.1 t' hw hw' heq
      exact ⟨rfl, rfl⟩

/-! ## Which tokens start what -/

/-- A type can start with such a token. -/
def startsType : TokenKind → Bool
  | .int | .bool | .nothing | .ident _ => true
  | _ => false

/-- An expression without operators can start with such a token. -/
def startsPrimary : TokenKind → Bool
  | .num _ | .true | .false | .nothing | .new | .ident _ | .openParen => true
  | _ => false

/-- An expression can start with such a token. -/
def startsExpr (k : TokenKind) : Bool := k = .minus || k = .not || startsPrimary k

namespace Rhs.Starts

variable {b : Rhs} {F : List TokenKind → Prop} {w : List TokenKind}

/-- A type is one token. -/
theorem type (h : (Rhs.sym .type).Starts F w) :
    ∃ k w', w = k :: w' ∧ startsType k = true ∧ F w' := by
  have h := starts_sym.mp h
  simp only [rules, oneOf, starts_alt, starts_token, starts_ident] at h
  rcases h with ⟨w', rfl, hF⟩ | ⟨w', rfl, hF⟩ | ⟨w', rfl, hF⟩ | ⟨x, w', rfl, hF⟩
  all_goals exact ⟨_, w', rfl, rfl, hF⟩

/-- A type and a name. -/
theorem typed (h : (Rhs.seq (.sym .type) (.seq .ident b)).Starts F w) :
    ∃ k x w', w = k :: .ident x :: w' ∧ startsType k = true ∧ b.Starts F w' := by
  obtain ⟨k, u, rfl, hk, hu⟩ := type (starts_seq.mp h)
  obtain ⟨x, w', rfl, hw'⟩ := starts_ident.mp (starts_seq.mp hu)
  exact ⟨k, x, w', rfl, hk, hw'⟩

/-- A comma or a semicolon is the third token of a declaration. -/
theorem declaration (h : (Rhs.sym .declaration).Starts F w) :
    ∃ k x k' w', w = k :: .ident x :: k' :: w' ∧ startsType k = true ∧ k' ∈ [.comma, .semiColon] := by
  obtain ⟨k, x, u, rfl, hk, hu⟩ := typed (starts_sym.mp h)
  simp only [inRow, starts_seq, starts_many, starts_token] at hu
  rcases hu with ⟨w', rfl, _⟩ | ⟨w', rfl, _⟩
  · exact ⟨k, x, _, w', rfl, hk, by simp⟩
  · exact ⟨k, x, _, w', rfl, hk, by simp⟩

/-- A parenthesis is the third token of a method. -/
theorem method (h : (Rhs.sym .method).Starts F w) :
    ∃ k x w', w = k :: .ident x :: .openParen :: w' ∧ startsType k = true := by
  obtain ⟨k, x, u, rfl, hk, hu⟩ := typed (starts_sym.mp h)
  obtain ⟨w', rfl, _⟩ := starts_token.mp (starts_seq.mp (starts_seq.mp hu))
  exact ⟨k, x, w', rfl, hk⟩

/-- A parameter starts with its type. -/
theorem param (h : (Rhs.sym .param).Starts F w) : ∃ k w', w = k :: w' ∧ startsType k = true := by
  obtain ⟨k, w', rfl, hk, _⟩ := type (starts_seq.mp (starts_sym.mp h))
  exact ⟨k, w', rfl, hk⟩

/-- A statement starts with a keyword, or with a name and `=`. -/
theorem stmt (h : (Rhs.sym .stmt).Starts F w) :
    (∃ k w', w = k :: w' ∧ k ∈ [.cond, .print]) ∨ ∃ x w', w = .ident x :: .equal :: w' := by
  have h := starts_sym.mp h
  simp only [rules, oneOf, inRow, starts_alt, starts_seq, starts_token, starts_ident] at h
  rcases h with ⟨x, _, rfl, w', rfl, _⟩ | ⟨w', rfl, _⟩ | ⟨w', rfl, _⟩
  · exact Or.inr ⟨x, w', rfl⟩
  · exact Or.inl ⟨_, w', rfl, by simp⟩
  · exact Or.inl ⟨_, w', rfl, by simp⟩

/-- A class starts with its keyword. -/
theorem cls (h : (Rhs.sym .cls).Starts F w) : ∃ w', w = .cls :: w' := by
  obtain ⟨w', rfl, _⟩ := starts_token.mp (starts_seq.mp (starts_sym.mp h))
  exact ⟨w', rfl⟩

theorem primary (h : (Rhs.sym .primary).Starts F w) :
    ∃ k w', w = k :: w' ∧ startsPrimary k = true := by
  have h := starts_sym.mp h
  simp only [rules, oneOf, inRow, starts_alt, starts_seq, starts_token, starts_ident,
    starts_int] at h
  rcases h with ⟨n, w', rfl, _⟩ | ⟨w', rfl, _⟩ | ⟨w', rfl, _⟩ | ⟨w', rfl, _⟩ | ⟨w', rfl, _⟩ |
    ⟨x, w', rfl, _⟩ | ⟨x, w', rfl, _⟩ | ⟨x, w', rfl, _⟩ | ⟨w', rfl, _⟩
  all_goals exact ⟨_, w', rfl, rfl⟩

theorem unary (h : (Rhs.sym .unary).Starts F w) : ∃ k w', w = k :: w' ∧ startsExpr k = true := by
  have h := starts_sym.mp h
  simp only [rules, oneOf, starts_alt, starts_seq, starts_token] at h
  rcases h with (⟨w', rfl, _⟩ | ⟨w', rfl, _⟩) | h
  · exact ⟨_, w', rfl, rfl⟩
  · exact ⟨_, w', rfl, rfl⟩
  · obtain ⟨k, w', rfl, hk⟩ := primary h
    exact ⟨k, w', rfl, by simp [startsExpr, hk]⟩

/-- All levels of expressions start with an operand. -/
theorem expr (h : (Rhs.sym .expr).Starts F w) : ∃ k w', w = k :: w' ∧ startsExpr k = true := by
  have hequality := starts_seq.mp (starts_sym.mp h)
  have hrelational := starts_seq.mp (starts_sym.mp hequality)
  have hadd := starts_seq.mp (starts_sym.mp hrelational)
  have hmul := starts_seq.mp (starts_sym.mp hadd)
  exact unary (starts_seq.mp (starts_sym.mp hmul))

end Rhs.Starts

/-! ## The next tokens decide -/

section operators

variable {operand : Sym} {op : Rhs} {ops : List TokenKind} {F : List TokenKind → Prop}

/-- Neither what follows the last operand nor an operator goes on with an
    operand. -/
theorem avoids_of_operator
    (hop : ∀ {F w}, op.Starts F w → ∃ k w', w = k :: w' ∧ k ∈ ops)
    (hfree : ∀ k ∈ ops, k ∉ operand.clash) {w : List TokenKind}
    (h : Avoids (ops ++ operand.clash) w ∨ (Rhs.seq op (.sym operand)).Starts F w) :
    Avoids operand.clash w := by
  rcases h with h | h
  · exact h.mono fun k hk => List.mem_append_right _ hk
  · obtain ⟨k, w', rfl, hk⟩ := hop (starts_seq.mp h)
    exact avoids_cons.mpr (hfree k hk)

/-- After the last operand there is no operator. -/
theorem not_avoids_of_operator
    (hop : ∀ {F w}, op.Starts F w → ∃ k w', w = k :: w' ∧ k ∈ ops) {w : List TokenKind}
    (h : (Rhs.seq op (.sym operand)).Starts F w) : ¬ Avoids (ops ++ operand.clash) w := by
  obtain ⟨k, w', rfl, hk⟩ := hop (starts_seq.mp h)
  exact fun havoids => avoids_cons.mp havoids (List.mem_append_left _ hk)

/-- The next tokens decide in a row of operands and operators. -/
theorem chain_predictive (hfollow : operand.Follow = Avoids operand.clash)
    (hop : ∀ {F w}, op.Starts F w → ∃ k w', w = k :: w' ∧ k ∈ ops)
    (hpred : ∀ F, op.Predictive F) (hfree : ∀ k ∈ ops, k ∉ operand.clash) :
    (chain operand op).Predictive (Avoids (ops ++ operand.clash)) := by
  have hoperand : ∀ w, (Rhs.many (.seq op (.sym operand))).Starts
      (Avoids (ops ++ operand.clash)) w → operand.Follow w := by
    intro w h
    rw [hfollow]
    exact avoids_of_operator hop hfree (starts_many.mp h)
  exact ⟨hoperand, ⟨hpred _, hoperand⟩, fun w h => not_avoids_of_operator hop h⟩

end operators

/-- A token starts with itself. -/
theorem operator_token {k : TokenKind} {F : List TokenKind → Prop} {w : List TokenKind}
    (h : (Rhs.token k).Starts F w) : ∃ k' w', w = k' :: w' ∧ k' ∈ [k] := by
  obtain ⟨w', rfl, _⟩ := starts_token.mp h
  exact ⟨k, w', rfl, List.mem_singleton_self k⟩

theorem operator_either {k l : TokenKind} {F : List TokenKind → Prop} {w : List TokenKind}
    (h : (oneOf (.token k) [.token l]).Starts F w) : ∃ k' w', w = k' :: w' ∧ k' ∈ [k, l] := by
  simp only [oneOf, starts_alt, starts_token] at h
  rcases h with ⟨w', rfl, _⟩ | ⟨w', rfl, _⟩
  · exact ⟨k, w', rfl, by simp⟩
  · exact ⟨l, w', rfl, by simp⟩

/-- What starts with a token does not start with another one. -/
theorem token_apart {k l : TokenKind} {F G : List TokenKind → Prop} {w : List TokenKind}
    (hne : k ≠ l) (h : (Rhs.token k).Starts F w) : ¬ (Rhs.token l).Starts G w := by
  intro h'
  obtain ⟨w', rfl, _⟩ := starts_token.mp h
  obtain ⟨_, heq, _⟩ := starts_token.mp h'
  exact hne (List.cons.inj heq).1

theorem either_predictive {k l : TokenKind} (hne : k ≠ l) (F : List TokenKind → Prop) :
    (oneOf (.token k) [.token l]).Predictive F := by
  exact ⟨trivial, trivial, fun w h => token_apart hne h⟩

theorem avoids_of_token {k : TokenKind} {F : List TokenKind → Prop} {w : List TokenKind}
    {kinds : List TokenKind} (hk : k ∉ kinds) (h : (Rhs.token k).Starts F w) :
    Avoids kinds w := by
  obtain ⟨w', rfl, _⟩ := starts_token.mp h
  exact avoids_cons.mpr hk

/-- What starts with a token of one sort avoids a token of another. -/
theorem avoids_of_first {p : TokenKind → Bool} {k : TokenKind} {w : List TokenKind}
    (h : ∃ k' w', w = k' :: w' ∧ p k' = true) (hk : p k = false) : Avoids [k] w := by
  obtain ⟨k', w', rfl, hk'⟩ := h
  refine avoids_cons.mpr fun hmem => ?_
  rw [List.mem_singleton.mp hmem, hk] at hk'
  cases hk'

/-- A list whose items are led by commas ends at any other token. -/
theorem commas_predictive {item : Rhs} {F : List TokenKind → Prop}
    (hitem : item.Predictive ((Rhs.many (inRow (.token .comma) [item])).Starts F))
    (hF : ∀ w, F w → Avoids [.comma] w) :
    (Rhs.many (inRow (.token .comma) [item])).Predictive F := by
  refine ⟨⟨trivial, hitem⟩, ?_⟩
  intro w h hw
  obtain ⟨w', rfl, _⟩ := starts_token.mp (starts_seq.mp h)
  exact avoids_cons.mp (hF _ hw) (by simp)

/-- Declarations end where something starts that is none. -/
theorem declarations_predictive {F : List TokenKind → Prop}
    (hF : ∀ w, F w → ¬ ∃ k x k' w', w = k :: .ident x :: k' :: w' ∧ startsType k = true ∧
      k' ∈ [.comma, .semiColon]) : (Rhs.many (.sym .declaration)).Predictive F :=
  ⟨fun w _ => avoids_nil_kinds w, fun w h hw => hF w hw (Rhs.Starts.declaration h)⟩

/-! ### One lemma for each kind of rule -/

theorem cls_predictive (F : List TokenKind → Prop) : (rules .cls).Predictive F := by
  refine ⟨trivial, trivial, ⟨⟨trivial, trivial⟩, ?_⟩, trivial, ?_, ⟨?_, ?_⟩, trivial⟩
  · exact fun w h h' => token_apart (by decide) (starts_seq.mp h) (starts_seq.mp h')
  · refine declarations_predictive ?_
    rintro w h ⟨k, x, k', w', rfl, hk, hk'⟩
    rcases starts_many.mp (starts_seq.mp h) with h | h
    · obtain ⟨_, heq, _⟩ := starts_token.mp h
      cases heq
      cases hk
    · -- the third token of a method is a parenthesis
      obtain ⟨_, _, _, heq, _⟩ := Rhs.Starts.method h
      cases heq
      simp at hk'
  · exact fun w _ => avoids_nil_kinds w
  · intro w h h'
    obtain ⟨k, x, w', rfl, hk⟩ := Rhs.Starts.method h
    obtain ⟨_, heq, _⟩ := starts_token.mp h'
    cases heq
    cases hk

theorem declaration_predictive (F : List TokenKind → Prop) :
    (rules .declaration).Predictive F := by
  refine ⟨fun w _ => avoids_nil_kinds w, trivial, commas_predictive trivial ?_, trivial⟩
  exact fun w => avoids_of_token (by decide)

theorem method_predictive (F : List TokenKind → Prop) : (rules .method).Predictive F := by
  refine ⟨fun w _ => avoids_nil_kinds w, trivial,
    ⟨trivial, ⟨⟨fun w _ => avoids_nil_kinds w, ?_⟩, ?_⟩, trivial⟩, trivial, ?_,
    ⟨fun w _ => avoids_nil_kinds w, ?_⟩, trivial, ?_, trivial, trivial⟩
  · exact commas_predictive (fun w _ => avoids_nil_kinds w) fun w => avoids_of_token (by decide)
  · intro w h h'
    obtain ⟨k, w', rfl, hk⟩ := Rhs.Starts.param (starts_seq.mp h)
    obtain ⟨_, heq, _⟩ := starts_token.mp h'
    cases heq
    cases hk
  · refine declarations_predictive ?_
    rintro w h ⟨k, x, k', w', rfl, hk, _⟩
    rcases starts_many.mp (starts_seq.mp h) with h | h
    · obtain ⟨_, heq, _⟩ := starts_token.mp (starts_seq.mp h)
      cases heq
      cases hk
    · -- a statement that starts with a name goes on with an equals sign
      rcases Rhs.Starts.stmt h with ⟨_, _, heq, hstmt⟩ | ⟨_, _, heq⟩
      · cases heq
        simp only [List.mem_cons, List.not_mem_nil, or_false] at hstmt
        rcases hstmt with rfl | rfl <;> cases hk
      · cases heq
  · intro w h h'
    obtain ⟨w', rfl, _⟩ := starts_token.mp (starts_seq.mp h')
    rcases Rhs.Starts.stmt h with ⟨_, _, heq, hstmt⟩ | ⟨_, _, heq⟩
    · cases heq
      simp at hstmt
    · cases heq
  · exact fun w h => avoids_of_token (by decide) (starts_seq.mp h)

theorem type_predictive (F : List TokenKind → Prop) : (rules .type).Predictive F := by
  refine ⟨trivial, ⟨trivial, ⟨trivial, trivial, ?_⟩, ?_⟩, ?_⟩
  all_goals
    intro w h h'
    obtain ⟨w', rfl, _⟩ := starts_token.mp h
    simp [oneOf, starts_alt, starts_token, starts_ident] at h'

theorem stmt_predictive (F : List TokenKind → Prop) : (rules .stmt).Predictive F := by
  refine ⟨⟨trivial, trivial, ?_, trivial⟩, ⟨⟨trivial, trivial, ?_, trivial, trivial, ?_, trivial⟩,
    ⟨trivial, trivial, ?_, trivial, trivial⟩, ?_⟩, ?_⟩
  · exact fun w => avoids_of_token (by decide)
  · exact fun w h => avoids_of_token (by decide) (starts_seq.mp h)
  · refine ⟨fun w _ => avoids_nil_kinds w, ?_⟩
    intro w h h'
    obtain ⟨w', rfl, _⟩ := starts_token.mp h'
    rcases Rhs.Starts.stmt h with ⟨_, _, heq, hstmt⟩ | ⟨_, _, heq⟩
    · cases heq
      simp at hstmt
    · cases heq
  · exact fun w h => avoids_of_token (by decide) (starts_seq.mp h)
  · exact fun w h h' => token_apart (by decide) (starts_seq.mp h) (starts_seq.mp h')
  · intro w h h'
    obtain ⟨x, w', rfl, _⟩ := starts_ident.mp (starts_seq.mp h)
    simp [oneOf, inRow, starts_alt, starts_seq, starts_token] at h'

theorem relational_predictive : (rules .relational).Predictive Sym.relational.Follow := by
  have hoperand : ∀ w, (Rhs.maybe (.seq (oneOf (.token .lessThan) [.token .lessEqual])
      (.sym .add))).Starts Sym.relational.Follow w → Sym.add.Follow w := by
    intro w h
    exact avoids_of_operator operator_either (by decide) (starts_maybe.mp h)
  refine ⟨hoperand, ⟨either_predictive (by decide) _, ?_⟩, ?_⟩
  · exact fun w h => Avoids.mono h (by decide)
  · exact fun w h => not_avoids_of_operator operator_either h

theorem unary_predictive : (rules .unary).Predictive Sym.unary.Follow := by
  refine ⟨⟨either_predictive (by decide) _, fun w h => h⟩, fun w h => h, ?_⟩
  intro w h h'
  -- no operand starts with an operator in front
  obtain ⟨k, w', rfl, hk⟩ := operator_either (starts_seq.mp h)
  obtain ⟨_, _, heq, hprimary⟩ := Rhs.Starts.primary h'
  cases heq
  simp only [List.mem_cons, List.not_mem_nil, or_false] at hk
  rcases hk with rfl | rfl <;> cases hprimary

theorem args_predictive : (rules .args).Predictive Sym.args.Follow := by
  have hexpr : ∀ w, (Rhs.many (inRow (.token .comma) [.sym .expr])).Starts Sym.args.Follow w →
      Sym.expr.Follow w := by
    intro w h
    rcases starts_many.mp h with ⟨w', rfl⟩ | h
    · exact avoids_cons.mpr (by decide)
    · exact avoids_of_token (by decide) (starts_seq.mp h)
  refine ⟨hexpr, commas_predictive hexpr ?_⟩
  rintro w ⟨w', rfl⟩
  exact avoids_cons.mpr (by decide)

/-- The arguments of a call, and the parenthesis behind them. -/
theorem arguments_predictive (F : List TokenKind → Prop) :
    (enclosed (.sym .args)).Predictive F := by
  refine ⟨trivial, ⟨?_, ?_⟩, trivial⟩
  · intro w h
    obtain ⟨w', rfl, _⟩ := starts_token.mp h
    exact ⟨w', rfl⟩
  · intro w h h'
    obtain ⟨w', rfl, _⟩ := starts_token.mp h'
    obtain ⟨_, _, heq, hexpr⟩ := Rhs.Starts.expr (starts_seq.mp (starts_sym.mp h))
    cases heq
    cases hexpr

theorem primary_predictive : (rules .primary).Predictive Sym.primary.Follow := by
  have hcall := arguments_predictive Sym.primary.Follow
  have hparen : ∀ w, (Rhs.token .closeParen).Starts Sym.primary.Follow w → Sym.expr.Follow w :=
    fun w => avoids_of_token (by decide)
  refine ⟨trivial, ⟨trivial, ⟨trivial, ⟨trivial, ⟨⟨trivial, trivial⟩, ⟨⟨trivial, trivial, trivial, hcall⟩,
    ⟨⟨trivial, hcall⟩, ⟨trivial, ⟨trivial, hparen, trivial⟩, ?_⟩, ?_⟩, ?_⟩, ?_⟩, ?_⟩, ?_⟩, ?_⟩, ?_⟩
  all_goals
    intro w h h'
    simp only [oneOf, inRow, enclosed, starts_alt, starts_seq, starts_token, starts_ident,
      starts_int] at h h'
  -- a name alone, and a parenthesis
  · obtain ⟨x, w', rfl, _⟩ := h
    simp at h'
  -- a call of a method of the same object, and what else starts with a name
  · obtain ⟨x, _, rfl, w', rfl, _⟩ := h
    rcases h' with ⟨_, _, heq, hfollow⟩ | ⟨_, heq, _⟩
    · cases heq
      exact avoids_cons.mp hfollow (by decide)
    · cases heq
  -- a call of a method of another object, and what else starts with a name
  · obtain ⟨x, _, rfl, w', rfl, _⟩ := h
    rcases h' with ⟨_, _, heq, _, hparen, _⟩ | ⟨_, _, heq, hfollow⟩ | ⟨_, heq, _⟩
    · cases heq
      cases hparen
    · cases heq
      exact avoids_cons.mp hfollow (by decide)
    · cases heq
  -- `new` and the literals
  · obtain ⟨w', rfl, _⟩ := h
    simp at h'
  · obtain ⟨w', rfl, _⟩ := h
    simp at h'
  · obtain ⟨w', rfl, _⟩ := h
    simp at h'
  · obtain ⟨w', rfl, _⟩ := h
    simp at h'
  · obtain ⟨n, w', rfl, _⟩ := h
    simp at h'

/-- The next tokens decide in every rule. -/
theorem rules_predictive (s : Sym) : (rules s).Predictive s.Follow := by
  cases s with
  | program =>
    refine ⟨fun w _ => avoids_nil_kinds w, ?_⟩
    intro w h hw
    obtain ⟨w', rfl⟩ := Rhs.Starts.cls h
    cases hw
  | cls => exact cls_predictive _
  | declaration => exact declaration_predictive _
  | method => exact method_predictive _
  | param => exact ⟨fun w _ => avoids_nil_kinds w, trivial⟩
  | type => exact type_predictive _
  | stmt => exact stmt_predictive _
  | expr => exact chain_predictive rfl operator_token (fun _ => trivial) (by decide)
  | equality => exact chain_predictive rfl operator_either (either_predictive (by decide)) (by decide)
  | relational => exact relational_predictive
  | add => exact chain_predictive rfl operator_either (either_predictive (by decide)) (by decide)
  | mul => exact chain_predictive rfl operator_either (either_predictive (by decide)) (by decide)
  | unary => exact unary_predictive
  | primary => exact primary_predictive
  | args => exact args_predictive

/-- No token list has two derivations. -/
theorem derivation_unique {s : Sym} {t t' : Derivation (.sym s)} (hs : s.Follow [])
    (h : t.yield = t'.yield) : t = t' := by
  have hpredictive : (Rhs.sym s).Predictive (· = []) := by
    rintro w rfl
    exact hs
  have heq : t.yield ++ [] = t'.yield ++ [] := by rw [h]
  exact (hpredictive.unique rules_predictive t t' rfl rfl heq).1

end ClassLang.Grammar
