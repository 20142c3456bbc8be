import ClassLang.Proofs.Grammar.Viable

/-! # How far an expression goes

    The reader of expressions can be called anywhere in a list of tokens.  It
    takes the longest expression that stands there, and looks at one token
    behind it.

    * **`Cursor.behind`** is the place behind the first tokens of a list.
    * **`Longest`** says what the tokens of an expression have to do with those
      behind it, **`Stuck`** the same where no expression was found.
    * **`not_yield_of_stop`**: with the token at which the reader stops, the
      tokens that it took begin no expression.  Nothing longer is one, and
      nothing that stopped could have gone on.
    * **`expr_of_take_eq`**: the tokens further behind have no say.
    * **`expr_goes_as_far`** puts it together. -/

namespace ClassLang.Grammar

/-! ## Places in a list -/

/-- The place behind the first `i` tokens. -/
def Cursor.behind (tokens : List Token) (i : Nat) : Cursor :=
  { Cursor.ofTokens tokens with rest := tokens.drop i }

section places

variable {tokens tokens' : List Token} {i j : Nat}

theorem Cursor.behind_add (tokens : List Token) (i n : Nat) :
    behind tokens (i + n) = ⟨(tokens.drop i).drop n, (ofTokens tokens).endLine⟩ := by
  rw [List.drop_drop]
  rfl

/-- The end lies on the line of the last token, from wherever it is seen. -/
theorem endLine_of_drop (h : tokens.drop i ≠ []) :
    (Cursor.ofTokens tokens).endLine = (Cursor.ofTokens (tokens.drop i)).endLine := by
  have hlt : i < tokens.length := by
    by_contra hle
    exact h (List.drop_eq_nil_of_le (Nat.le_of_not_lt hle))
  have hlast : (tokens.drop i).getLast? = tokens.getLast? := by
    rw [List.getLast?_drop, if_neg (Nat.not_le_of_lt hlt)]
  rw [Cursor.ofTokens, Cursor.ofTokens, hlast]

/-- Lists with the same tokens behind two places end on one line. -/
theorem endLine_eq_of_drop_eq (h : tokens'.drop j = tokens.drop i) (hne : tokens.drop i ≠ []) :
    (Cursor.ofTokens tokens').endLine = (Cursor.ofTokens tokens).endLine := by
  have hne' : tokens'.drop j ≠ [] := by
    rw [h]
    exact hne
  rw [endLine_of_drop hne, endLine_of_drop hne', h]

end places

/-! ## Where the reader stops -/

section stop

variable {u v r : List Token} {s : Token} {l : Nat} {e : Expr} {o : Except SyntaxError Expr}

/-- Tokens that are an expression are read to their end. -/
theorem expr_of_yield {t : Derivation (.sym .expr)} (h : t.yield = kindsOf v) (l : Nat) :
    ∃ e c, expr ⟨v, l⟩ = .ok e c ∧ c.rest = [] := by
  have hspells : (Rhs.sym .expr).Spells (kindsOf v) t.value [] :=
    ⟨t, by rw [h, List.append_nil], rfl⟩
  have hfollow : Sym.expr.Follow [] := fun _ hk => nomatch hk
  have hagrees : Agrees (v.length + 1) expr (.sym .expr) Sym.expr.Follow Unlined := expr_agrees
  obtain ⟨e, c, he, hc, -⟩ := hagrees.complete (c := ⟨v, l⟩) (Nat.lt_succ_self _) hspells hfollow
  exact ⟨e, c, he, List.map_eq_nil_iff.mp hc⟩

/-- Where the reader stops in front of a token, it stops there whatever comes
    behind. -/
theorem expr_stops_alike (h : run expr ⟨u ++ s :: r, l⟩ = (o, ⟨s :: r, l⟩)) (r' : List Token)
    (l' : Nat) : run expr ⟨u ++ s :: r', l'⟩ = (o, ⟨s :: r', l'⟩) := by
  have halike : Alike (s :: r) (s :: r') := ⟨s, r, r', rfl, rfl⟩
  exact Local.expr.same halike (Nat.lt_succ_self _) (Nat.lt_succ_self _) h

/-- With the token at which the reader stops, no expression begins. -/
theorem not_yield_of_stop (h : run expr ⟨u ++ s :: r, l⟩ = (o, ⟨s :: r, l⟩))
    (t : Derivation (.sym .expr)) : ¬ kindsOf (u ++ [s]) <+: t.yield := by
  rintro ⟨w, hw⟩
  -- the tokens of that expression, on any lines
  let r' : List Token := w.map fun k => ⟨k, 0⟩
  have hkinds : t.yield = kindsOf (u ++ s :: r') := by
    rw [← hw]
    simp [r', kindsOf, Function.comp_def]
  obtain ⟨e, c, he, hc⟩ := expr_of_yield hkinds l
  -- they would be read to the end, and the reader stops before it
  have hstop := expr_stops_alike h r' l
  rw [run_eq_ok_iff.mpr he, Prod.mk.injEq] at hstop
  rw [hstop.2] at hc
  cases hc

/-- The reader goes forward. -/
theorem expr_onward {c c' : Cursor} (h : run expr c = (o, c')) :
    ∃ u, c.rest = u ++ c'.rest ∧ c'.endLine = c.endLine := by
  have hlocal : Local 0 0 expr expr := Local.expr
  exact hlocal.onward h

/-- An expression takes a token. -/
theorem expr_takes {c c' : Cursor} (h : expr c = .ok e c') :
    c'.rest.length < c.rest.length := by
  have hagrees : Agrees 0 expr (.sym .expr) Sym.expr.Follow Unlined := expr_agrees
  exact hagrees.takes rfl e (run_eq_ok_iff.mpr h)

end stop

/-! ## What is read, and what is not looked at -/

/-- The first `n` of the tokens are the expression `e`, and the reader that found
    it goes by these and the next one. -/
structure Longest (tokens : List Token) (i n : Nat) (e : Expr) : Prop where
  /-- They derive the expression. -/
  derived : ∃ t : Derivation (.sym .expr),
    t.yield = kindsOf ((tokens.drop i).take n) ∧ e.unlined = t.value
  /-- No more of them are an expression. -/
  longest : ∀ m, n < m → m ≤ (tokens.drop i).length →
    ∀ t : Derivation (.sym .expr), t.yield ≠ kindsOf ((tokens.drop i).take m)
  /-- In any list with the same tokens up to the next one, the same is read. -/
  further : ∀ tokens' j, (tokens'.drop j).take (n + 1) = (tokens.drop i).take (n + 1) →
    expr (.behind tokens' j) = .ok e (.behind tokens' (j + n))

/-- The first `n` of the tokens could go on to an expression, with the next one
    they cannot. -/
structure Stuck (tokens : List Token) (i n : Nat) : Prop where
  /-- They begin an expression. -/
  begun : ∃ t : Derivation (.sym .expr), kindsOf ((tokens.drop i).take n) <+: t.yield
  /-- With the next token they begin none. -/
  impossible : n < (tokens.drop i).length →
    ∀ t : Derivation (.sym .expr), ¬ kindsOf ((tokens.drop i).take (n + 1)) <+: t.yield

section longest

variable {tokens tokens' : List Token} {i j n : Nat} {e : Expr} {o : Except SyntaxError Expr}

/-- It comes to a place further behind. -/
theorem exists_behind {c' : Cursor} (h : run expr (.behind tokens i) = (o, c')) :
    ∃ n, n ≤ (tokens.drop i).length ∧ c' = .behind tokens (i + n) := by
  obtain ⟨u, hrest, hend⟩ := expr_onward h
  have hrest : tokens.drop i = u ++ c'.rest := hrest
  refine ⟨u.length, ?_, ?_⟩
  · rw [hrest, List.length_append]
    exact Nat.le_add_right _ _
  · obtain ⟨rest, endLine⟩ := c'
    rw [Cursor.behind_add, hrest, List.drop_left, Cursor.mk.injEq]
    exact ⟨rfl, hend⟩

/-- The kinds of the tokens that were taken are those in front of what is left. -/
theorem kinds_taken {w : List TokenKind}
    (h : (Cursor.behind tokens i).kinds = w ++ (Cursor.behind tokens (i + n)).kinds) :
    kindsOf ((tokens.drop i).take n) = w := by
  rw [Cursor.behind_add] at h
  have hkinds : kindsOf (tokens.drop i) = w ++ kindsOf ((tokens.drop i).drop n) := h
  have hsplit : kindsOf ((tokens.drop i).take n) ++ kindsOf ((tokens.drop i).drop n) =
      kindsOf (tokens.drop i) := by
    rw [← List.map_append, List.take_append_drop]
  exact List.append_cancel_right (hsplit.trans hkinds)

/-- The tokens that were taken stand in front of those that are left. -/
theorem run_split (h : run expr (.behind tokens i) = (o, .behind tokens (i + n))) :
    run expr ⟨(tokens.drop i).take n ++ (tokens.drop i).drop n, (Cursor.ofTokens tokens).endLine⟩ =
      (o, ⟨(tokens.drop i).drop n, (Cursor.ofTokens tokens).endLine⟩) := by
  rw [List.take_append_drop, ← Cursor.behind_add]
  exact h

/-- With the token at which the reader stops, the list begins no expression. -/
theorem not_begun_behind (h : run expr (.behind tokens i) = (o, .behind tokens (i + n)))
    (hn : n < (tokens.drop i).length) (t : Derivation (.sym .expr)) :
    ¬ kindsOf ((tokens.drop i).take (n + 1)) <+: t.yield := by
  have hsplit := run_split h
  rw [List.drop_eq_getElem_cons hn] at hsplit
  have hstop := not_yield_of_stop hsplit t
  rwa [List.take_append_getElem hn] at hstop

/-- What is read is derived. -/
theorem derived_behind (h : expr (.behind tokens i) = .ok e (.behind tokens (i + n))) :
    ∃ t : Derivation (.sym .expr),
      t.yield = kindsOf ((tokens.drop i).take n) ∧ e.unlined = t.value := by
  have hagrees : Agrees 0 expr (.sym .expr) Sym.expr.Follow Unlined := expr_agrees
  obtain ⟨v, ⟨t, hkinds, rfl⟩, he⟩ := hagrees.sound h
  exact ⟨t, (kinds_taken hkinds).symm, he⟩

/-- What was taken begins an expression. -/
theorem begun_behind (h : run expr (.behind tokens i) = (o, .behind tokens (i + n))) :
    ∃ t : Derivation (.sym .expr), kindsOf ((tokens.drop i).take n) <+: t.yield := by
  obtain ⟨t, w, z, hkinds, hyield, -⟩ := begins_expr h
  refine ⟨t, z, ?_⟩
  rw [kinds_taken hkinds, hyield]

/-- Nothing longer is an expression: it would begin with the token at which the
    reader stopped. -/
theorem longest_behind (h : expr (.behind tokens i) = .ok e (.behind tokens (i + n))) {m : Nat}
    (hm : n < m) (hle : m ≤ (tokens.drop i).length) (t : Derivation (.sym .expr)) :
    t.yield ≠ kindsOf ((tokens.drop i).take m) := by
  intro ht
  have hnext := not_begun_behind (run_eq_ok_iff.mpr h) (Nat.lt_of_lt_of_le hm hle) t
  apply hnext
  rw [ht]
  exact (List.take_prefix_take_left hm).map Token.kind

/-- What is read depends on the tokens up to the next one only. -/
theorem expr_of_take_eq (h : expr (.behind tokens i) = .ok e (.behind tokens (i + n)))
    (hn : n ≤ (tokens.drop i).length)
    (heq : (tokens'.drop j).take (n + 1) = (tokens.drop i).take (n + 1)) :
    expr (.behind tokens' j) = .ok e (.behind tokens' (j + n)) := by
  have hlength := congrArg List.length heq
  rw [List.length_take, List.length_take] at hlength
  have hsplit := run_split (run_eq_ok_iff.mpr h)
  have htake : (tokens'.drop j).take n = (tokens.drop i).take n := by
    have htake := congrArg (List.take n) heq
    rwa [List.take_take, List.take_take, Nat.min_eq_left (Nat.le_succ n)] at htake
  apply run_eq_ok_iff.mp
  rw [Cursor.behind_add, Cursor.behind, ← List.take_append_drop n (tokens'.drop j), htake,
    List.drop_left' (by rw [List.length_take, Nat.min_eq_left hn])]
  by_cases hnext : n < (tokens.drop i).length
  · -- both lists go on with the same token
    have hnext' : n < (tokens'.drop j).length := by omega
    have htoken : (tokens'.drop j)[n] = (tokens.drop i)[n] := by
      have htoken := congrArg (·[n]?) heq
      simp only [List.getElem?_take_of_lt (Nat.lt_succ_self n)] at htoken
      rwa [List.getElem?_eq_getElem hnext', List.getElem?_eq_getElem hnext,
        Option.some.injEq] at htoken
    rw [List.drop_eq_getElem_cons hnext] at hsplit
    rw [List.drop_eq_getElem_cons hnext', htoken]
    exact expr_stops_alike hsplit _ _
  · -- both lists end, and they do so on the same line
    have hall : (tokens'.drop j) = tokens.drop i := by
      rw [List.take_of_length_le (by omega), List.take_of_length_le (by omega)] at heq
      exact heq
    have hne : tokens.drop i ≠ [] := by
      intro hnil
      have hlt : (tokens.drop (i + n)).length < (tokens.drop i).length := expr_takes h
      rw [hnil] at hlt
      exact Nat.not_lt_zero _ hlt
    rw [hall, endLine_eq_of_drop_eq hall hne]
    exact hsplit

end longest

/-- Anywhere in a list of tokens, the reader finds the longest expression that
    stands there, or stops at the first token that fits none. -/
theorem expr_goes_as_far (tokens : List Token) (i : Nat) :
    ∃ n, n ≤ (tokens.drop i).length ∧
      ((∃ e, expr (.behind tokens i) = .ok e (.behind tokens (i + n)) ∧ Longest tokens i n e) ∨
        ∃ err, expr (.behind tokens i) = .error err (.behind tokens (i + n)) ∧
          Stuck tokens i n) := by
  cases hrun : run expr (.behind tokens i) with
  | mk o c' =>
  obtain ⟨n, hn, rfl⟩ := exists_behind hrun
  refine ⟨n, hn, ?_⟩
  cases o with
  | ok e =>
    have h := run_eq_ok_iff.mp hrun
    have hlongest : Longest tokens i n e := {
      derived := derived_behind h
      longest := fun m hm hle t => longest_behind h hm hle t
      further := fun tokens' j heq => expr_of_take_eq h hn heq }
    exact Or.inl ⟨e, h, hlongest⟩
  | error err =>
    have hstuck : Stuck tokens i n := {
      begun := begun_behind hrun
      impossible := not_begun_behind hrun }
    exact Or.inr ⟨err, run_eq_error_iff.mp hrun, hstuck⟩

/-- A comparison does not go on with another one, though sums would. -/
def twiceCompared : List Token :=
  [⟨.num 1, 1⟩, ⟨.lessThan, 1⟩, ⟨.num 2, 1⟩, ⟨.lessThan, 2⟩, ⟨.num 3, 2⟩]

example : expr (.behind twiceCompared 0) = .ok
    (.binary { line := 1 } .lessThan (.num { line := 1 } 1) (.num { line := 1 } 2))
    (.behind twiceCompared 3) := rfl

end ClassLang.Grammar
