import ClassLang.Proofs.Grammar.Lookahead

/-! # What is read begins something

    Where a reader stops, the tokens behind it can go on to what the grammar
    derives: nothing is taken that fits nowhere.

    * **`derivable`**: every right side of a rule derives something, so that what
      was begun can be finished.
    * **`Took`** says it of one run of a reader, **`Begins`** of all of them.
    * **`Offers`** is the same for one step of a repetition, which may decline.
    * One lemma for each way in which readers are put together, and from them
      **`begins_program`**. -/

namespace ClassLang.Grammar

/-! ## Every right side derives something -/

/-- Every nonterminal derives something: the rules are walked from the inside
    out. -/
theorem derivable_sym (s : Sym) : Nonempty (Derivation (.sym s)) := by
  have primary : Derivation (.sym .primary) := .sym (.right (.left (.token .true)))
  have unary : Derivation (.sym .unary) := .sym (.right primary)
  have mul : Derivation (.sym .mul) := .sym (.seq unary .nil)
  have add : Derivation (.sym .add) := .sym (.seq mul .nil)
  have relational : Derivation (.sym .relational) := .sym (.seq add .none)
  have equality : Derivation (.sym .equality) := .sym (.seq relational .nil)
  have expr : Derivation (.sym .expr) := .sym (.seq equality .nil)
  have name : Derivation .ident := .ident "x"
  have type : Derivation (.sym .type) := .sym (.left (.token .int))
  have close : Derivation (.token .closeCurlyBrace) := .token .closeCurlyBrace
  cases s with
  | primary => exact ⟨primary⟩
  | unary => exact ⟨unary⟩
  | mul => exact ⟨mul⟩
  | add => exact ⟨add⟩
  | relational => exact ⟨relational⟩
  | equality => exact ⟨equality⟩
  | expr => exact ⟨expr⟩
  | args => exact ⟨.sym (.seq expr .nil)⟩
  | type => exact ⟨type⟩
  | param => exact ⟨.sym (.seq type name)⟩
  | declaration => exact ⟨.sym (.seq type (.seq name (.seq .nil (.token .semiColon))))⟩
  | stmt =>
    exact ⟨.sym (.left (.seq name (.seq (.token .equal) (.seq expr (.token .semiColon)))))⟩
  | method =>
    have params : Derivation (enclosed (listed (.sym .param))) :=
      .seq (.token .openParen) (.seq .none (.token .closeParen))
    have rest : Derivation (inRow (.many (.sym .declaration)) [.many (.sym .stmt), .token .ret,
        .sym .expr, .token .semiColon, .token .closeCurlyBrace]) :=
      .seq .nil (.seq .nil (.seq (.token .ret) (.seq expr (.seq (.token .semiColon) close))))
    exact ⟨.sym (.seq type (.seq name (.seq params (.seq (.token .openCurlyBrace) rest))))⟩
  | cls =>
    have rest : Derivation (inRow (.token .openCurlyBrace) [.many (.sym .declaration),
        .many (.sym .method), .token .closeCurlyBrace]) :=
      .seq (.token .openCurlyBrace) (.seq .nil (.seq .nil close))
    exact ⟨.sym (.seq (.token .cls) (.seq name (.seq .none rest)))⟩
  | program => exact ⟨.sym .nil⟩

/-- Every right side derives something. -/
theorem derivable (r : Rhs) : Nonempty (Derivation r) := by
  induction r with
  | token k => exact ⟨.token k⟩
  | ident => exact ⟨.ident "x"⟩
  | int => exact ⟨.int 0⟩
  | sym s => exact derivable_sym s
  | seq a b iha ihb =>
    obtain ⟨t⟩ := iha
    obtain ⟨u⟩ := ihb
    exact ⟨.seq t u⟩
  | alt a b iha _ =>
    obtain ⟨t⟩ := iha
    exact ⟨.left t⟩
  | many a _ => exact ⟨.nil⟩
  | maybe a _ => exact ⟨.none⟩

/-! ## Beginnings -/

/-- From `c` to `c'` the tokens are all of a derivation, or, where there is no
    result, its beginning. -/
def Took {α : Type} (r : Rhs) (c : Cursor) (o : Except SyntaxError α) (c' : Cursor) : Prop :=
  ∃ (t : Derivation r) (u z : List TokenKind),
    c.kinds = u ++ c'.kinds ∧ t.yield = u ++ z ∧ ∀ a, o = .ok a → z = []

/-- What the reader takes begins what the right side derives. -/
def Begins {α : Type} (x : Parse α) (r : Rhs) : Prop :=
  ∀ ⦃c o c'⦄, run x c = (o, c') → Took r c o c'

/-- A step that declines, or takes what begins what the right side derives. -/
def Offers {α : Type} (step : Parse (Option α)) (r : Rhs) : Prop :=
  ∀ ⦃c o c'⦄, run step c = (o, c') → (o = .ok none ∧ c' = c) ∨ Took r c o c'

section took

variable {α β : Type} {a b r : Rhs} {c c₁ c' : Cursor} {o : Except SyntaxError α}
  {x : α} {e : SyntaxError}

/-- A derivation of all the tokens. -/
theorem Took.of_yield {t : Derivation r} (h : c.kinds = t.yield ++ c'.kinds) : Took r c o c' :=
  ⟨t, t.yield, [], h, (List.append_nil _).symm, fun _ _ => rfl⟩

theorem Took.yield (h : Took r c (.ok x) c') :
    ∃ t : Derivation r, c.kinds = t.yield ++ c'.kinds := by
  obtain ⟨t, u, z, hkinds, hyield, hz⟩ := h
  obtain rfl : z = [] := hz x rfl
  rw [List.append_nil] at hyield
  exact ⟨t, hyield ▸ hkinds⟩

/-- Nothing taken begins anything. -/
theorem took_nothing (r : Rhs) (e : SyntaxError) (c : Cursor) :
    Took r c (.error e : Except SyntaxError α) c := by
  obtain ⟨t⟩ := derivable r
  exact ⟨t, [], t.yield, rfl, rfl, fun _ h => nomatch h⟩

/-- Another right side with the same yield. -/
theorem Took.imp (h : Took a c o c') (hab : ∀ t : Derivation a, ∃ s : Derivation b,
    s.yield = t.yield) : Took b c o c' := by
  obtain ⟨t, u, z, hkinds, hyield, hz⟩ := h
  obtain ⟨s, hs⟩ := hab t
  exact ⟨s, u, z, hkinds, hs.trans hyield, hz⟩

/-- Another outcome, which is no result if the first is none. -/
theorem Took.outcome {o' : Except SyntaxError β} (h : Took r c o c')
    (ho : ∀ b, o' = .ok b → ∃ a, o = .ok a) : Took r c o' c' := by
  obtain ⟨t, u, z, hkinds, hyield, hz⟩ := h
  refine ⟨t, u, z, hkinds, hyield, fun b hb => ?_⟩
  obtain ⟨a, ha⟩ := ho b hb
  exact hz a ha

/-- What began the first part of a row begins the row. -/
theorem Took.first (h : Took a c (.error e : Except SyntaxError α) c') :
    Took (.seq a b) c (.error e : Except SyntaxError β) c' := by
  obtain ⟨t, u, z, hkinds, hyield, -⟩ := h
  obtain ⟨s⟩ := derivable b
  refine ⟨.seq t s, u, z ++ s.yield, hkinds, ?_, fun _ h => nomatch h⟩
  rw [Derivation.yield, hyield, List.append_assoc]

/-- Behind all of the first part comes what begins the second. -/
theorem Took.second {o : Except SyntaxError β} (h : Took a c (.ok x) c₁) (h₁ : Took b c₁ o c') :
    Took (.seq a b) c o c' := by
  obtain ⟨t, hkinds⟩ := h.yield
  obtain ⟨s, u, z, hkinds₁, hyield₁, hz⟩ := h₁
  refine ⟨.seq t s, t.yield ++ u, z, ?_, ?_, hz⟩
  · rw [hkinds, hkinds₁, List.append_assoc]
  · rw [Derivation.yield, hyield₁, List.append_assoc]

/-- One item more. -/
theorem Took.cons (h : Took (.seq a (.many a)) c o c') : Took (.many a) c o c' := by
  refine h.imp fun t => ?_
  cases t with
  | seq t s => exact ⟨.cons t s, rfl⟩

/-- One item more in front of the others. -/
theorem Took.cons_first (h : Took (.seq a (.seq (.many a) b)) c o c') :
    Took (.seq (.many a) b) c o c' := by
  refine h.imp fun t => ?_
  cases t with
  | seq t u =>
    cases u with
    | seq s u => exact ⟨.seq (.cons t s) u, List.append_assoc _ _ _⟩

end took

namespace Begins

variable {α β : Type} {x y : Parse α} {f : α → Parse β} {a b r : Rhs} {k : TokenKind}

theorem imp (h : Begins x a) (hab : ∀ t : Derivation a, ∃ s : Derivation b, s.yield = t.yield) :
    Begins x b :=
  fun _ _ _ hrun => (h hrun).imp hab

theorem sym {s : Sym} (h : Begins x (rules s)) : Begins x (.sym s) :=
  h.imp fun t => ⟨.sym t, rfl⟩

theorem left (h : Begins x a) : Begins x (.alt a b) := h.imp fun t => ⟨.left t, rfl⟩

theorem right (h : Begins x b) : Begins x (.alt a b) := h.imp fun t => ⟨.right t, rfl⟩

theorem maybe (h : Begins x a) : Begins x (.maybe a) := h.imp fun t => ⟨.some t, rfl⟩

theorem fail (wanted : Wanted) : Begins (fail wanted : Parse α) r := by
  intro c o c' h
  cases h
  exact took_nothing _ _ c

/-! ### One after the other -/

theorem bind (hx : Begins x a) (hf : ∀ y, Begins (f y) b) : Begins (x >>= f) (.seq a b) := by
  intro c o c' h
  rcases run_bind_cases h with ⟨e, hstop, rfl⟩ | ⟨y, c₁, hgo, h⟩
  · exact (hx hstop).first
  · exact (hx hgo).second (hf y h)

theorem map {g : α → β} (hx : Begins x a) : Begins (x >>= fun y => pure (g y)) a := by
  intro c o c' h
  rcases run_bind_cases h with ⟨e, hstop, rfl⟩ | ⟨y, c₁, hgo, h⟩
  · exact (hx hstop).outcome fun _ h => nomatch h
  · cases h
    exact (hx hgo).outcome fun _ _ => ⟨y, rfl⟩

/-- The line of a node is no token. -/
theorem line {g : Nat → Parse β} (hg : ∀ l, Begins (g l) b) : Begins (lineHere >>= g) b :=
  fun c => hg c.line (c := c)

/-- A reader whose fuel is as much as there are tokens. -/
theorem fueled {y : Nat → Parse α} (h : ∀ fuel, Begins (y fuel) r) :
    Begins (fun c => y (c.rest.length + 1) c) r :=
  fun _ _ _ hrun => h _ hrun

/-! ### Tokens -/

theorem expect : Begins (expect k) (.token k) := by
  intro c o c' h
  by_cases hk : c.kindAt 0 = some k
  · rw [run_expect_of_eq hk] at h
    cases h
    exact Took.of_yield (t := .token k) (Cursor.kinds_eq_cons hk)
  · rw [run_expect_of_ne hk] at h
    cases h
    exact took_nothing _ _ c

theorem ident : Begins ident .ident := by
  intro c o c' h
  by_cases hk : ∃ name, c.kindAt 0 = some (.ident name)
  · obtain ⟨name, hk⟩ := hk
    rw [run_ident_of_eq hk] at h
    cases h
    exact Took.of_yield (t := .ident name) (Cursor.kinds_eq_cons hk)
  · rw [run_ident_of_ne fun name h => hk ⟨name, h⟩] at h
    cases h
    exact took_nothing _ _ c

/-- A token behind which there is a result. -/
theorem last {z : β} : Begins (do Grammar.expect k; return z) (.token k) := expect.map

/-- One reader goes on behind a token, and another one if something else comes. -/
theorem accept (hx : Begins (Grammar.expect k >>= fun _ => x) r) (hy : Begins y r) :
    Begins (Grammar.accept k >>= fun t => if t = true then x else y) r := by
  intro c o c' h
  by_cases hk : c.kindAt 0 = some k
  · rw [run_bind_of_ok (run_accept_of_eq hk), if_pos rfl] at h
    exact hx ((run_bind_of_ok (run_expect_of_eq hk)).trans h)
  · rw [run_bind_of_ok (run_accept_of_ne hk), if_neg Bool.false_ne_true] at h
    exact hy h

/-- A token that stands for a result, or else something different. -/
theorem acceptToken {z : α} (hy : Begins y b) :
    Begins (Grammar.accept k >>= fun t => if t = true then pure z else y) (.alt (.token k) b) :=
  accept last.left hy.right

/-- What stands in front of a closing token, unless that comes at once. -/
theorem unlessClosed {z : α} (hy : Begins y (.seq a (.token k))) :
    Begins (Grammar.accept k >>= fun t => if t = true then pure z else y)
      (.seq (.maybe a) (.token k)) := by
  have hclosed : Begins (do Grammar.expect k; return z) (.seq (.maybe a) (.token k)) := by
    refine last.imp fun t => ⟨.seq .none t, rfl⟩
  refine accept hclosed (hy.imp fun t => ?_)
  cases t with
  | seq t s => exact ⟨.seq (.some t) s, rfl⟩

end Begins

/-! ### Repetition -/

namespace Offers

variable {α : Type} {item : Parse α} {step : Parse (Option α)} {r : Rhs} {k : TokenKind}

/-- An item behind a token, if the token comes. -/
theorem accept (h : Begins item r) :
    Offers (do if ← Grammar.accept k then return some (← item) else return none)
      (.seq (.token k) r) := by
  intro c o c' hrun
  by_cases hk : c.kindAt 0 = some k
  · have hitem : Begins (Grammar.expect k >>= fun _ => item >>= fun a => pure (some a))
        (.seq (.token k) r) := Begins.expect.bind fun _ => h.map
    rw [run_bind_of_ok (run_accept_of_eq hk)] at hrun
    exact Or.inr (hitem ((run_bind_of_ok (run_expect_of_eq hk)).trans hrun))
  · rw [run_bind_of_ok (run_accept_of_ne hk)] at hrun
    cases hrun
    exact Or.inl ⟨rfl, rfl⟩

/-- An item, if the next tokens look like one. -/
theorem look {more : Parse Bool} {p : List TokenKind → Bool}
    (hmore : ∀ c, more c = .ok (p c.kinds) c) (h : Begins item r) :
    Offers (do if ← more then return some (← item) else return none) r := by
  intro c o c' hrun
  rw [run_bind_of_ok (run_eq_ok_iff.mpr (hmore c))] at hrun
  split at hrun
  · exact Or.inr (h.map hrun)
  · cases hrun
    exact Or.inl ⟨rfl, rfl⟩

/-- A step that is tried once. -/
theorem maybe (h : Offers step r) : Begins step (.maybe r) := by
  intro c o c' hrun
  rcases h hrun with ⟨rfl, rfl⟩ | htook
  · exact Took.of_yield (t := .none) rfl
  · exact htook.imp fun t => ⟨.some t, rfl⟩

/-- A step that is repeated at most once. -/
theorem collectOnce (h : Offers step r) : Begins (Grammar.collectUpTo step 1) (.maybe r) := by
  have honce : Grammar.collectUpTo step 1 = (step >>= fun next => pure next.toList) := by
    simp only [Grammar.collectUpTo, pure_bind]
    congr 1
    funext next
    cases next <;> rfl
  rw [honce]
  exact h.maybe.map

/-- A step that is repeated until it declines. -/
theorem collectUpTo (h : Offers step r) (fuel : Nat) :
    Begins (collectUpTo step fuel) (.many r) := by
  induction fuel with
  | zero =>
    intro c o c' hrun
    cases hrun
    exact Took.of_yield (t := .nil) rfl
  | succ fuel ih =>
    intro c o c' hrun
    rcases run_bind_cases hrun with ⟨e, hstop, rfl⟩ | ⟨next, c₁, hgo, hrun⟩
    · rcases h hstop with ⟨ho, -⟩ | htook
      · cases ho
      · exact htook.first.cons
    cases next with
    | none =>
      cases hrun
      rcases h hgo with ⟨-, rfl⟩ | htook
      · exact Took.of_yield (t := .nil) rfl
      · obtain ⟨t, hkinds⟩ := htook.yield
        have hone : (Derivation.cons t .nil).yield = t.yield := List.append_nil _
        exact Took.of_yield (t := .cons t .nil) (hone ▸ hkinds)
    | some a =>
      rcases h hgo with ⟨ho, -⟩ | htook
      · cases ho
      · exact (htook.second (ih.map hrun)).cons

theorem collect (h : Offers step r) : Begins (collect step) (.many r) :=
  Begins.fueled fun fuel => h.collectUpTo fuel

end Offers

namespace Begins

variable {α : Type} {item : Parse α} {r : Rhs} {k : TokenKind}

/-- Items as long as the next tokens look like one. -/
theorem manyWhile {more : Parse Bool} {p : List TokenKind → Bool}
    (hmore : ∀ c, more c = .ok (p c.kinds) c) (h : Begins item r) :
    Begins (manyWhile more item) (.many r) :=
  (Offers.look hmore h).collect

/-- Items that are led by commas. -/
theorem commas (h : Begins item r) :
    Begins (Grammar.manyWhile (Grammar.accept .comma) item) (.many (inRow (.token .comma) [r])) :=
  (Offers.accept h).collect

/-- Items up to a closing token, with enough fuel for all of them. -/
theorem untilClosed (h : Begins item r) (htakes : ∀ a, Takes item a) (fuel : Nat) :
    ∀ ⦃c o c'⦄, c.rest.length < fuel →
      run (collectUpTo (do
        if ← Grammar.accept k then return none else return some (← item)) fuel) c = (o, c') →
      Took (.seq (.many r) (.token k)) c o c' := by
  induction fuel with
  | zero => exact fun c _ _ hfuel => absurd hfuel (Nat.not_lt_zero _)
  | succ fuel ih =>
    intro c o c' hfuel hrun
    by_cases hk : c.kindAt 0 = some k
    · -- the closing token comes at once
      have hnone : run (do if ← Grammar.accept k then return none else return some (← item)) c =
          (.ok none, c.next) := run_bind_of_ok (run_accept_of_eq hk)
      have hclosed := (run_bind_of_ok hnone).symm.trans hrun
      cases hclosed
      exact Took.of_yield (t := .seq .nil (.token k)) (Cursor.kinds_eq_cons hk)
    · rw [run_until_of_ne item hk] at hrun
      rcases run_bind_cases hrun with ⟨e, hstop, rfl⟩ | ⟨a, c₁, hgo, hrun⟩
      · exact (h hstop).first.cons_first
      have hlt : c₁.rest.length < c.rest.length := htakes a hgo
      rcases run_bind_cases hrun with ⟨e, hstop, rfl⟩ | ⟨rest, c₂, hrest, hpure⟩
      · exact ((h hgo).second (ih (by omega) hstop)).cons_first
      · cases hpure
        exact ((h hgo).second ((ih (by omega) hrest).outcome fun _ _ => ⟨rest, rfl⟩)).cons_first

/-- Items up to a closing token. -/
theorem manyUntil (h : Begins item r) (htakes : ∀ a, Takes item a) :
    Begins (manyUntil k item) (.seq (.many r) (.token k)) :=
  fun _ _ _ hrun => h.untilClosed htakes _ (Nat.lt_succ_self _) hrun

/-- The first reader takes two parts of a row at once. -/
theorem bind_pair {β : Type} {x : Parse α} {f : α → Parse β} {a b : Rhs}
    (hx : Begins x (.seq a b)) (hf : ∀ y, Begins (f y) r) :
    Begins (x >>= f) (.seq a (.seq b r)) := by
  refine (hx.bind hf).imp fun t => ?_
  cases t with
  | seq t u =>
    cases t with
    | seq t s => exact ⟨.seq t (.seq s u), (List.append_assoc _ _ _).symm⟩

/-- A list with commas, and a token behind it. -/
theorem row (h : Begins item r) :
    Begins (do
        let first ← item
        let others ← Grammar.manyWhile (Grammar.accept .comma) item
        Grammar.expect k
        return first :: others)
      (.seq (listed r) (.token k)) := by
  refine (h.bind fun first => h.commas.bind fun others => last).imp fun t => ?_
  cases t with
  | seq t u =>
    cases u with
    | seq s u => exact ⟨.seq (.seq t s) u, List.append_assoc _ _ _⟩

/-- A list in parentheses. -/
theorem enclosed {row : Parse (List α)} (h : Begins row (.seq r (.token .closeParen))) :
    Begins (do
        Grammar.expect .openParen
        if ← Grammar.accept .closeParen then return []
        row)
      (Grammar.enclosed r) :=
  expect.bind fun _ => unlessClosed h

end Begins

/-! ## Expressions -/

section operators

variable {level : Level} {op a : Rhs} {meaning : op.Value → BinaryOp} {operand : Parse Expr}
  {tighter : List Level} {lower : Sym}

/-- An operator and its right operand, if an operator comes. -/
theorem offers_operation (hm : level.Means op meaning) (h : Begins operand a) :
    Offers (level.operation operand) (.seq op a) := by
  intro c o c' hrun
  unfold Level.operation at hrun
  rw [run_bind_of_ok (run_peek c)] at hrun
  cases hop : (c.kindAt 0).bind level.operator? with
  | none =>
    rw [hop] at hrun
    cases hrun
    exact Or.inl ⟨rfl, rfl⟩
  | some b =>
    rw [hop] at hrun
    obtain ⟨k, hk, hb⟩ := Option.bind_eq_some_iff.mp hop
    obtain ⟨v, ⟨t, ht, -⟩, -⟩ := hm.spelled hb c.next.kinds
    rw [← Cursor.kinds_eq_cons hk] at ht
    have hadvance : Took op c (.ok () : Except SyntaxError Unit) c.next := Took.of_yield ht
    have hitem : Begins (operand >>= fun e => pure (some (b, e))) a := h.map
    exact Or.inr (hadvance.second (hitem hrun))

/-- A level that chains, around the tighter ones. -/
theorem begins_chain (hchains : level.chains = true) (hm : level.Means op meaning)
    (h : Begins (climb operand tighter) (.sym lower)) :
    Begins (climb operand (level :: tighter)) (chain lower op) := by
  refine h.bind fun _ => Begins.map ?_
  rw [Level.operations, if_pos hchains]
  exact (offers_operation hm h).collect

/-- A level that does not chain. -/
theorem begins_single (hchains : level.chains = false) (hm : level.Means op meaning)
    (h : Begins (climb operand tighter) (.sym lower)) :
    Begins (climb operand (level :: tighter)) (.seq (.sym lower) (.maybe (.seq op (.sym lower)))) := by
  refine h.bind fun _ => Begins.map ?_
  rw [Level.operations, hchains]
  exact (offers_operation hm h).collectOnce

/-- All levels around the operands. -/
theorem begins_climb (h : Begins operand (.sym .unary)) :
    Begins (climb operand levels) (.sym .expr) := by
  have hunary : Begins (climb operand (levels.drop 5)) (.sym .unary) := h
  have hmul : Begins (climb operand (levels.drop 4)) (.sym .mul) :=
    (begins_chain rfl means_mul hunary).sym
  have hadd : Begins (climb operand (levels.drop 3)) (.sym .add) :=
    (begins_chain rfl means_add hmul).sym
  have hrelational : Begins (climb operand (levels.drop 2)) (.sym .relational) :=
    (begins_single rfl means_relational hadd).sym
  have hequality : Begins (climb operand (levels.drop 1)) (.sym .equality) :=
    (begins_chain rfl means_equality hrelational).sym
  exact (begins_chain rfl means_and hequality).sym

end operators

/-! ## Operands -/

section operands

variable {e : Parse Expr}

/-- The arguments of a call in their parentheses. -/
theorem begins_arguments (he : Begins e (.sym .expr)) :
    Begins (arguments e) (enclosed (.sym .args)) := by
  refine Begins.enclosed (he.row.imp fun t => ?_)
  cases t with
  | seq t u => exact ⟨.seq (.sym t) u, rfl⟩

/-- A name, and what follows it: a method of an object, a call, or nothing. -/
theorem begins_name (he : Begins e (.sym .expr)) (line : Nat) (name : String) :
    Begins (expect (.ident name) >>= fun _ => afterName e line name) (rules .primary) := by
  have hcall : Begins (arguments e >>= fun es => pure (Expr.selfCall { line } name es))
      (enclosed (.sym .args)) := (begins_arguments he).map
  have hmethod : Begins (expect .dot >>= fun _ => ident >>= fun method => arguments e >>= fun es =>
      pure (Expr.methodCall { line } (.var { line } name) method es))
      (inRow (.token .dot) [.ident, enclosed (.sym .args)]) :=
    Begins.expect.bind fun _ => Begins.ident.bind fun _ => (begins_arguments he).map
  have hafter : Begins (afterName e line name) (.maybe (.alt
      (inRow (.token .dot) [.ident, enclosed (.sym .args)]) (enclosed (.sym .args)))) := by
    refine Begins.accept hmethod.left.maybe fun c o c' hrun => ?_
    change run (if c.kindAt 0 = some .openParen then _ else _) c = _ at hrun
    split at hrun
    · exact hcall.right.maybe hrun
    · cases hrun
      exact Took.of_yield (t := .none) rfl
  refine (Begins.expect.bind fun _ => hafter).imp fun t => ?_
  cases t with
  | seq t u =>
    cases t
    cases u with
    | none =>
      refine ⟨.right (.right (.right (.right (.right (.right (.right (.left ?_))))))), ?_⟩
      · exact .ident name
      · rfl
    | some u =>
      cases u with
      | left u =>
        refine ⟨.right (.right (.right (.right (.right (.left ?_))))), ?_⟩
        · exact .seq (.ident name) u
        · rfl
      | right u =>
        refine ⟨.right (.right (.right (.right (.right (.right (.left ?_)))))), ?_⟩
        · exact .seq (.ident name) u
        · rfl

/-- A reader that looks at the line and the kind of the next token. -/
theorem run_look {α : Type} {f : Nat → Option TokenKind → Parse α} {c : Cursor} :
    run (lineHere >>= fun line => peek 0 >>= f line) c = run (f c.line (c.kindAt 0)) c :=
  rfl

/-- An operand without operators. -/
theorem begins_primary (he : Begins e (.sym .expr)) : Begins (primary e) (.sym .primary) := by
  refine Begins.sym fun c o c' hrun => ?_
  -- the token that was seen is the one that is expected
  have hseen : ∀ {k : TokenKind} {x : Parse Expr}, c.kindAt 0 = some k →
      run (advance >>= fun _ => x) c = (o, c') → Begins (expect k >>= fun _ => x) (rules .primary) →
      Took (rules .primary) c o c' := by
    intro k x hk hx h
    exact h ((run_bind_of_ok (run_expect_of_eq hk)).trans hx)
  have hnone : run (fail .expression : Parse Expr) c = (o, c') → Took (rules .primary) c o c' :=
    fun h => Begins.fail _ h
  have hrun := run_look.symm.trans hrun
  cases hk : c.kindAt 0 with
  | none =>
    rw [hk] at hrun
    exact hnone hrun
  | some k =>
    rw [hk] at hrun
    cases k with
    | true => exact hseen hk hrun Begins.last.left.right
    | false => exact hseen hk hrun Begins.last.left.right.right
    | nothing => exact hseen hk hrun Begins.last.left.right.right.right
    | new =>
      exact hseen hk hrun (Begins.expect.bind fun _ => Begins.ident.map).left.right.right.right.right
    | ident name => exact hseen hk hrun (begins_name he c.line name)
    | openParen =>
      have hinner : Begins (expect .openParen >>= fun _ => e >>= fun inner =>
          expect .closeParen >>= fun _ => pure inner)
          (inRow (.token .openParen) [.sym .expr, .token .closeParen]) :=
        Begins.expect.bind fun _ => he.bind fun _ => Begins.last
      exact hseen hk hrun hinner.right.right.right.right.right.right.right.right
    | num value =>
      have hnum : Begins (expect (.num value) >>= fun _ => pure (Expr.num { line := c.line } value))
          .int := by
        refine Begins.last.imp fun t => ?_
        cases t
        exact ⟨.int value, rfl⟩
      exact hseen hk hrun hnum.left
    | _ => exact hnone hrun

/-- Operands with the operators in front of them. -/
theorem begins_unary (fuel : Nat) : Begins (unary fuel) (.sym .unary) := by
  induction fuel with
  | zero => exact Begins.fail _
  | succ fuel ih =>
    have hop : ∀ (k : TokenKind) (line : Nat) (op : UnaryOp), Begins
        (expect k >>= fun _ => unary fuel >>= fun e => pure (Expr.unary { line } op e))
        (.seq (.token k) (.sym .unary)) := fun k line op => Begins.expect.bind fun _ => ih.map
    have hprimary := (begins_primary (begins_climb ih)).right (a := .seq
      (oneOf (.token .minus) [.token .not]) (.sym .unary))
    refine (Begins.line fun line => Begins.accept ?_ (Begins.accept ?_ hprimary)).sym
    · refine ((hop .minus line .neg).imp fun t => ?_).left
      cases t with
      | seq t u => exact ⟨.seq (.left t) u, rfl⟩
    · refine ((hop .not line .not).imp fun t => ?_).left
      cases t with
      | seq t u => exact ⟨.seq (.right t) u, rfl⟩

/-- The reader of expressions. -/
theorem begins_expr : Begins expr (.sym .expr) :=
  Begins.fueled (y := fun fuel => climb (unary fuel) levels) fun fuel =>
    begins_climb (begins_unary fuel)

end operands

/-! ## Declarations, statements and programs -/

theorem begins_typeName : Begins typeName (.sym .type) :=
  (Begins.acceptToken <| Begins.acceptToken <| Begins.acceptToken Begins.ident.map).sym

theorem begins_declaration : Begins declaration (.sym .declaration) :=
  (Begins.line fun _ => begins_typeName.bind fun _ => Begins.ident.bind fun _ =>
    Begins.ident.commas.bind fun _ => Begins.last).sym

theorem begins_param : Begins param (.sym .param) :=
  (Begins.line fun _ => begins_typeName.bind fun _ => Begins.ident.map).sym

/-- The parameters of a method in their parentheses. -/
theorem begins_params : Begins params (enclosed (listed (.sym .param))) :=
  begins_param.row.enclosed

/-- Statements whose blocks nest. -/
theorem begins_stmtUpTo (fuel : Nat) : Begins (stmtUpTo fuel) (.sym .stmt) := by
  induction fuel with
  | zero => exact Begins.fail _
  | succ fuel ih =>
    have htakes : ∀ s, Takes (stmtUpTo fuel) s := (stmtUpTo_agrees fuel fun _ => True).takes rfl
    refine (Begins.line fun line => Begins.accept ?_ (Begins.accept ?_ ?_)).sym
    · apply Begins.right
      apply Begins.left
      exact Begins.expect.bind fun _ => Begins.expect.bind fun _ => begins_expr.bind fun _ =>
        Begins.expect.bind fun _ => Begins.expect.bind fun _ => (ih.manyUntil htakes).map
    · apply Begins.right
      apply Begins.right
      exact Begins.expect.bind fun _ => Begins.expect.bind fun _ => begins_expr.bind fun _ =>
        Begins.expect.bind fun _ => Begins.last
    · apply Begins.left
      exact Begins.ident.bind fun _ => Begins.expect.bind fun _ => begins_expr.bind fun _ =>
        Begins.last

theorem begins_stmt : Begins stmt (.sym .stmt) := Begins.fueled begins_stmtUpTo

theorem begins_method : Begins method (.sym .method) := by
  have hbody : Begins (manyUntil .ret stmt) (.seq (.many (.sym .stmt)) (.token .ret)) :=
    begins_stmt.manyUntil stmt_takes
  exact (Begins.line fun _ => begins_typeName.bind fun _ => Begins.ident.bind fun _ =>
    begins_params.bind fun _ => Begins.expect.bind fun _ =>
      (begins_declaration.manyWhile atDeclaration_eq).bind fun _ => hbody.bind_pair fun _ =>
        begins_expr.bind fun _ => Begins.expect.bind fun _ => Begins.last).sym

theorem begins_superclass : Begins superclass (.maybe (inRow (.token .colon) [.ident])) :=
  (Offers.accept Begins.ident).maybe

theorem begins_classDef : Begins classDef (.sym .cls) := by
  have hmethods : Begins (manyUntil .closeCurlyBrace method)
      (.seq (.many (.sym .method)) (.token .closeCurlyBrace)) :=
    begins_method.manyUntil method_takes
  exact (Begins.line fun _ => Begins.expect.bind fun _ => Begins.ident.bind fun _ =>
    begins_superclass.bind fun _ => Begins.expect.bind fun _ =>
      (begins_declaration.manyWhile atField_eq).bind fun _ => hmethods.map).sym

/-- The reader of programs. -/
theorem begins_program : Begins program (.sym .program) :=
  (Begins.line fun _ => (begins_classDef.manyWhile atToken_eq).map).sym

end ClassLang.Grammar
