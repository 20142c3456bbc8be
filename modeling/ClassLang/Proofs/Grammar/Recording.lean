import ClassLang.Proofs.Grammar.Lines

/-! # The lines that are recorded

    Readers record lines by different means: before anything is read, from the
    token that is seen, or from the left operand.  All of them come to one rule.

    * **`Records`**: what a reader returns is a function of the values of what it
      takes, with the lines that stand there.  There is one lemma for each way in
      which readers are put together.
    * **`Headed`**: an expression is on the line of the first of its tokens that
      is no opening parenthesis.
    * **`Program.lines_recorded`**: every node is on the line of its first token,
      and an operation with two operands on that of the first token behind the
      parentheses that open its left operand.
    * **`Program.line_not_first`**: that is not always the first token. -/

namespace ClassLang.Grammar

/-! ## Readers -/

/-- What the reader returns is `f` of what its tokens stand for. -/
def Records {α : Type} (x : Parse α) (r : Rhs) (f : r.Value → α) : Prop :=
  ∀ ⦃c y c'⦄, x c = .ok y c' → ∃ u v, c.rest = u ++ c'.rest ∧ r.Lined u v ∧ y = f v

/-- The token that is seen. -/
theorem Cursor.rest_eq_cons {c : Cursor} {k : TokenKind} (h : c.kindAt 0 = some k) :
    c.rest = ⟨k, c.line⟩ :: c.next.rest := by
  unfold Cursor.kindAt at h
  obtain ⟨t, ht, rfl⟩ := Option.map_eq_some_iff.mp h
  obtain ⟨rest, hrest⟩ : ∃ rest, c.rest = t :: rest := by
    cases hc : c.rest with
    | nil =>
      rw [hc] at ht
      cases ht
    | cons s rest =>
      rw [hc] at ht
      cases ht
      exact ⟨rest, rfl⟩
  show c.rest = ⟨t.kind, (c.rest.head?.map Token.line).getD c.endLine⟩ :: c.rest.tail
  rw [hrest]
  rfl

namespace Records

variable {α β : Type} {x y : Parse α} {a b r : Rhs} {k : TokenKind}

/-- Another right side that derives the same tokens. -/
theorem imp {f : a.Value → α} {g : b.Value → α} (h : Records x a f)
    (hab : ∀ {u v}, a.Lined u v → ∃ w, b.Lined u w ∧ g w = f v) : Records x b g := by
  intro c z c' hz
  obtain ⟨u, v, hrest, hv, rfl⟩ := h hz
  obtain ⟨w, hw, heq⟩ := hab hv
  exact ⟨u, w, hrest, hw, heq.symm⟩

theorem left {f : (Rhs.alt a b).Value → α} (h : Records x a fun v => f (.inl v)) :
    Records x (.alt a b) f :=
  h.imp fun hv => ⟨_, hv.left, rfl⟩

theorem right {f : (Rhs.alt a b).Value → α} (h : Records x b fun v => f (.inr v)) :
    Records x (.alt a b) f :=
  h.imp fun hv => ⟨_, hv.right, rfl⟩

theorem maybe {f : (Rhs.maybe a).Value → α} (h : Records x a fun v => f (some v)) :
    Records x (.maybe a) f :=
  h.imp fun hv => ⟨_, hv.some, rfl⟩

/-- The value of a rule whose node has no line. -/
theorem sym {s : Sym} {f : (rules s).Value → s.Value} {x : Parse s.Value} (h : Records x (rules s) f)
    (hf : ∀ l o v, s.buildAt l o v = f v) : Records x (.sym s) id :=
  h.imp fun hv => ⟨_, hv.sym, hf _ _ _⟩

/-- The value of a rule whose node is on the line where the reader started. -/
theorem node {s : Sym} {f : Nat → (rules s).Value → s.Value} {g : Nat → Parse s.Value}
    (h : ∀ l, Records (g l) (rules s) (f l)) (hf : ∀ l o v, s.buildAt l o v = f l v)
    (hs : (rules s).takes = true) : Records (lineHere >>= g) (.sym s) id := by
  intro c z c' hz
  obtain ⟨l, c₁, hl, hz⟩ := estate_bind_ok_iff.mp hz
  cases hl
  obtain ⟨u, v, hrest, hv, rfl⟩ := h _ hz
  obtain ⟨t, w, rfl⟩ := List.exists_cons_of_ne_nil (hv.ne_nil hs)
  have hline : c.line = t.line := by rw [Cursor.line, hrest]; rfl
  refine ⟨t :: w, _, hrest, hv.sym, ?_⟩
  rw [hline]
  exact (hf _ _ v).symm

/-! ### One after the other -/

theorem bind {f : a.Value → α} {g : α → Parse β} {h : (Rhs.seq a b).Value → β}
    (hx : Records x a f) (hg : ∀ v, Records (g (f v)) b fun w => h (v, w)) :
    Records (x >>= g) (.seq a b) h := by
  intro c z c' hz
  obtain ⟨y, c₁, hy, hz⟩ := estate_bind_ok_iff.mp hz
  obtain ⟨u, v, hrest, hv, rfl⟩ := hx hy
  obtain ⟨u', v', hrest', hv', rfl⟩ := hg v hz
  exact ⟨u ++ u', (v, v'), by rw [hrest, hrest', List.append_assoc], hv.seq hv', rfl⟩

theorem map {f : a.Value → α} {g : α → β} {h : a.Value → β} (hx : Records x a f)
    (hh : ∀ v, h v = g (f v)) : Records (x >>= fun y => pure (g y)) a h := by
  intro c z c' hz
  obtain ⟨y, c₁, hy, hpure⟩ := estate_bind_ok_iff.mp hz
  cases hpure
  obtain ⟨u, v, hrest, hv, rfl⟩ := hx hy
  exact ⟨u, v, hrest, hv, (hh v).symm⟩

/-- A reader whose fuel is as much as there are tokens. -/
theorem fueled {z : Nat → Parse α} {f : r.Value → α} (h : ∀ fuel, Records (z fuel) r f) :
    Records (fun c => z (c.rest.length + 1) c) r f :=
  fun _ _ _ hz => h _ hz

/-! ### Tokens -/

theorem expect : Records (expect k) (.token k) id := by
  intro c z c' hz
  unfold Grammar.expect at hz
  split at hz
  · next hk =>
    cases hz
    exact ⟨_, (), Cursor.rest_eq_cons hk, lined_token k c.line, rfl⟩
  · cases hz

theorem ident : Records ident .ident id := by
  intro c z c' hz
  unfold Grammar.ident at hz
  split at hz
  · next hk =>
    cases hz
    exact ⟨_, z, Cursor.rest_eq_cons hk, lined_ident z c.line, rfl⟩
  · cases hz

/-- A token behind which there is a result. -/
theorem last {z : β} {h : Unit → β} (hh : h () = z) :
    Records (do Grammar.expect k; return z) (.token k) h :=
  expect.map fun _ => hh

/-- One reader goes on behind a token, and another one if something else comes. -/
theorem accept {f : r.Value → α} (hx : Records (Grammar.expect k >>= fun _ => x) r f)
    (hy : Records y r f) :
    Records (Grammar.accept k >>= fun t => if t = true then x else y) r f := by
  intro c z c' hz
  rcases accept_bind_ok_iff.mp hz with ⟨hk, hz⟩ | ⟨-, hz⟩
  · have hexpect : Grammar.expect k c = .ok () c.next := if_pos hk
    exact hx (estate_bind_ok_iff.mpr ⟨(), c.next, hexpect, hz⟩)
  · exact hy hz

/-- A token that stands for a result, or else something different. -/
theorem acceptToken {z : α} {h : (Rhs.alt (.token k) b).Value → α} (hz : h (.inl ()) = z)
    (hy : Records y b fun v => h (.inr v)) :
    Records (Grammar.accept k >>= fun t => if t = true then pure z else y) (.alt (.token k) b) h :=
  accept (last hz).left hy.right

/-- What stands in front of a closing token, unless that comes at once. -/
theorem unlessClosed {z : α} {h : (Rhs.seq (.maybe a) (.token k)).Value → α}
    (hz : h (none, ()) = z) (hy : Records y (.seq a (.token k)) fun v => h (some v.1, v.2)) :
    Records (Grammar.accept k >>= fun t => if t = true then pure z else y)
      (.seq (.maybe a) (.token k)) h := by
  have hclosed : Records (do Grammar.expect k; return z) (.seq (.maybe a) (.token k)) h := by
    refine (last (h := fun _ => z) rfl).imp fun {u v} hv => ⟨(none, v), ?_, hz⟩
    exact (lined_none a).seq hv
  refine accept hclosed (hy.imp fun {u v} hv => ⟨(some v.1, v.2), ?_, rfl⟩)
  obtain ⟨u, u', rfl, h, h'⟩ := lined_seq_iff.mp hv
  exact h.some.seq h'

/-- The first reader takes two parts of a row at once. -/
theorem bind_pair {f : (Rhs.seq a b).Value → α} {g : α → Parse β}
    {h : (Rhs.seq a (.seq b r)).Value → β} (hx : Records x (.seq a b) f)
    (hg : ∀ v, Records (g (f v)) r fun w => h (v.1, v.2, w)) :
    Records (x >>= g) (.seq a (.seq b r)) h := by
  have hrow : Records (x >>= g) (.seq (.seq a b) r) fun v => h (v.1.1, v.1.2, v.2) := hx.bind hg
  exact hrow.imp fun {u v} hv => ⟨(v.1.1, v.1.2, v.2), lined_assoc.mp hv, rfl⟩

end Records

/-! ### Repetition -/

/-- A step that reads an item, or declines. -/
def RecordsStep {α : Type} (step : Parse (Option α)) (r : Rhs) (f : r.Value → α) : Prop :=
  ∀ ⦃c y c'⦄, step c = .ok (some y) c' → ∃ u v, c.rest = u ++ c'.rest ∧ r.Lined u v ∧ y = f v

section repetition

variable {α : Type} {step : Parse (Option α)} {item : Parse α} {r : Rhs} {f : r.Value → α}
  {k : TokenKind}

/-- What is collected are items, up to a place where the step declines. -/
theorem RecordsStep.collectUpTo (h : RecordsStep step r f) (hr : r.takes = true) (fuel : Nat) :
    ∀ ⦃c ys c'⦄, c.rest.length < fuel → collectUpTo step fuel c = .ok ys c' →
      ∃ c₁ u vs, c.rest = u ++ c₁.rest ∧ (Rhs.many r).Lined u vs ∧ ys = List.map f vs ∧
        step c₁ = .ok none c' := by
  induction fuel with
  | zero => exact fun c _ _ hfuel => absurd hfuel (Nat.not_lt_zero _)
  | succ fuel ih =>
    intro c ys c' hfuel hys
    obtain ⟨o, c₁, ho, hys⟩ := estate_bind_ok_iff.mp hys
    cases o with
    | none =>
      cases hys
      exact ⟨c, [], [], rfl, lined_nil r, rfl, ho⟩
    | some y =>
      obtain ⟨rest, c₂, hcollect, hpure⟩ := estate_bind_ok_iff.mp hys
      cases hpure
      obtain ⟨u, v, hrest, hv, rfl⟩ := h ho
      have hlt : c₁.rest.length < fuel := by
        have hpos := List.length_pos_iff.mpr (hv.ne_nil hr)
        rw [hrest, List.length_append] at hfuel
        omega
      obtain ⟨c₃, u', vs, hrest', hvs, rfl, hstop⟩ := ih hlt hcollect
      refine ⟨c₃, u ++ u', v :: vs, ?_, hv.cons hvs, rfl, hstop⟩
      rw [hrest, hrest', List.append_assoc]

/-- A repetition that stops in front of what follows. -/
theorem RecordsStep.collect (h : RecordsStep step r f) (hr : r.takes = true)
    (hstop : ∀ {c c'}, step c = .ok none c' → c' = c) :
    Records (collect step) (.many r) (List.map f) := by
  intro c ys c' hys
  obtain ⟨c₁, u, vs, hrest, hvs, heq, hdecline⟩ := h.collectUpTo hr _ (Nat.lt_succ_self _) hys
  cases hstop hdecline
  exact ⟨u, vs, hrest, hvs, heq⟩

/-- Items as long as the next tokens look like one. -/
theorem Records.manyWhile {more : Parse Bool} {p : List TokenKind → Bool}
    {g : List r.Value → List α} (hmore : ∀ c, more c = .ok (p c.kinds) c) (h : Records item r f)
    (hr : r.takes = true) (hg : ∀ vs, vs.map f = g vs) :
    Records (manyWhile more item) (.many r) g := by
  rw [← funext hg]
  refine RecordsStep.collect (fun c y c' hy => ?_) hr fun hnone => (while_none hmore hnone).1
  obtain ⟨t, c₁, ht, hy⟩ := estate_bind_ok_iff.mp hy
  cases (hmore c).symm.trans ht
  split at hy
  · obtain ⟨z, c₂, hz, hpure⟩ := estate_bind_ok_iff.mp hy
    cases hpure
    exact h hz
  · cases hy

/-- Items behind commas. -/
theorem Records.commas (h : Records item r f) :
    Records (Grammar.manyWhile (Grammar.accept .comma) item)
      (.many (inRow (.token .comma) [r])) (List.map fun v => f v.2) := by
  refine RecordsStep.collect (fun c y c' hy => ?_) rfl fun {c c'} hnone => ?_
  · rcases accept_bind_ok_iff.mp hy with ⟨hk, hy⟩ | ⟨-, hy⟩
    · obtain ⟨z, c₂, hz, hpure⟩ := estate_bind_ok_iff.mp hy
      cases hpure
      obtain ⟨u, v, hrest, hv, rfl⟩ := h hz
      refine ⟨_, ((), v), ?_, (lined_token .comma c.line).seq hv, rfl⟩
      rw [Cursor.rest_eq_cons hk, hrest, List.singleton_append, List.cons_append]
    · cases hy
  · rcases accept_bind_ok_iff.mp hnone with ⟨-, hnone⟩ | ⟨-, hnone⟩
    · obtain ⟨_, _, _, hpure⟩ := estate_bind_ok_iff.mp hnone
      cases hpure
    · cases hnone
      rfl

/-- Items up to a closing token. -/
theorem Records.manyUntil {g : List r.Value → List α} (h : Records item r f)
    (hr : r.takes = true) (hg : ∀ vs, vs.map f = g vs) :
    Records (Grammar.manyUntil k item) (.seq (.many r) (.token k)) fun v => g v.1 := by
  have hstep : RecordsStep (do if ← Grammar.accept k then return none else return some (← item))
      r f := by
    intro c y c' hy
    rcases accept_bind_ok_iff.mp hy with ⟨-, hy⟩ | ⟨-, hy⟩
    · cases hy
    · obtain ⟨z, c₂, hz, hpure⟩ := estate_bind_ok_iff.mp hy
      cases hpure
      exact h hz
  intro c ys c' hys
  obtain ⟨c₁, u, vs, hrest, hvs, rfl, hdecline⟩ :=
    hstep.collectUpTo hr _ (Nat.lt_succ_self _) hys
  -- where the step declines it takes the closing token
  rcases accept_bind_ok_iff.mp hdecline with ⟨hk, hdecline⟩ | ⟨-, hdecline⟩
  · cases hdecline
    refine ⟨_, (vs, ()), ?_, hvs.seq (lined_token k c₁.line), hg vs⟩
    rw [hrest, Cursor.rest_eq_cons hk, List.append_assoc, List.singleton_append]
  · obtain ⟨_, _, _, hpure⟩ := estate_bind_ok_iff.mp hdecline
    cases hpure

/-- A list with commas, and a token behind it. -/
theorem Records.row (h : Records item r f) :
    Records (do
        let first ← item
        let others ← Grammar.manyWhile (Grammar.accept .comma) item
        Grammar.expect k
        return first :: others)
      (.seq (listed r) (.token k))
      fun v => f v.1.1 :: List.map (fun (u : Unit × r.Value) => f u.2) v.1.2 := by
  have hrow : Records (item >>= fun first => Grammar.manyWhile (Grammar.accept .comma) item >>=
      fun others => Grammar.expect k >>= fun _ => pure (first :: others))
      (.seq r (.seq (.many (inRow (.token .comma) [r])) (.token k)))
      fun v => f v.1 :: List.map (fun (u : Unit × r.Value) => f u.2) v.2.1 :=
    h.bind fun first => h.commas.bind fun others => Records.last rfl
  exact hrow.imp fun {u v} hv => ⟨((v.1, v.2.1), v.2.2), lined_assoc.mpr hv, rfl⟩

/-- A list in parentheses. -/
theorem Records.enclosed {β : Type} {row : Parse (List β)} {g : r.Value → List β}
    (h : Records row (.seq r (.token .closeParen)) fun v => g v.1) :
    Records (do
        Grammar.expect .openParen
        if ← Grammar.accept .closeParen then return []
        row)
      (Grammar.enclosed r) fun v => v.2.1.elim [] g := by
  have hinner : ∀ _ : Unit, Records (do
        if ← Grammar.accept .closeParen then return []
        row) (.seq (.maybe r) (.token .closeParen)) fun v => v.1.elim [] g :=
    fun _ => Records.unlessClosed rfl h
  exact Records.expect.bind hinner

end repetition

/-! ## Expressions -/

/-- Behind opening parentheses, the first token is on this line. -/
inductive Opens (line : Nat) : List Token → Prop
  | here {kind : TokenKind} {w : List Token} (h : kind ≠ .openParen) : Opens line (⟨kind, line⟩ :: w)
  | paren {l : Nat} {w : List Token} (h : Opens line w) : Opens line (⟨.openParen, l⟩ :: w)

theorem Opens.append {line : Nat} {u : List Token} (h : Opens line u) (w : List Token) :
    Opens line (u ++ w) := by
  induction h with
  | here h => exact .here h
  | paren _ ih => exact .paren ih

theorem Opens.eq {line : Nat} {u : List Token} (h : Opens line u) : lineBehindParens u = line := by
  induction h with
  | here h => exact lineBehindParens_other h
  | paren _ ih => rw [lineBehindParens_paren rfl, ih]

/-- An expression is `f` of what its tokens stand for, and on the line of the
    first of them that is no opening parenthesis. -/
def Headed (x : Parse Expr) (r : Rhs) (f : r.Value → Expr) : Prop :=
  ∀ ⦃c e c'⦄, x c = .ok e c' →
    ∃ u v, c.rest = u ++ c'.rest ∧ r.Lined u v ∧ e = f v ∧ Opens e.line u

theorem Headed.records {x : Parse Expr} {r : Rhs} {f : r.Value → Expr} (h : Headed x r f) :
    Records x r f := by
  intro c e c' he
  obtain ⟨u, v, hrest, hv, heq, -⟩ := h he
  exact ⟨u, v, hrest, hv, heq⟩

/-! ### Operators -/

section operators

variable {level : Level} {tighter : List Level} {operand x : Parse Expr} {op a b : Rhs}
  {meaning : op.Value → BinaryOp} {f : a.Value → Expr}

/-- In a row of operations, each one is on the line of its left operand. -/
theorem foldl_combine_eq (meaning : op.Value → BinaryOp) (first : Expr)
    (rest : List (op.Value × Expr)) :
    (rest.map fun o => (meaning o.1, o.2)).foldl combine first =
      leftwardAt first.line meaning first rest := by
  induction rest generalizing first with
  | nil => rfl
  | cons o rest ih => exact ih (.binary { line := first.line } (meaning o.1) first o.2)

theorem line_leftwardAt (meaning : op.Value → BinaryOp) (first : Expr)
    (rest : List (op.Value × Expr)) :
    (leftwardAt first.line meaning first rest).line = first.line := by
  induction rest generalizing first with
  | nil => rfl
  | cons o rest ih => exact ih (.binary { line := first.line } (meaning o.1) first o.2)

/-- Operators are tokens, on which no lines are recorded. -/
theorem lined_operator {k l : TokenKind} (t : Derivation (oneOf (.token k) [.token l]))
    (w : List Token) : t.lined firstLine lineBehindParens w = t.value := by
  cases t with
  | left t | right t =>
    cases t
    rfl

/-- An operator with its right operand. -/
theorem operation_records (hm : level.Means op meaning)
    (hop : ∀ (t : Derivation op) w, t.lined firstLine lineBehindParens w = t.value)
    (hx : Records x a f) :
    RecordsStep (level.operation x) (.seq op a) fun v => (meaning v.1, f v.2) := by
  intro c o c' h
  obtain ⟨k, c₁, hk, h⟩ := estate_bind_ok_iff.mp h
  cases hk
  cases hseen : (c.kindAt 0).bind level.operator? with
  | none =>
    simp only [hseen] at h
    cases h
  | some o' =>
    simp only [hseen] at h
    obtain ⟨_, c₁, hadvance, h⟩ := estate_bind_ok_iff.mp h
    cases hadvance
    obtain ⟨e, c₂, he, hpure⟩ := estate_bind_ok_iff.mp h
    cases hpure
    obtain ⟨k, hk, hmeaning⟩ := Option.bind_eq_some_iff.mp hseen
    obtain ⟨v, ⟨t, ht, rfl⟩, rfl⟩ := hm.spelled hmeaning []
    obtain ⟨u, w, hrest, hw, rfl⟩ := hx he
    have htoken : op.Lined [⟨k, c.line⟩] t.value :=
      ⟨t, by rw [← List.append_nil t.yield, ← ht]; rfl, hop t _⟩
    refine ⟨_, (t.value, w), ?_, htoken.seq hw, rfl⟩
    rw [Cursor.rest_eq_cons hk, hrest, List.singleton_append, List.cons_append]

/-- The operations of a level that chains. -/
theorem operations_records (hchains : level.chains = true) (hm : level.Means op meaning)
    (hop : ∀ (t : Derivation op) w, t.lined firstLine lineBehindParens w = t.value)
    (hx : Records x a f) : Records (level.operations x) (.many (.seq op a))
      (List.map fun v => (meaning v.1, f v.2)) := by
  rw [Level.operations, if_pos hchains]
  refine (operation_records hm hop hx).collect ?_ operation_none
  rw [Rhs.takes, hm.takes, Bool.true_or]

/-- At most one operation of a level that does not. -/
theorem single_records (hchains : level.chains = false) (hm : level.Means op meaning)
    (hop : ∀ (t : Derivation op) w, t.lined firstLine lineBehindParens w = t.value)
    (hx : Records x a f) : Records (level.operations x) (.maybe (.seq op a))
      fun v => v.toList.map fun (o : op.Value × a.Value) => (meaning o.1, f o.2) := by
  intro c os c' h
  rw [Level.operations, hchains] at h
  obtain ⟨o, c₁, ho, h⟩ := estate_bind_ok_iff.mp h
  cases o with
  | none =>
    cases operation_none ho
    cases h
    exact ⟨[], none, rfl, lined_none _, rfl⟩
  | some o =>
    obtain ⟨rest, c₂, hrest, hpure⟩ := estate_bind_ok_iff.mp h
    cases hrest
    cases hpure
    obtain ⟨u, v, hrest, hv, rfl⟩ := operation_records hm hop hx ho
    exact ⟨u, some v, hrest, hv.some, rfl⟩

/-- A level around the tighter ones: its operations are all on the line of the
    first operand. -/
theorem climb_cons_headed {s : Rhs} {g : s.Value → Expr} {items : b.Value → List (op.Value × Expr)}
    (hx : Headed (climb operand tighter) a f)
    (hops : Records (level.operations (climb operand tighter)) b
      fun v => (items v).map fun o => (meaning o.1, o.2))
    (hs : ∀ {u v}, (Rhs.seq a b).Lined u v → ∃ w, s.Lined u w ∧
      g w = leftwardAt (lineBehindParens u) meaning (f v.1) (items v.2)) :
    Headed (climb operand (level :: tighter)) s g := by
  intro c e c' he
  obtain ⟨first, c₁, hfirst, he⟩ := estate_bind_ok_iff.mp he
  obtain ⟨os, c₂, hos, hpure⟩ := estate_bind_ok_iff.mp he
  cases hpure
  obtain ⟨u, v, hrest, hv, rfl, hopens⟩ := hx hfirst
  obtain ⟨u', v', hrest', hv', rfl⟩ := hops hos
  obtain ⟨w, hw, heq⟩ := hs (hv.seq hv')
  have hall := hopens.append u'
  rw [hall.eq] at heq
  rw [foldl_combine_eq]
  refine ⟨u ++ u', w, ?_, hw, heq.symm, ?_⟩
  · rw [hrest, hrest', List.append_assoc]
  · rw [line_leftwardAt]
    exact hall

/-- All levels around the operands. -/
theorem climb_headed (h : Headed operand (.sym .unary) id) :
    Headed (climb operand levels) (.sym .expr) id := by
  have hmul : Headed (climb operand (levels.drop 4)) (.sym .mul) id :=
    climb_cons_headed h (operations_records rfl means_mul lined_operator h.records)
      fun hv => ⟨_, Rhs.Lined.sym (s := .mul) hv, rfl⟩
  have hadd : Headed (climb operand (levels.drop 3)) (.sym .add) id :=
    climb_cons_headed hmul (operations_records rfl means_add lined_operator hmul.records)
      fun hv => ⟨_, Rhs.Lined.sym (s := .add) hv, rfl⟩
  have hrelational : Headed (climb operand (levels.drop 2)) (.sym .relational) id :=
    climb_cons_headed hadd (single_records rfl means_relational lined_operator hadd.records)
      fun hv => ⟨_, Rhs.Lined.sym (s := .relational) hv, rfl⟩
  have hequality : Headed (climb operand (levels.drop 1)) (.sym .equality) id :=
    climb_cons_headed hrelational
      (operations_records rfl means_equality lined_operator hrelational.records)
      fun hv => ⟨_, Rhs.Lined.sym (s := .equality) hv, rfl⟩
  have hand : ∀ {u v}, (chain .equality (.token .and)).Lined u v → ∃ w, (Rhs.sym .expr).Lined u w ∧
      id w = leftwardAt (lineBehindParens u) (fun _ => .and) (id v.1) (id v.2) :=
    fun hv => ⟨_, Rhs.Lined.sym (s := .expr) hv, rfl⟩
  refine climb_cons_headed hequality ?_ hand
  exact operations_records rfl means_and (fun t _ => by cases t; rfl) hequality.records

end operators

/-! ### Operands -/

section operands

variable {e : Parse Expr}

/-- A reader that starts with a token other than an opening parenthesis, and
    makes a node on its line. -/
theorem headed_at {r b : Rhs} {f : r.Value → Expr} {g : b.Value → Expr} {x : Parse Expr}
    {y : Expr} {k : TokenKind} {c c' : Cursor} (hx : Records x r f) (hr : r.takes = true)
    (hk : c.kindAt 0 = some k) (hne : k ≠ .openParen) (hline : ∀ v, (f v).line = c.line)
    (hb : ∀ {u v}, r.Lined u v → firstLine u = c.line → ∃ w, b.Lined u w ∧ g w = f v)
    (hy : x c = .ok y c') :
    ∃ u w, c.rest = u ++ c'.rest ∧ b.Lined u w ∧ y = g w ∧ Opens y.line u := by
  obtain ⟨u, v, hrest, hv, rfl⟩ := hx hy
  obtain ⟨t, u, rfl⟩ := List.exists_cons_of_ne_nil (hv.ne_nil hr)
  have hcons := Cursor.rest_eq_cons hk
  rw [hrest, List.cons_append, List.cons.injEq] at hcons
  obtain ⟨rfl, -⟩ := hcons
  obtain ⟨w, hw, heq⟩ := hb hv rfl
  refine ⟨_, w, hrest, hw, heq.symm, ?_⟩
  rw [hline]
  exact .here hne

/-- The arguments of a call in their parentheses. -/
theorem arguments_records (he : Records e (.sym .expr) id) :
    Records (arguments e) (enclosed (.sym .args)) fun v => Option.getD v.2.1 [] := by
  have hall : Records (arguments e) (enclosed (.sym .args)) fun v => Option.elim v.2.1 [] id := by
    refine Records.enclosed (he.row.imp fun {u v} hv => ?_)
    obtain ⟨w, w', rfl, hargs, hclose⟩ := lined_seq_iff.mp hv
    exact ⟨_, (Rhs.Lined.sym (s := .args) hargs).seq hclose, rfl⟩
  refine hall.imp fun {u v} hv => ⟨v, hv, ?_⟩
  obtain ⟨_, given, _⟩ := v
  cases given <;> rfl

/-- An alternative of the rule for operands, on this line. -/
theorem lined_primary {u : List Token} {v : (rules .primary).Value} {l : Nat}
    (hv : (rules .primary).Lined u v) (hl : firstLine u = l) :
    ∃ w, (Rhs.sym .primary).Lined u w ∧ id w = Sym.primary.buildAt l l v := by
  refine ⟨_, hv.sym, ?_⟩
  rw [hl]
  rfl

/-- An operand that starts with a name: a method of an object, a call, or a
    variable. -/
theorem name_headed (he : Records e (.sym .expr) id) {c c' : Cursor} {name : String} {y : Expr}
    (hk : c.kindAt 0 = some (.ident name)) (hy : afterName e c.line name c.next = .ok y c') :
    ∃ u w, c.rest = u ++ c'.rest ∧ (Rhs.sym .primary).Lined u w ∧ y = id w ∧ Opens y.line u := by
  have hident : ident c = .ok name c.next := by rw [ident, hk]
  have hname : TokenKind.ident name ≠ .openParen := by rintro ⟨⟩
  rcases accept_bind_ok_iff.mp hy with ⟨hdot, hy⟩ | ⟨-, hy⟩
  · have hmethod : Records (ident >>= fun receiver => expect .dot >>= fun _ => ident >>=
        fun method => arguments e >>= fun es =>
          pure (Expr.methodCall { line := c.line } (.var { line := c.line } receiver) method es))
        (inRow .ident [.token .dot, .ident, enclosed (.sym .args)])
        fun v => .methodCall { line := c.line } (.var { line := c.line } v.1) v.2.2.1
          (Option.getD v.2.2.2.2.1 []) :=
      Records.ident.bind fun _ => Records.expect.bind fun _ => Records.ident.bind fun _ =>
        (arguments_records he).map fun _ => rfl
    have hexpect : expect .dot c.next = .ok () c.next.next := if_pos hdot
    refine headed_at hmethod rfl hk hname (fun _ => rfl) (fun {u v} hv hl => ?_)
      (estate_bind_ok_iff.mpr ⟨name, c.next, hident,
        estate_bind_ok_iff.mpr ⟨(), c.next.next, hexpect, hy⟩⟩)
    have hprimary : (rules .primary).Lined u _ := hv.left.right.right.right.right.right
    exact lined_primary hprimary hl
  · change (if c.next.kindAt 0 = some .openParen then _ else _ : Parse Expr) c.next = _ at hy
    split at hy
    · have hcall : Records (ident >>= fun name => arguments e >>= fun es =>
          pure (Expr.selfCall { line := c.line } name es)) (inRow .ident [enclosed (.sym .args)])
          fun v => .selfCall { line := c.line } v.1 (Option.getD v.2.2.1 []) :=
        Records.ident.bind fun _ => (arguments_records he).map fun _ => rfl
      refine headed_at hcall rfl hk hname (fun _ => rfl) (fun {u v} hv hl => ?_)
        (estate_bind_ok_iff.mpr ⟨name, c.next, hident, hy⟩)
      have hprimary : (rules .primary).Lined u _ :=
        hv.left.right.right.right.right.right.right
      exact lined_primary hprimary hl
    · have hvar : Records (ident >>= fun name => pure (Expr.var { line := c.line } name)) .ident
          fun v => .var { line := c.line } v := Records.ident.map fun _ => rfl
      refine headed_at hvar rfl hk hname (fun _ => rfl) (fun {u v} hv hl => ?_)
        (estate_bind_ok_iff.mpr ⟨name, c.next, hident, hy⟩)
      have hprimary : (rules .primary).Lined u _ :=
        hv.left.right.right.right.right.right.right.right
      exact lined_primary hprimary hl

/-- A token that is an operand by itself. -/
theorem token_headed {c : Cursor} {k : TokenKind} {y : Expr} (hk : c.kindAt 0 = some k)
    (hne : k ≠ .openParen) (hline : y.line = c.line)
    (hv : ∃ v, (rules .primary).Lined [⟨k, c.line⟩] v ∧ Sym.primary.buildAt c.line c.line v = y) :
    ∃ u w, c.rest = u ++ c.next.rest ∧ (Rhs.sym .primary).Lined u w ∧ y = id w ∧
      Opens y.line u := by
  obtain ⟨v, hv, rfl⟩ := hv
  obtain ⟨w, hw, heq⟩ := lined_primary hv rfl
  refine ⟨_, w, Cursor.rest_eq_cons hk, hw, heq.symm, ?_⟩
  rw [hline]
  exact .here hne

/-- An operand without operators. -/
theorem primary_headed (he : Headed e (.sym .expr) id) : Headed (primary e) (.sym .primary) id := by
  intro c y c' hy
  have hlook : ∀ {f : Nat → Option TokenKind → Parse Expr},
      (lineHere >>= fun line => peek 0 >>= f line) c = f c.line (c.kindAt 0) c := rfl
  have hy := hlook.symm.trans hy
  cases hk : c.kindAt 0 with
  | none =>
    rw [hk] at hy
    cases hy
  | some k =>
    rw [hk] at hy
    have htoken := lined_token k c.line
    cases k with
    | num value =>
      cases hy
      exact token_headed hk nofun rfl ⟨_, (lined_int value c.line).left, rfl⟩
    | true =>
      cases hy
      exact token_headed hk nofun rfl ⟨_, htoken.left.right, rfl⟩
    | false =>
      cases hy
      exact token_headed hk nofun rfl ⟨_, htoken.left.right.right, rfl⟩
    | nothing =>
      cases hy
      exact token_headed hk nofun rfl ⟨_, htoken.left.right.right.right, rfl⟩
    | new =>
      have hnew : Records (expect .new >>= fun _ => ident >>= fun cls =>
          pure (Expr.new { line := c.line } cls)) (inRow (.token .new) [.ident])
          fun v => .new { line := c.line } v.2 :=
        Records.expect.bind fun _ => Records.ident.map fun _ => rfl
      refine headed_at hnew rfl hk nofun (fun _ => rfl) (fun {u v} hv hl => ?_)
        (estate_bind_ok_iff.mpr ⟨(), c.next, if_pos hk, hy⟩)
      have hprimary : (rules .primary).Lined u _ := hv.left.right.right.right.right
      exact lined_primary hprimary hl
    | ident name => exact name_headed he.records hk hy
    | openParen =>
      obtain ⟨_, c₁, hadvance, hy⟩ := estate_bind_ok_iff.mp hy
      cases hadvance
      -- what stands in the parentheses keeps its line
      obtain ⟨x, c₁, hx, hy⟩ := estate_bind_ok_iff.mp hy
      obtain ⟨_, c₂, hclose, hpure⟩ := estate_bind_ok_iff.mp hy
      cases hpure
      obtain ⟨u, v, hrest, hv, rfl, hopens⟩ := he hx
      obtain ⟨u', v', hrest', hv', -⟩ := Records.expect hclose
      have hprimary : (rules .primary).Lined _ _ :=
        (htoken.seq (hv.seq hv')).right.right.right.right.right.right.right.right
      refine ⟨_, _, ?_, hprimary.sym, rfl, (hopens.append u').paren⟩
      rw [Cursor.rest_eq_cons hk, hrest, hrest']
      simp only [List.cons_append, List.nil_append, List.append_assoc]
    | _ => cases hy

/-- Operands with the operators in front of them. -/
theorem unary_headed (fuel : Nat) : Headed (unary fuel) (.sym .unary) id := by
  induction fuel with
  | zero => exact fun c y c' hy => nomatch hy
  | succ fuel ih =>
    intro c y c' hy
    obtain ⟨_, c₁, hline, hy⟩ := estate_bind_ok_iff.mp hy
    cases hline
    -- an operator is on the line of its token
    have hop : ∀ (k : TokenKind) (op : UnaryOp), Records
        (expect k >>= fun _ => unary fuel >>= fun e => pure (Expr.unary { line := c.line } op e))
        (.seq (.token k) (.sym .unary)) fun v => .unary { line := c.line } op v.2 :=
      fun k op => Records.expect.bind fun _ => ih.records.map fun _ => rfl
    rcases accept_bind_ok_iff.mp hy with ⟨hk, hy⟩ | ⟨-, hy⟩
    · refine headed_at (hop .minus .neg) rfl hk nofun (fun _ => rfl) (fun {u v} hv hl => ?_)
        (estate_bind_ok_iff.mpr ⟨(), c.next, if_pos hk, hy⟩)
      obtain ⟨w, w', rfl, htoken, hv⟩ := lined_seq_iff.mp hv
      have hunary : (rules .unary).Lined _ _ := (htoken.left.seq hv).left
      refine ⟨_, hunary.sym, ?_⟩
      rw [hl]
      rfl
    rcases accept_bind_ok_iff.mp hy with ⟨hk, hy⟩ | ⟨-, hy⟩
    · refine headed_at (hop .not .not) rfl hk nofun (fun _ => rfl) (fun {u v} hv hl => ?_)
        (estate_bind_ok_iff.mpr ⟨(), c.next, if_pos hk, hy⟩)
      obtain ⟨w, w', rfl, htoken, hv⟩ := lined_seq_iff.mp hv
      have hunary : (rules .unary).Lined _ _ := (htoken.right.seq hv).left
      refine ⟨_, hunary.sym, ?_⟩
      rw [hl]
      rfl
    · obtain ⟨u, v, hrest, hv, heq, hopens⟩ := primary_headed (climb_headed ih) hy
      have hunary : (rules .unary).Lined u _ := hv.right
      exact ⟨u, _, hrest, hunary.sym, heq, hopens⟩

/-- The reader of expressions. -/
theorem expr_records : Records expr (.sym .expr) id :=
  Records.fueled (z := fun fuel => climb (unary fuel) levels) fun fuel =>
    (climb_headed (unary_headed fuel)).records

end operands

/-! ## Declarations, statements and programs -/

theorem typeName_records : Records typeName (.sym .type) id := by
  refine Records.sym (f := Sym.type.buildAt 0 0) ?_ fun _ _ _ => rfl
  refine Records.acceptToken rfl (Records.acceptToken rfl (Records.acceptToken rfl ?_))
  exact Records.ident.map fun _ => rfl

theorem declaration_records : Records declaration (.sym .declaration) id :=
  Records.node (f := fun l => Sym.declaration.buildAt l l) (fun _ =>
    typeName_records.bind fun _ => Records.ident.bind fun _ => Records.ident.commas.bind fun _ =>
      Records.last rfl) (fun _ _ _ => rfl) rfl

theorem param_records : Records param (.sym .param) id :=
  Records.node (f := fun l => Sym.param.buildAt l l) (fun _ =>
    typeName_records.bind fun _ => Records.ident.map fun _ => rfl) (fun _ _ _ => rfl) rfl

/-- The parameters of a method in their parentheses. -/
theorem params_records : Records params (enclosed (listed (.sym .param))) fun v =>
    Option.elim v.2.1 [] fun ps => ps.1 :: ps.2.map (·.2) :=
  param_records.row.enclosed

theorem stmtUpTo_records (fuel : Nat) : Records (stmtUpTo fuel) (.sym .stmt) id := by
  induction fuel with
  | zero => exact fun c y c' hy => nomatch hy
  | succ fuel ih =>
    refine Records.node (f := fun l => Sym.stmt.buildAt l l) (fun l => ?_) (fun _ _ _ => rfl) rfl
    refine Records.accept (Records.right (Records.left ?_)) (Records.accept
      (Records.right (Records.right ?_)) (Records.left ?_))
    · exact Records.expect.bind fun _ => Records.expect.bind fun _ => expr_records.bind fun _ =>
        Records.expect.bind fun _ => Records.expect.bind fun _ =>
          (ih.manyUntil rfl List.map_id).map fun _ => rfl
    · exact Records.expect.bind fun _ => Records.expect.bind fun _ => expr_records.bind fun _ =>
        Records.expect.bind fun _ => Records.last rfl
    · exact Records.ident.bind fun _ => Records.expect.bind fun _ => expr_records.bind fun _ =>
        Records.last rfl

theorem stmt_records : Records stmt (.sym .stmt) id := Records.fueled stmtUpTo_records

theorem method_records : Records method (.sym .method) id := by
  refine Records.node (f := fun l => Sym.method.buildAt l l) (fun l => ?_) (fun _ _ _ => rfl) rfl
  have hbody : Records (manyUntil .ret stmt) (.seq (.many (.sym .stmt)) (.token .ret)) fun v => v.1 :=
    stmt_records.manyUntil rfl List.map_id
  exact typeName_records.bind fun _ => Records.ident.bind fun _ => params_records.bind fun _ =>
    Records.expect.bind fun _ =>
      (declaration_records.manyWhile atDeclaration_eq rfl List.map_id).bind fun _ =>
        hbody.bind_pair fun _ => expr_records.bind fun _ => Records.expect.bind fun _ =>
          Records.last rfl

theorem superclass_records : Records superclass (.maybe (inRow (.token .colon) [.ident]))
    fun (v : Option (Unit × String)) => v.map (·.2) := by
  refine Records.accept (Records.maybe ?_) fun c y c' hy => ?_
  · exact Records.expect.bind fun _ => Records.ident.map fun _ => rfl
  · cases hy
    exact ⟨[], none, rfl, lined_none _, rfl⟩

theorem classDef_records : Records classDef (.sym .cls) id := by
  refine Records.node (f := fun l => Sym.cls.buildAt l l) (fun l => ?_) (fun _ _ _ => rfl) rfl
  exact Records.expect.bind fun _ => Records.ident.bind fun _ => superclass_records.bind fun _ =>
    Records.expect.bind fun _ =>
      (declaration_records.manyWhile atField_eq rfl List.map_id).bind fun _ =>
        (method_records.manyUntil rfl List.map_id).map fun _ => rfl

/-- The line of a place is that of its first token. -/
theorem line_ofTokens (tokens : List Token) :
    (Cursor.ofTokens tokens).line = firstLine tokens := by
  cases tokens <;> rfl

end ClassLang.Grammar

namespace ClassLang.Program

open Grammar

/-- A program is what its tokens stand for, with their lines. -/
theorem lined_of_ofTokens {tokens : List Token} {p : Program} (h : ofTokens tokens = .ok p) :
    (Rhs.sym .program).Lined tokens p := by
  obtain ⟨c, hp⟩ := ofTokens_eq_ok_iff.mp h
  have hend : c.rest = [] := List.map_eq_nil_iff.mp (program_end hp)
  obtain ⟨_, c₁, hline, hp⟩ := estate_bind_ok_iff.mp hp
  cases hline
  obtain ⟨classes, c₂, hclasses, hpure⟩ := estate_bind_ok_iff.mp hp
  cases hpure
  have hrecords := classDef_records.manyWhile atToken_eq rfl List.map_id
  obtain ⟨u, vs, hrest, hvs, rfl⟩ := hrecords hclasses
  obtain rfl : tokens = u := by
    rw [hend, List.append_nil] at hrest
    exact hrest
  rw [line_ofTokens]
  exact Rhs.Lined.sym (s := .program) hvs

/-- How the lines of a program come from its tokens, by its derivation. -/
structure RecordsLines (tokens : List Token) (p : Program) (t : Derivation (.sym .program)) :
    Prop where
  /-- It is the derivation of the tokens, and there is no other. -/
  yield : t.yield = kindsOf tokens
  unique : ∀ t' : Derivation (.sym .program), t'.yield = kindsOf tokens → t' = t
  /-- Every node is on the line of the first of its tokens, but for operations with
      two operands: these are on the line of the first one that is no opening
      parenthesis. -/
  lines : p = t.lined firstLine lineBehindParens tokens
  /-- Where no line ends behind an opening parenthesis, that is the line of the
      first token for all of them. -/
  first : ParensInline tokens → p = t.lined firstLine firstLine tokens

/-- The lines of a program come from its tokens. -/
theorem lines_recorded {tokens : List Token} {p : Program} (h : ofTokens tokens = .ok p) :
    ∃ t, RecordsLines tokens p t := by
  obtain ⟨t, hyield, rfl⟩ := lined_of_ofTokens h
  refine ⟨t, ⟨hyield, ?_, rfl, ?_⟩⟩
  · intro t' ht'
    exact derivation_unique rfl (ht'.trans hyield.symm)
  · exact t.lined_of_parensInline hyield

/-! ## Lines behind parentheses -/

/-- The tokens of a program that prints a sum, whose first line ends behind the
    parenthesis in front of the first number. -/
def brokenSum : List Token :=
  [⟨.cls, 1⟩, ⟨.ident "Program", 1⟩, ⟨.openCurlyBrace, 1⟩, ⟨.nothing, 1⟩, ⟨.ident "start", 1⟩,
   ⟨.openParen, 1⟩, ⟨.closeParen, 1⟩, ⟨.openCurlyBrace, 1⟩, ⟨.print, 1⟩, ⟨.openParen, 1⟩,
   ⟨.openParen, 1⟩, ⟨.num 1, 2⟩, ⟨.closeParen, 2⟩, ⟨.plus, 2⟩, ⟨.num 2, 2⟩, ⟨.closeParen, 2⟩,
   ⟨.semiColon, 2⟩, ⟨.ret, 2⟩, ⟨.nothing, 2⟩, ⟨.semiColon, 2⟩, ⟨.closeCurlyBrace, 2⟩,
   ⟨.closeCurlyBrace, 2⟩]

/-- The program with these tokens that prints `sum`. -/
def printing (sum : Expr) : Program :=
  { classes := [{ name := "Program", superclass := none, fields := [], line := 1
                  methods := [{ name := "start", result := .nothing, params := [], locals := []
                                body := [.print 1 sum], value := .nothing { line := 2 }
                                line := 1 }] }]
    line := 1 }

/-- The sum is on the line of its first number. -/
theorem ofTokens_brokenSum : ofTokens brokenSum = .ok (printing
    (.binary { line := 2 } .add (.num { line := 2 } 1) (.num { line := 2 } 2))) := rfl

theorem lines_recorded_brokenSum : ∃ t, RecordsLines brokenSum (printing
    (.binary { line := 2 } .add (.num { line := 2 } 1) (.num { line := 2 } 2))) t :=
  lines_recorded ofTokens_brokenSum

section broken

/-- A product of one operand. -/
def productOf (t : Derivation (rules .primary)) : Derivation (.sym .mul) :=
  .sym (.seq (.sym (.right (.sym t))) .nil)

/-- Sums as expressions. -/
def exprOf (t : Derivation (rules .add)) : Derivation (.sym .expr) :=
  .sym (.seq (.sym (.seq (.sym (.seq (.sym t) .none)) .nil)) .nil)

/-- The derivation of the sum. -/
def sumDerivation : Derivation (.sym .expr) :=
  let one : Derivation (.sym .expr) := exprOf (.seq (productOf (.left (.int 1))) .nil)
  let enclosed : Derivation (rules .primary) :=
    .right (.right (.right (.right (.right (.right (.right (.right
      (.seq (.token .openParen) (.seq one (.token .closeParen))))))))))
  exprOf (.seq (productOf enclosed)
    (.cons (.seq (.left (.token .plus)) (productOf (.left (.int 2)))) .nil))

/-- The derivation of the program that prints it. -/
def brokenDerivation : Derivation (.sym .program) :=
  let printed : Derivation (.sym .stmt) := .sym (.right (.right (.seq (.token .print)
    (.seq (.token .openParen) (.seq sumDerivation (.seq (.token .closeParen)
      (.token .semiColon)))))))
  let value : Derivation (.sym .expr) :=
    exprOf (.seq (productOf (.right (.right (.right (.left (.token .nothing)))))) .nil)
  let body : Derivation (inRow (.many (.sym .declaration)) [.many (.sym .stmt), .token .ret,
      .sym .expr, .token .semiColon, .token .closeCurlyBrace]) :=
    .seq .nil (.seq (.cons printed .nil) (.seq (.token .ret) (.seq value (.seq (.token .semiColon)
      (.token .closeCurlyBrace)))))
  let start : Derivation (.sym .method) :=
    .sym (.seq (.sym (.right (.right (.left (.token .nothing))))) (.seq (.ident "start")
      (.seq (.seq (.token .openParen) (.seq .none (.token .closeParen)))
        (.seq (.token .openCurlyBrace) body))))
  .sym (.cons (.sym (.seq (.token .cls) (.seq (.ident "Program") (.seq .none
    (.seq (.token .openCurlyBrace) (.seq .nil (.seq (.cons start .nil)
      (.token .closeCurlyBrace)))))))) .nil)

/-- The sum is not on the line of its first token, the parenthesis. -/
theorem line_not_first : ∃ p, ofTokens brokenSum = .ok p ∧
    brokenDerivation.yield = kindsOf brokenSum ∧
    p ≠ brokenDerivation.lined firstLine firstLine brokenSum := by
  refine ⟨_, ofTokens_brokenSum, rfl, ?_⟩
  have hfirst : brokenDerivation.lined firstLine firstLine brokenSum = printing
      (.binary { line := 1 } .add (.num { line := 2 } 1) (.num { line := 2 } 2)) := rfl
  rw [hfirst]
  intro h
  cases h

end broken

end ClassLang.Program
