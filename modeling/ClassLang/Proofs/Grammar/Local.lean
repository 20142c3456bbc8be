import ClassLang.Proofs.Grammar.Expr

/-! # Readers look one token ahead

    What a reader does depends on the tokens that it takes and on the one at
    which it stops, and on nothing behind.

    * **`run`** is the outcome of a reader with the place where it stops.
    * **`Alike`** lists start with the same token.
    * **`Local`**: a reader goes forward only, raises its errors where it
      stops, and does the same on lists that are alike from there on.  Two
      readers are compared, which may differ in their fuel.
    * One lemma for each way in which readers are put together, and from them
      **`Local.expr`**. -/

namespace ClassLang.Grammar

/-! ## Outcomes -/

/-- The outcome of a reader, and the place where it stops. -/
def run {α : Type} (x : Parse α) (c : Cursor) : Except SyntaxError α × Cursor :=
  match x c with
  | .ok a c' => (.ok a, c')
  | .error e c' => (.error e, c')

section outcomes

variable {α β : Type} {x : Parse α} {f : α → Parse β} {c c' : Cursor}

theorem run_eq_ok_iff {a : α} : run x c = (.ok a, c') ↔ x c = .ok a c' := by
  unfold run
  cases x c <;> simp

theorem run_eq_error_iff {e : SyntaxError} : run x c = (.error e, c') ↔ x c = .error e c' := by
  unfold run
  cases x c <;> simp

/-- Behind a result the second reader goes on. -/
theorem run_bind_of_ok {a : α} {c₁ : Cursor} (h : run x c = (.ok a, c₁)) :
    run (x >>= f) c = run (f a) c₁ := by
  rw [run_eq_ok_iff] at h
  simp only [run, bind, EStateM.bind, h]

/-- Behind an error nothing is read. -/
theorem run_bind_of_error {e : SyntaxError} (h : run x c = (.error e, c')) :
    run (x >>= f) c = (.error e, c') := by
  rw [run_eq_error_iff] at h
  simp only [run, bind, EStateM.bind, h]

/-- A sequence of readers stops in the first or in the second. -/
theorem run_bind_cases {o : Except SyntaxError β} (h : run (x >>= f) c = (o, c')) :
    (∃ e, run x c = (.error e, c') ∧ o = .error e) ∨
      ∃ a c₁, run x c = (.ok a, c₁) ∧ run (f a) c₁ = (o, c') := by
  cases hx : run x c with
  | mk outcome c₁ =>
    cases outcome with
    | error e =>
      rw [run_bind_of_error hx, Prod.mk.injEq] at h
      obtain ⟨rfl, rfl⟩ := h
      exact Or.inl ⟨e, rfl, rfl⟩
    | ok a => exact Or.inr ⟨a, c₁, rfl, run_bind_of_ok hx ▸ h⟩

end outcomes

section tokens

variable {c : Cursor} {k : TokenKind}

theorem run_peek (c : Cursor) : run (peek 0) c = (.ok (c.kindAt 0), c) := rfl

theorem run_expect_of_eq (hk : c.kindAt 0 = some k) : run (expect k) c = (.ok (), c.next) :=
  run_eq_ok_iff.mpr (if_pos hk)

theorem run_expect_of_ne (hk : c.kindAt 0 ≠ some k) :
    run (expect k) c = (.error ⟨c.line, c.kindAt 0, .token k⟩, c) :=
  run_eq_error_iff.mpr (if_neg hk)

theorem run_accept_of_eq (hk : c.kindAt 0 = some k) : run (accept k) c = (.ok true, c.next) :=
  run_eq_ok_iff.mpr (if_pos hk)

theorem run_accept_of_ne (hk : c.kindAt 0 ≠ some k) : run (accept k) c = (.ok false, c) :=
  run_eq_ok_iff.mpr (if_neg hk)

theorem run_ident_of_eq {name : String} (hk : c.kindAt 0 = some (.ident name)) :
    run ident c = (.ok name, c.next) := by
  rw [run_eq_ok_iff, ident, hk]

theorem run_ident_of_ne (hk : ∀ name, c.kindAt 0 ≠ some (.ident name)) :
    run ident c = (.error ⟨c.line, c.kindAt 0, .ident⟩, c) := by
  rw [run_eq_error_iff, ident]
  split
  · next name h => exact absurd h (hk name)
  · rfl

end tokens

/-! ## Lists that start alike -/

/-- Two lists of tokens that start with the same one. -/
def Alike (v v' : List Token) : Prop := ∃ t r r', v = t :: r ∧ v' = t :: r'

theorem Alike.append {v v' : List Token} (h : Alike v v') (u : List Token) :
    Alike (u ++ v) (u ++ v') := by
  obtain ⟨t, r, r', rfl, rfl⟩ := h
  cases u with
  | nil => exact ⟨t, r, r', rfl, rfl⟩
  | cons s u => exact ⟨s, u ++ t :: r, u ++ t :: r', rfl, rfl⟩

/-- Where the next token is the same, so is its kind, and its line. -/
theorem Alike.kindAt {v v' : List Token} (h : Alike v v') (l l' : Nat) :
    Cursor.kindAt ⟨v, l⟩ 0 = Cursor.kindAt ⟨v', l'⟩ 0 := by
  obtain ⟨t, r, r', rfl, rfl⟩ := h
  rfl

theorem Alike.line {v v' : List Token} (h : Alike v v') (l l' : Nat) :
    Cursor.line ⟨v, l⟩ = Cursor.line ⟨v', l'⟩ := by
  obtain ⟨t, r, r', rfl, rfl⟩ := h
  rfl

/-! ## Locality -/

/-- The reader `x` goes forward, raises errors where it stops, and where it
    stops in front of a token, `x'` does the same in front of that token.  The
    last is demanded where less than `n` and `n'` tokens come. -/
structure Local {α : Type} (n n' : Nat) (x x' : Parse α) : Prop where
  onward : ∀ {c o c'}, run x c = (o, c') → ∃ u, c.rest = u ++ c'.rest ∧ c'.endLine = c.endLine
  raised : ∀ {c e c'}, run x c = (.error e, c') → e.line = c'.line
  same : ∀ {u v v' l l' o}, Alike v v' → (u ++ v).length < n → (u ++ v').length < n' →
    run x ⟨u ++ v, l⟩ = (o, ⟨v, l⟩) → run x' ⟨u ++ v', l'⟩ = (o, ⟨v', l'⟩)

/-- Reading `a` takes a token. -/
def Takes {α : Type} (x : Parse α) (a : α) : Prop :=
  ∀ {c c'}, run x c = (.ok a, c') → c'.rest.length < c.rest.length

namespace Local

variable {α β : Type} {n n' m m' : Nat} {x x' : Parse α} {f f' : α → Parse β}

theorem mono (h : Local n n' x x') (hm : m ≤ n) (hm' : m' ≤ n') : Local m m' x x' where
  onward := h.onward
  raised := h.raised
  same := fun hv hu hu' =>
    h.same hv (Nat.lt_of_lt_of_le hu hm) (Nat.lt_of_lt_of_le hu' hm')

/-- A reader leaves no more tokens than there were. -/
theorem length_le (h : Local n n' x x') {c c' : Cursor} {o : Except SyntaxError α}
    (hrun : run x c = (o, c')) : c'.rest.length ≤ c.rest.length := by
  obtain ⟨u, hrest, -⟩ := h.onward hrun
  rw [hrest, List.length_append]
  exact Nat.le_add_left _ _

/-- On no list there is nothing to compare. -/
theorem idle {x'' : Parse α} (h : Local n n' x x') (hm : m = 0 ∨ m' = 0) : Local m m' x x'' where
  onward := h.onward
  raised := h.raised
  same := by
    intro u v v' l l' o _ hu hu'
    rcases hm with rfl | rfl
    · exact absurd hu (Nat.not_lt_zero _)
    · exact absurd hu' (Nat.not_lt_zero _)

/-! ### Single steps -/

/-- A reader that takes nothing and sees the next token only. -/
theorem still {o : Cursor → Except SyntaxError α} (hx : ∀ c, run x c = (o c, c))
    (hline : ∀ c e, o c = .error e → e.line = c.line)
    (ho : ∀ {v v' l l'}, Alike v v' → o ⟨v, l⟩ = o ⟨v', l'⟩) : Local n n' x x where
  onward := by
    intro c o' c' h
    rw [hx] at h
    cases h
    exact ⟨[], rfl, rfl⟩
  raised := by
    intro c e c' h
    rw [hx, Prod.mk.injEq] at h
    obtain ⟨he, rfl⟩ := h
    exact hline c e he
  same := by
    intro u v v' l l' o' hv _ _ h
    rw [hx, Prod.mk.injEq, Cursor.mk.injEq] at h
    obtain ⟨ho', hu, -⟩ := h
    obtain rfl : u = [] := List.append_left_eq_self.mp hu
    rw [hx, ← ho']
    exact Prod.ext (ho hv).symm rfl

theorem pure (a : α) : Local n n' (pure a) (pure a) :=
  still (o := fun _ => .ok a) (fun _ => rfl) (fun _ _ h => nomatch h) fun _ => rfl

theorem lineHere : Local n n' lineHere lineHere :=
  still (o := fun c => .ok c.line) (fun _ => rfl) (fun _ _ h => nomatch h)
    fun hv => congrArg Except.ok (hv.line _ _)

theorem peek : Local n n' (peek 0) (peek 0) :=
  still (o := fun c => .ok (c.kindAt 0)) (fun _ => rfl) (fun _ _ h => nomatch h)
    fun hv => congrArg Except.ok (hv.kindAt _ _)

theorem fail (wanted : Wanted) : Local n n' (fail wanted : Parse α) (fail wanted) := by
  refine still (o := fun c => .error ⟨c.line, c.kindAt 0, wanted⟩) (fun _ => rfl) ?_ ?_
  · intro c e h
    cases h
    rfl
  · intro v v' l l' hv
    rw [hv.line l l', hv.kindAt l l']

theorem advance : Local n n' advance advance where
  onward := by
    intro c o c' h
    cases h
    cases hrest : c.rest with
    | nil => exact ⟨[], by rw [Cursor.next, hrest]; rfl, rfl⟩
    | cons t r => exact ⟨[t], by rw [Cursor.next, hrest]; rfl, rfl⟩
  raised := by
    intro c e c' h
    cases h
  same := by
    intro u v v' l l' o hv _ _ h
    obtain ⟨ho, hrest⟩ := Prod.mk.inj h
    obtain ⟨t, r, r', rfl, rfl⟩ := hv
    -- one token is taken, no more
    have hu : (u ++ t :: r).tail = t :: r := congrArg Cursor.rest hrest
    obtain ⟨s, rfl⟩ : ∃ s, u = [s] := by
      cases u with
      | nil =>
        have hlength := congrArg List.length hu
        simp at hlength
      | cons s u =>
        rw [List.cons_append, List.tail_cons] at hu
        exact ⟨s, by rw [List.append_left_eq_self.mp hu]⟩
    rw [← ho]
    rfl

/-! ### One after the other -/

/-- A sequence of readers.  Where the first takes a token, the second has one
    less to be compared on. -/
theorem bind_or (hx : Local n n' x x')
    (hf : ∀ a, Local n n' (f a) (f' a) ∨ (Takes x a ∧ Local (n - 1) (n' - 1) (f a) (f' a))) :
    Local n n' (x >>= f) (x' >>= f') where
  onward := by
    intro c o c' h
    rcases run_bind_cases h with ⟨e, hstop, -⟩ | ⟨a, c₁, hgo, h⟩
    · exact hx.onward hstop
    · obtain ⟨u₁, hrest₁, hend₁⟩ := hx.onward hgo
      obtain ⟨u₂, hrest₂, hend₂⟩ : ∃ u, c₁.rest = u ++ c'.rest ∧ c'.endLine = c₁.endLine := by
        rcases hf a with hf | ⟨-, hf⟩
        · exact hf.onward h
        · exact hf.onward h
      refine ⟨u₁ ++ u₂, ?_, hend₂.trans hend₁⟩
      rw [hrest₁, hrest₂, List.append_assoc]
  raised := by
    intro c e c' h
    rcases run_bind_cases h with ⟨e', hstop, he⟩ | ⟨a, c₁, -, h⟩
    · cases he
      exact hx.raised hstop
    · rcases hf a with hf | ⟨-, hf⟩
      · exact hf.raised h
      · exact hf.raised h
  same := by
    intro u v v' l l' o hv hu hu' h
    rcases run_bind_cases h with ⟨e, hstop, rfl⟩ | ⟨a, ⟨w, l₁⟩, hgo, hsecond⟩
    · exact run_bind_of_error (hx.same hv hu hu' hstop)
    -- the first reader stops on the way to the place where the second does
    obtain ⟨u₁, hrest, -⟩ : ∃ u₁, u ++ v = u₁ ++ w ∧ l₁ = l := hx.onward hgo
    obtain ⟨u₂, rfl, rfl⟩ : ∃ u₂, w = u₂ ++ v ∧ l = l₁ := by
      rcases hf a with hf | ⟨-, hf⟩
      · exact hf.onward hsecond
      · exact hf.onward hsecond
    rw [← List.append_assoc] at hrest
    obtain rfl := List.append_cancel_right hrest
    rw [List.append_assoc] at hgo hu hu' ⊢
    have hfirst : run x' ⟨u₁ ++ (u₂ ++ v'), l'⟩ = (.ok a, ⟨u₂ ++ v', l'⟩) :=
      hx.same (hv.append u₂) hu hu' hgo
    rw [run_bind_of_ok hfirst]
    rw [List.length_append] at hu hu'
    rcases hf a with hf | ⟨htakes, hf⟩
    · exact hf.same hv (by omega) (by omega) hsecond
    · have hlt : (u₂ ++ v).length < (u₁ ++ (u₂ ++ v)).length := htakes hgo
      have hlength : (u₁ ++ (u₂ ++ v)).length = u₁.length + (u₂ ++ v).length :=
        List.length_append
      exact hf.same hv (by omega) (by omega) hsecond

theorem bind (hx : Local n n' x x') (hf : ∀ a, Local n n' (f a) (f' a)) :
    Local n n' (x >>= f) (x' >>= f') :=
  hx.bind_or fun a => Or.inl (hf a)

/-- Behind a token fewer are left. -/
theorem bind_of_takes (hx : Local (n + 1) (n' + 1) x x') (htakes : ∀ a, Takes x a)
    (hf : ∀ a, Local n n' (f a) (f' a)) : Local (n + 1) (n' + 1) (x >>= f) (x' >>= f') :=
  hx.bind_or fun a => Or.inr ⟨htakes a, hf a⟩

theorem ite {p : Prop} [Decidable p] {y y' : Parse α} (hx : Local n n' x x')
    (hy : Local n n' y y') : Local n n' (if p then x else y) (if p then x' else y') := by
  split
  · exact hx
  · exact hy

/-! ### Tokens -/

/-- Readers of one token look at it first. -/
theorem expect_eq (k : TokenKind) : Grammar.expect k =
    (Grammar.peek 0 >>= fun next =>
      if next = some k then Grammar.advance else Grammar.fail (.token k)) := by
  funext c
  show (if c.kindAt 0 = some k then _ else _) =
    (if c.kindAt 0 = some k then Grammar.advance else Grammar.fail (.token k)) c
  split <;> rfl

theorem accept_eq (k : TokenKind) : Grammar.accept k =
    (Grammar.peek 0 >>= fun next =>
      if next = some k then Grammar.advance >>= fun _ => Pure.pure true
      else Pure.pure false) := by
  funext c
  show (if c.kindAt 0 = some k then _ else _) =
    (if c.kindAt 0 = some k then Grammar.advance >>= fun _ => Pure.pure true
      else Pure.pure false : Parse Bool) c
  split <;> rfl

theorem ident_eq : Grammar.ident =
    (Grammar.peek 0 >>= fun next =>
      match next with
      | some (.ident name) => Grammar.advance >>= fun _ => Pure.pure name
      | _ => Grammar.fail .ident) := by
  funext c
  show Grammar.ident c = (match c.kindAt 0 with
      | some (.ident name) => Grammar.advance >>= fun _ => Pure.pure name
      | _ => Grammar.fail .ident : Parse String) c
  unfold Grammar.ident
  cases c.kindAt 0 with
  | none => rfl
  | some k => cases k <;> rfl

theorem expect (k : TokenKind) : Local n n' (expect k) (expect k) := by
  rw [expect_eq]
  exact peek.bind fun _ => ite advance (fail _)

theorem accept (k : TokenKind) : Local n n' (accept k) (accept k) := by
  rw [accept_eq]
  exact peek.bind fun _ => ite (advance.bind fun _ => pure _) (pure _)

theorem ident : Local n n' ident ident := by
  rw [ident_eq]
  refine peek.bind fun next => ?_
  split
  · exact advance.bind fun _ => pure _
  · exact fail _

theorem expect_takes (k : TokenKind) (a : Unit) : Takes (Grammar.expect k) a := by
  intro c c' h
  obtain ⟨v, hv, -⟩ := (Agrees.expect (n := 0) (F := fun _ => True)).sound (run_eq_ok_iff.mp h)
  have hlt := hv.length_lt rfl
  rwa [c.length_kinds, c'.length_kinds] at hlt

theorem accept_takes (k : TokenKind) : Takes (Grammar.accept k) true := by
  intro c c' h
  have h := run_eq_ok_iff.mp h
  unfold Grammar.accept at h
  split at h
  · next hk =>
    cases h
    have hlength := congrArg List.length (Cursor.kinds_eq_cons hk)
    rw [List.length_cons, c.length_kinds, c.next.length_kinds] at hlength
    omega
  · cases h

/-- What stands behind a token has fewer tokens to be compared on. -/
theorem expect_bind {f f' : Unit → Parse β} (k : TokenKind) (hf : Local n n' (f ()) (f' ())) :
    Local (n + 1) (n' + 1) (Grammar.expect k >>= f) (Grammar.expect k >>= f') :=
  (expect k).bind_of_takes (fun _ => expect_takes k _) fun _ => hf

/-- One reader goes on behind a token, and another one if something else comes. -/
theorem accept_bind {y y' z z' : Parse β} (k : TokenKind) (hy : Local n n' y y')
    (hz : Local (n + 1) (n' + 1) z z') :
    Local (n + 1) (n' + 1) (Grammar.accept k >>= fun t => if t = true then y else z)
      (Grammar.accept k >>= fun t => if t = true then y' else z') := by
  refine (accept k).bind_or fun t => ?_
  cases t with
  | true => exact Or.inr ⟨accept_takes k, hy⟩
  | false => exact Or.inl hz

/-- Stepping over the token that was just seen is expecting it. -/
theorem peek_expect {k : TokenKind} {f : Option TokenKind → Parse β} {g : Unit → Parse β}
    (hf : f (some k) = (Grammar.advance >>= g)) :
    (Grammar.peek 0 >>= f) =
      (Grammar.peek 0 >>= fun next => if next = some k then Grammar.expect k >>= g else f next) := by
  funext c
  show f (c.kindAt 0) c = (if c.kindAt 0 = some k then Grammar.expect k >>= g else f (c.kindAt 0)) c
  by_cases hk : c.kindAt 0 = some k
  · have hexpect : Grammar.expect k c = .ok () c.next := if_pos hk
    rw [if_pos hk, hk, hf]
    simp only [Bind.bind, EStateM.bind, hexpect]
    rfl
  · rw [if_neg hk]

/-- A choice by the next token, one of which goes on behind that token. -/
theorem peek_bind (k : TokenKind) {f f' : Option TokenKind → Parse β} {g g' : Unit → Parse β}
    (hf : f (some k) = (Grammar.advance >>= g)) (hf' : f' (some k) = (Grammar.advance >>= g'))
    (hg : Local n n' (g ()) (g' ()))
    (hother : ∀ next, next ≠ some k → Local (n + 1) (n' + 1) (f next) (f' next)) :
    Local (n + 1) (n' + 1) (Grammar.peek 0 >>= f) (Grammar.peek 0 >>= f') := by
  rw [peek_expect hf, peek_expect hf']
  refine peek.bind fun next => ?_
  by_cases hk : next = some k
  · rw [if_pos hk, if_pos hk]
    exact expect_bind k hg
  · rw [if_neg hk, if_neg hk]
    exact hother next hk

/-! ### Repetition -/

/-- Repeating a step that takes a token, with enough fuel on both sides. -/
theorem collectUpTo {step step' : Parse (Option α)} (hstep : Local n n' step step')
    (htakes : ∀ a, Takes step (some a)) {fuel fuel' : Nat} (hn : n ≤ fuel) (hn' : n' ≤ fuel') :
    Local n n' (collectUpTo step fuel) (collectUpTo step' fuel') := by
  induction fuel generalizing n n' fuel' with
  | zero =>
    have hnothing : Local 0 0 (Pure.pure [] : Parse (List α)) (Pure.pure []) := pure []
    exact hnothing.idle (Or.inl (Nat.le_zero.mp hn))
  | succ fuel ih =>
    have hsucc : ∀ fuel', n' ≤ fuel' + 1 → Local n n' (Grammar.collectUpTo step (fuel + 1))
        (Grammar.collectUpTo step' (fuel' + 1)) := by
      intro fuel' hn'
      refine hstep.bind_or fun next => ?_
      cases next with
      | none => exact Or.inl (pure _)
      | some a =>
        have hrest := ih (hstep.mono (Nat.sub_le n 1) (Nat.sub_le n' 1)) (Nat.sub_le_of_le_add hn)
          (Nat.sub_le_of_le_add hn')
        exact Or.inr ⟨htakes a, hrest.bind fun rest => pure _⟩
    cases fuel' with
    | zero => exact (hsucc 0 (Nat.le_succ_of_le hn')).idle (Or.inr (Nat.le_zero.mp hn'))
    | succ fuel' => exact hsucc fuel' hn'

/-- Readers that hold each other behind a token, with enough fuel on both
    sides. -/
theorem nestedAll {ι : Type} {y y' : ι → Nat → Parse α} (hzero : ∀ i, Local 0 0 (y i 0) (y i 0))
    (hsucc : ∀ {m m' fuel fuel'}, (∀ i, Local m m' (y i fuel) (y' i fuel')) →
      ∀ i, Local (m + 1) (m' + 1) (y i (fuel + 1)) (y' i (fuel' + 1)))
    {fuel fuel' : Nat} (hn : n ≤ fuel) (hn' : n' ≤ fuel') (i : ι) :
    Local n n' (y i fuel) (y' i fuel') := by
  induction fuel generalizing n n' fuel' i with
  | zero => exact (hzero i).idle (Or.inl (Nat.le_zero.mp hn))
  | succ fuel ih =>
    have hidle : Local 1 1 (y i (fuel + 1)) (y' i 1) :=
      hsucc (ih (Nat.zero_le fuel) (Nat.le_refl 0)) i
    cases n with
    | zero => exact hidle.idle (Or.inl rfl)
    | succ m =>
      cases fuel' with
      | zero => exact hidle.idle (Or.inr (Nat.le_zero.mp hn'))
      | succ fuel' =>
        cases n' with
        | zero => exact hidle.idle (Or.inr rfl)
        | succ m' =>
          exact hsucc (ih (Nat.le_of_succ_le_succ hn) (Nat.le_of_succ_le_succ hn')) i

/-- A reader that holds itself behind a token. -/
theorem nested {y y' : Nat → Parse α} (hzero : Local 0 0 (y 0) (y 0))
    (hsucc : ∀ {m m' fuel fuel'}, Local m m' (y fuel) (y' fuel') →
      Local (m + 1) (m' + 1) (y (fuel + 1)) (y' (fuel' + 1)))
    {fuel fuel' : Nat} (hn : n ≤ fuel) (hn' : n' ≤ fuel') : Local n n' (y fuel) (y' fuel') := by
  have hall : ∀ i : Unit, Local n n' ((fun _ => y) i fuel) ((fun _ => y') i fuel') := by
    apply nestedAll (fun _ => hzero) (fun h _ => hsucc (h ())) hn hn'
  exact hall ()

/-- A reader whose fuel is as much as there are tokens. -/
theorem fueled {y z : Nat → Parse α}
    (h : ∀ {m m' fuel fuel'}, m ≤ n → m' ≤ n' → m ≤ fuel → m' ≤ fuel' →
      Local m m' (y fuel) (z fuel')) :
    Local n n' (fun c => y (c.rest.length + 1) c) (fun c => z (c.rest.length + 1) c) where
  onward := fun hrun => (h (Nat.zero_le n) (Nat.zero_le n') (Nat.zero_le _) (Nat.le_refl 0)).onward
    hrun
  raised := fun hrun => (h (Nat.zero_le n) (Nat.zero_le n') (Nat.zero_le _) (Nat.le_refl 0)).raised
    hrun
  same := fun hv hu hu' hrun =>
    (h hu hu' (Nat.le_refl _) (Nat.le_refl _)).same hv (Nat.lt_succ_self _) (Nat.lt_succ_self _) hrun

theorem collect {step step' : Parse (Option α)} (hstep : Local n n' step step')
    (htakes : ∀ a, Takes step (some a)) : Local n n' (collect step) (collect step') :=
  fueled fun hm hm' => (hstep.mono hm hm').collectUpTo htakes

end Local

/-- What takes a token by the rules takes one. -/
theorem Agrees.takes {α : Type} {n : Nat} {x : Parse α} {r : Rhs} {F : List TokenKind → Prop}
    {P : α → r.Value → Prop} (h : Agrees n x r F P) (hr : r.takes = true) (a : α) :
    Takes x a := by
  intro c c' hrun
  obtain ⟨v, hv, -⟩ := h.sound (run_eq_ok_iff.mp hrun)
  have hlt := hv.length_lt hr
  rwa [c.length_kinds, c'.length_kinds] at hlt

namespace Local

variable {α β : Type} {n n' : Nat} {item item' : Parse α}

/-- Behind an item that takes a token a reader is not back. -/
theorem takes_bind {x : Parse α} {f : α → Parse β} {b : β} (hx : ∀ a, Takes x a)
    (hf : ∀ a, Local 0 0 (f a) (f a)) : Takes (x >>= f) b := by
  intro c c' h
  rcases run_bind_cases h with ⟨_, _, ho⟩ | ⟨a, c₁, hgo, h⟩
  · cases ho
  · exact Nat.lt_of_le_of_lt ((hf a).length_le h) (hx a hgo)

/-- Items behind commas. -/
theorem commas (h : Local n n' item item') :
    Local n n' (manyWhile (Grammar.accept .comma) item)
      (manyWhile (Grammar.accept .comma) item') := by
  have hsome : Local n n' (do return some (← item)) (do return some (← item')) :=
    h.bind fun a => pure _
  refine collect ((accept .comma).bind fun t => ite hsome (pure _)) fun a c c' hrun => ?_
  rcases run_bind_cases hrun with ⟨_, _, ho⟩ | ⟨t, c₁, hgo, hrun⟩
  · cases ho
  cases t with
  | true => exact Nat.lt_of_le_of_lt (hsome.length_le hrun) (accept_takes .comma hgo)
  | false => cases hrun

/-- Items as long as the next token looks like one. -/
theorem manyWhile {more : Parse Bool} (hmore : Local n n' more more) (h : Local n n' item item')
    (htakes : ∀ a, Takes item a) : Local n n' (manyWhile more item) (manyWhile more item') := by
  have hsome : Local n n' (do return some (← item)) (do return some (← item')) :=
    h.bind fun a => pure _
  refine collect (hmore.bind fun t => ite hsome (pure _)) fun a c c' hrun => ?_
  rcases run_bind_cases hrun with ⟨_, _, ho⟩ | ⟨t, c₁, hgo, hrun⟩
  · cases ho
  cases t with
  | true =>
    have hlt : c'.rest.length < c₁.rest.length := takes_bind htakes (fun a => pure _) hrun
    exact Nat.lt_of_lt_of_le hlt (hmore.length_le hgo)
  | false => cases hrun

/-- One more item, unless the closing token comes. -/
theorem untilStep (k : TokenKind) (h : Local n n' item item') :
    Local n n' (do if ← Grammar.accept k then return none else return some (← item))
      (do if ← Grammar.accept k then return none else return some (← item')) :=
  (accept k).bind fun _ => ite (pure _) (h.bind fun a => pure (some a))

theorem untilStep_takes (k : TokenKind) (htakes : ∀ a, Takes item a) (a : α) :
    Takes (do if ← Grammar.accept k then return none else return some (← item)) (some a) := by
  intro c c' hrun
  rcases run_bind_cases hrun with ⟨_, _, ho⟩ | ⟨t, c₁, hgo, hrun⟩
  · cases ho
  cases t with
  | true => cases hrun
  | false =>
    have hlt : c'.rest.length < c₁.rest.length := takes_bind htakes (fun a => pure _) hrun
    have haccept : Local 0 0 (Grammar.accept k) (Grammar.accept k) := accept k
    exact Nat.lt_of_lt_of_le hlt (haccept.length_le hgo)

/-- Items up to a closing token. -/
theorem manyUntil (k : TokenKind) (h : Local n n' item item') (htakes : ∀ a, Takes item a) :
    Local n n' (manyUntil k item) (manyUntil k item') :=
  (h.untilStep k).collect (untilStep_takes k htakes)

/-! ## Expressions -/

section expressions

variable {operand operand' e e' : Parse Expr}

/-- An operator takes a token. -/
theorem operation_takes (h : Local n n' operand operand') (level : Level) (o : BinaryOp × Expr) :
    Takes (level.operation operand) (some o) := by
  intro c c' hrun
  rcases run_bind_cases hrun with ⟨_, _, ho⟩ | ⟨next, c₁, hpeek, hrun⟩
  · cases ho
  cases hpeek
  cases hop : (c.kindAt 0).bind level.operator? with
  | none =>
    rw [hop] at hrun
    cases hrun
  | some op =>
    rw [hop] at hrun
    obtain ⟨k, hk, -⟩ := Option.bind_eq_some_iff.mp hop
    have hnext : c.next.rest.length + 1 = c.rest.length := by
      have hlength := congrArg List.length (Cursor.kinds_eq_cons hk)
      rw [List.length_cons, c.length_kinds, c.next.length_kinds] at hlength
      exact hlength.symm
    have hsome : Local n n' (do return some (op, ← operand)) (do return some (op, ← operand')) :=
      h.bind fun _ => pure _
    have hle : c'.rest.length ≤ c.next.rest.length := hsome.length_le hrun
    omega

theorem operation (h : Local n n' operand operand') (level : Level) :
    Local n n' (level.operation operand) (level.operation operand') := by
  refine peek.bind fun next => ?_
  cases next.bind level.operator? with
  | none => exact pure _
  | some op => exact advance.bind fun _ => h.bind fun _ => pure _

theorem operations (h : Local n n' operand operand') (level : Level) :
    Local n n' (level.operations operand) (level.operations operand') := by
  unfold Level.operations
  refine ite ((h.operation level).collect (operation_takes h level)) ?_
  refine (h.operation level).bind fun next => ?_
  cases next with
  | none => exact pure _
  | some o => exact (pure _).bind fun _ => pure _

/-- All levels around an operand. -/
theorem climb (h : Local n n' operand operand') (levels : List Level) :
    Local n n' (climb operand levels) (climb operand' levels) := by
  induction levels with
  | nil => exact h
  | cons level tighter ih => exact ih.bind fun first => (ih.operations level).bind fun _ => pure _

theorem arguments (h : Local n n' e e') :
    Local (n + 1) (n' + 1) (arguments e) (arguments e') := by
  refine expect_bind .openParen ((accept .closeParen).bind fun t => ite (pure _) ?_)
  exact h.bind fun first => h.commas.bind fun others => (expect .closeParen).bind fun _ => pure _

theorem afterName (h : Local n n' e e') (line : Nat) (name : String) :
    Local (n + 1) (n' + 1) (afterName e line name) (afterName e' line name) := by
  refine (accept .dot).bind fun t => ite ?_ ?_
  · exact ident.bind fun method => h.arguments.bind fun es => pure _
  · exact peek.bind fun next => ite (h.arguments.bind fun es => pure _) (pure _)

/-- An operand without operators.  What it holds stands behind a token. -/
theorem primary (h : Local n n' e e') :
    Local (n + 1) (n' + 1) (primary e) (primary e') := by
  refine lineHere.bind fun line => peek_bind .openParen rfl rfl ?_ fun next hparen => ?_
  · exact h.bind fun inner => (expect .closeParen).bind fun _ => pure _
  cases next with
  | none => exact fail _
  | some k =>
    cases k with
    | openParen => exact absurd rfl hparen
    | num value => exact advance.bind fun _ => pure _
    | true => exact advance.bind fun _ => pure _
    | false => exact advance.bind fun _ => pure _
    | nothing => exact advance.bind fun _ => pure _
    | new => exact advance.bind fun _ => ident.bind fun cls => pure _
    | ident name => exact advance.bind fun _ => h.afterName line name
    | _ => exact fail _

/-- Operands with the operators in front of them, with enough fuel on both
    sides. -/
theorem unary {fuel fuel' : Nat} (hn : n ≤ fuel) (hn' : n' ≤ fuel') :
    Local n n' (unary fuel) (unary fuel') := by
  refine nested (fail _) (fun h => ?_) hn hn'
  refine lineHere.bind fun line => accept_bind .minus (h.bind fun _ => pure _) ?_
  exact accept_bind .not (h.bind fun _ => pure _) (h.climb levels).primary

/-- The reader of expressions. -/
theorem expr : Local n n' expr expr :=
  fueled fun _ _ hfuel hfuel' => (unary hfuel hfuel').climb levels

end expressions

end Local

end ClassLang.Grammar
