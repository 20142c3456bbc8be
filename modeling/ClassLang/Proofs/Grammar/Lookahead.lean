import ClassLang.Proofs.Grammar.Local
import ClassLang.Proofs.Grammar.Program

/-! # Looking further ahead

    A declaration is told from a statement by its second token and from a
    method by its third.  Still a reader of programs stops at the first token
    that fits nowhere: where the tokens up to there do not tell which of two
    readers goes on, both of them stop at the same token with the same error.

    * **`Passes`** and **`Fails`**: what a reader does in front of a token.
    * **`Local.choose`**: a choice that looks further ahead, between readers
      that agree wherever the choice is open.
    * **`settled_locals`** and **`settled_fields`** are the two such choices.
    * **`Local.program`** puts the readers together. -/

namespace ClassLang.Grammar

/-! ## Choices that look further ahead -/

/-- The kinds of tokens. -/
abbrev kindsOf (tokens : List Token) : List TokenKind := tokens.map Token.kind

/-- From `u` in front of `v` the reader goes on beyond the first token of `v`. -/
def Passes {α : Type} (x : Parse α) (u v : List Token) : Prop :=
  ∀ l o c', run x ⟨u ++ v, l⟩ = (o, c') → c'.rest.length < v.length

/-- From `u` in front of `v` the reader stops there, since it wants something
    else. -/
def Fails {α : Type} (x : Parse α) (u v : List Token) (wanted : Wanted) : Prop :=
  ∀ l, run x ⟨u ++ v, l⟩ = run (fail wanted) ⟨v, l⟩

/-- Two readers that both pass on, or both fail in the same way, wherever the
    choice between them depends on tokens behind the next. -/
def Settled {α β : Type} (p : List TokenKind → Bool) (x : Parse α) (y : Parse β) : Prop :=
  ∀ {u v v'}, Alike v v' → p (kindsOf (u ++ v)) ≠ p (kindsOf (u ++ v')) →
    (Passes x u v ∧ Passes y u v) ∨
      ∃ wanted, Fails x u v wanted ∧ Fails y u v wanted ∧ Fails x u v' wanted ∧
        Fails y u v' wanted

section choice

variable {α β : Type} {n n' : Nat} {item : Parse α} {no : Parse β} {g g' : α → Parse β}
  {u v v' : List Token} {wanted : Wanted}

theorem Passes.bind (hx : Passes item u v) (hg : ∀ a, Local 0 0 (g a) (g a)) :
    Passes (item >>= g) u v := by
  intro l o c' h
  rcases run_bind_cases h with ⟨e, hstop, -⟩ | ⟨a, c₁, hgo, h⟩
  · exact hx _ _ _ hstop
  · exact Nat.lt_of_le_of_lt ((hg a).length_le h) (hx _ _ _ hgo)

theorem Fails.bind (hx : Fails item u v wanted) : Fails (item >>= g) u v wanted :=
  fun l => run_bind_of_error (hx l)

/-- A reader does not stop where it passes. -/
theorem Passes.not_stops (hx : Passes item u v) {l : Nat} {o : Except SyntaxError α} :
    run item ⟨u ++ v, l⟩ ≠ (o, ⟨v, l⟩) :=
  fun h => Nat.lt_irrefl _ (hx _ _ _ h)

/-- A choice that looks further ahead, between an item and the end of the
    items. -/
theorem Local.choose {more : Parse Bool} {p : List TokenKind → Bool}
    (hmore : ∀ c, more c = .ok (p c.kinds) c) (hitem : Local n n' (item >>= g) (item >>= g'))
    (hg : ∀ a, Local 0 0 (g a) (g a)) (hno : Local n n' no no) (hsettled : Settled p item no) :
    Local n n' (more >>= fun t => if t = true then item >>= g else no)
      (more >>= fun t => if t = true then item >>= g' else no) := by
  have hrun : ∀ (h : α → Parse β) c,
      run (more >>= fun t => if t = true then item >>= h else no) c =
        run (if p c.kinds = true then item >>= h else no) c :=
    fun h c => run_bind_of_ok (run_eq_ok_iff.mpr (hmore c))
  refine ⟨?_, ?_, ?_⟩
  · intro c o c' h
    rw [hrun] at h
    split at h
    · exact hitem.onward h
    · exact hno.onward h
  · intro c e c' h
    rw [hrun] at h
    split at h
    · exact hitem.raised h
    · exact hno.raised h
  · intro u v v' l l' o hv hu hu' h
    rw [hrun] at h ⊢
    by_cases hp : p (kindsOf (u ++ v)) = p (kindsOf (u ++ v'))
    · -- the choice is the same on both lists
      show run (if p (kindsOf (u ++ v')) = true then _ else _) _ = _
      rw [← hp]
      change run (if p (kindsOf (u ++ v)) = true then _ else _) _ = _ at h
      split at h
      · next hyes =>
        rw [if_pos hyes]
        exact hitem.same hv hu hu' h
      · next hnot =>
        rw [if_neg hnot]
        exact hno.same hv hu hu' h
    rcases hsettled hv hp with ⟨hpass, hpass'⟩ | ⟨wanted, hfail, hfail', hfail₁, hfail₁'⟩
    · -- neither of the two would have stopped here
      split at h
      · exact absurd h (hpass.bind hg).not_stops
      · exact absurd h hpass'.not_stops
    · -- both of them stop here with the same error
      have ho : (o, (⟨v, l⟩ : Cursor)) = run (Grammar.fail wanted : Parse β) ⟨v, l⟩ := by
        split at h
        · exact h.symm.trans (hfail.bind l)
        · exact h.symm.trans (hfail' l)
      have hwanted : Local (v.length + 1) (v'.length + 1)
          (Grammar.fail wanted : Parse β) (Grammar.fail wanted) := Local.fail wanted
      have ho' : run (Grammar.fail wanted : Parse β) ⟨v', l'⟩ = (o, ⟨v', l'⟩) :=
        hwanted.same (u := []) hv (Nat.lt_succ_self _) (Nat.lt_succ_self _) ho.symm
      split
      · exact (hfail₁.bind l').trans ho'
      · exact (hfail₁' l').trans ho'

end choice

/-! ## Items while the next tokens look like one -/

section loop

variable {α β : Type} {n n' : Nat} {more : Parse Bool} {item : Parse α} {f : List α → Parse β}
  {p : List TokenKind → Bool}

/-- Items while the next tokens look like one, and what comes behind them; the
    items before are given. -/
def whileThen (more : Parse Bool) (item : Parse α) (f : List α → Parse β) (before : List α)
    (fuel : Nat) : Parse β :=
  collectUpTo (do if ← more then return some (← item) else return none) fuel >>= fun items =>
    f (before ++ items)

theorem whileThen_zero (before : List α) : whileThen more item f before 0 = f before := by
  show (pure [] >>= fun items => f (before ++ items)) = _
  rw [pure_bind, List.append_nil]

theorem whileThen_succ (before : List α) (fuel : Nat) :
    whileThen more item f before (fuel + 1) =
      (more >>= fun t => if t = true
        then item >>= fun a => whileThen more item f (before ++ [a]) fuel
        else f before) := by
  simp only [whileThen, collectUpTo, bind_assoc]
  congr 1
  funext t
  cases t with
  | true => simp
  | false => simp

/-- Items while the next tokens look like one are read locally together with
    what comes behind them. -/
theorem Local.manyWhile_bind (hmore : ∀ c, more c = .ok (p c.kinds) c)
    (hitem : ∀ {m m'}, Local m m' item item) (htakes : ∀ a, Takes item a)
    (hf : ∀ {m m'} items, Local m m' (f items) (f items))
    (hsettled : ∀ items, Settled p item (f items)) :
    Local n n' (Grammar.manyWhile more item >>= f) (Grammar.manyWhile more item >>= f) := by
  have hloop : ∀ {m m' fuel fuel'}, m ≤ fuel → m' ≤ fuel' → ∀ before,
      Local m m' (whileThen more item f before fuel) (whileThen more item f before fuel') := by
    intro m m' fuel fuel' hm hm' before
    refine nestedAll (fun before => ?_) (fun h before => ?_) hm hm' before
    · rw [whileThen_zero]
      exact hf before
    · rw [whileThen_succ, whileThen_succ]
      exact Local.choose hmore (hitem.bind_of_takes htakes fun a => h _)
        (fun a => (h _).idle (Or.inl rfl)) (hf before) (hsettled before)
  exact Local.fueled (y := whileThen more item f []) (z := whileThen more item f [])
    fun _ _ hfuel hfuel' => hloop hfuel hfuel' []

end loop

/-! ## Declarations, parameters and statements -/

/-- What a method consists of behind its name. -/
def afterSignature (line : Nat) (result : TypeName) (name : String) : Parse Method := do
  let params ← params
  expect .openCurlyBrace
  let locals ← manyWhile atDeclaration declaration
  let body ← manyUntil .ret stmt
  let value ← expr
  expect .semiColon
  expect .closeCurlyBrace
  return { name, result, params, locals, body, value, line }

theorem method_eq : method = (lineHere >>= fun line => typeName >>= fun result =>
    ident >>= fun name => afterSignature line result name) :=
  rfl

/-- What a declaration consists of behind the first name. -/
def afterFirst (line : Nat) (ty : TypeName) (first : String) : Parse Declaration := do
  let others ← manyWhile (accept .comma) ident
  expect .semiColon
  return { ty, names := first :: others, line }

theorem declaration_eq : declaration = (lineHere >>= fun line => typeName >>= fun ty =>
    ident >>= fun first => afterFirst line ty first) :=
  rfl

namespace Local

variable {n n' : Nat}

theorem typeName : Local n n' typeName typeName :=
  (accept .int).bind fun _ => ite (pure _) <| (accept .bool).bind fun _ => ite (pure _) <|
    (accept .nothing).bind fun _ => ite (pure _) <| ident.bind fun _ => pure _

theorem afterFirst (line : Nat) (ty : TypeName) (first : String) :
    Local n n' (afterFirst line ty first) (afterFirst line ty first) :=
  ident.commas.bind fun _ => (expect .semiColon).bind fun _ => pure _

theorem declaration : Local n n' declaration declaration := by
  rw [declaration_eq]
  exact lineHere.bind fun line => typeName.bind fun ty => ident.bind fun first =>
    afterFirst line ty first

theorem param : Local n n' param param :=
  lineHere.bind fun _ => typeName.bind fun _ => ident.bind fun _ => pure _

theorem params : Local n n' params params :=
  (expect .openParen).bind fun _ => (accept .closeParen).bind fun _ => ite (pure _) <|
    param.bind fun _ => param.commas.bind fun _ => (expect .closeParen).bind fun _ => pure _

/-- Statements whose blocks nest, with enough fuel on both sides. -/
theorem stmtUpTo {fuel fuel' : Nat} (hn : n ≤ fuel) (hn' : n' ≤ fuel') :
    Local n n' (stmtUpTo fuel) (stmtUpTo fuel') := by
  refine nested (fail _) (fun {m m' fuel fuel'} h => ?_) hn hn'
  have htakes : ∀ s, Takes (Grammar.stmtUpTo fuel) s :=
    (stmtUpTo_agrees fuel fun _ => True).takes rfl
  refine lineHere.bind fun line => accept_bind .cond ?_ (accept_bind .print ?_ ?_)
  · exact (expect .openParen).bind fun _ => expr.bind fun _ => (expect .closeParen).bind fun _ =>
      (expect .openCurlyBrace).bind fun _ =>
        (h.manyUntil .closeCurlyBrace htakes).bind fun _ => pure _
  · exact (expect .openParen).bind fun _ => expr.bind fun _ => (expect .closeParen).bind fun _ =>
      (expect .semiColon).bind fun _ => pure _
  · exact ident.bind fun _ => (expect .equal).bind fun _ => expr.bind fun _ =>
      (expect .semiColon).bind fun _ => pure _

theorem stmt : Local n n' stmt stmt := fueled fun _ _ => stmtUpTo

end Local

/-! ## Where a declaration is told from something else -/

section typed

variable {α β : Type} {g : Nat → TypeName → String → Parse α} {s t : Token} {r : List Token}

/-- A type is one token. -/
theorem run_typeName (ht : startsType t.kind = true) (r : List Token) :
    ∃ ty, ∀ l, run typeName ⟨t :: r, l⟩ = (.ok ty, ⟨r, l⟩) := by
  obtain ⟨k, line⟩ := t
  cases k with
  | int | bool | nothing | ident _ => exact ⟨_, fun _ => rfl⟩
  | _ => cases ht

/-- What a reader of a type and a name does behind the type. -/
theorem run_typed (ht : startsType t.kind = true) (r : List Token) :
    ∃ ty, ∀ l, run (lineHere >>= fun line => typeName >>= fun ty => ident >>= g line ty)
      ⟨t :: r, l⟩ = run (ident >>= g t.line ty) ⟨r, l⟩ := by
  obtain ⟨ty, hty⟩ := run_typeName ht r
  refine ⟨ty, fun l => ?_⟩
  show run (typeName >>= fun ty => ident >>= g t.line ty) ⟨t :: r, l⟩ = _
  exact run_bind_of_ok (hty l)

variable (hg : ∀ line ty name, Local 0 0 (g line ty name) (g line ty name))

include hg

/-- A reader that starts with a type and a name passes a type. -/
theorem passes_type (ht : startsType t.kind = true) :
    Passes (lineHere >>= fun line => typeName >>= fun ty => ident >>= g line ty) [] (t :: r) := by
  obtain ⟨ty, hty⟩ := run_typed (g := g) ht r
  intro l o c' h
  have hrest : run (ident >>= g t.line ty) ⟨r, l⟩ = (o, c') := (hty l).symm.trans h
  have hle := (Local.ident.bind fun name => hg t.line ty name).length_le hrest
  exact Nat.lt_succ_of_le hle

/-- It passes a name behind a type. -/
theorem passes_typed {name : String} (hs : startsType s.kind = true) (ht : t.kind = .ident name) :
    Passes (lineHere >>= fun line => typeName >>= fun ty => ident >>= g line ty) [s] (t :: r) := by
  obtain ⟨ty, hty⟩ := run_typed (g := g) hs (t :: r)
  have hident : ∀ l, run ident ⟨t :: r, l⟩ = (.ok name, ⟨r, l⟩) :=
    fun l => run_ident_of_eq (c := ⟨t :: r, l⟩) (congrArg some ht)
  intro l o c' h
  have hrest : run (g s.line ty name) ⟨r, l⟩ = (o, c') := by
    rw [← h, ← run_bind_of_ok (hident l)]
    exact (hty l).symm
  exact Nat.lt_succ_of_le ((hg s.line ty name).length_le hrest)

omit hg

/-- It fails where no name stands behind the type. -/
theorem fails_typed (hs : startsType s.kind = true) (ht : ∀ name, t.kind ≠ .ident name) :
    Fails (lineHere >>= fun line => typeName >>= fun ty => ident >>= g line ty) [s] (t :: r)
      .ident := by
  obtain ⟨ty, hty⟩ := run_typed (g := g) hs (t :: r)
  intro l
  have hident : run ident ⟨t :: r, l⟩ = (.error ⟨t.line, some t.kind, .ident⟩, ⟨t :: r, l⟩) :=
    run_ident_of_ne (c := ⟨t :: r, l⟩) fun name h => ht name (Option.some.inj h)
  exact (hty l).trans (run_bind_of_error hident)

end typed

section items

variable {α β : Type} {item : Parse α} {k : TokenKind} {u v : List Token} {wanted : Wanted}

/-- Unless the closing token comes, the next item is read. -/
theorem run_until_of_ne (item : Parse α) {c : Cursor} (hk : c.kindAt 0 ≠ some k) (fuel : Nat) :
    run (collectUpTo (do if ← accept k then return none else return some (← item)) (fuel + 1)) c =
      run (item >>= fun a => collectUpTo (do
        if ← accept k then return none else return some (← item)) fuel >>= fun rest =>
          pure (a :: rest)) c := by
  simp only [collectUpTo, bind_assoc]
  rw [run_bind_of_ok (run_accept_of_ne hk)]
  simp only [Bool.false_eq_true, if_false, bind_assoc, pure_bind]

theorem Passes.manyUntil (h : Passes item u v) (hk : Cursor.kindAt ⟨u ++ v, 0⟩ 0 ≠ some k)
    (hitem : Local 0 0 item item) (htakes : ∀ a, Takes item a) :
    Passes (Grammar.manyUntil k item) u v := by
  intro l o c' hrun
  have hrest : ∀ fuel, Local 0 0 (collectUpTo (do
      if ← accept k then return none else return some (← item)) fuel) _ := fun fuel =>
    (hitem.untilStep k).collectUpTo (Local.untilStep_takes k htakes) (Nat.zero_le fuel)
      (Nat.zero_le fuel)
  have hfirst := run_until_of_ne item (c := ⟨u ++ v, l⟩) hk (u ++ v).length
  exact h.bind (fun a => (hrest _).bind fun rest => Local.pure _) l o c' (hfirst.symm.trans hrun)

theorem Fails.manyUntil (h : Fails item u v wanted) (hk : Cursor.kindAt ⟨u ++ v, 0⟩ 0 ≠ some k) :
    Fails (Grammar.manyUntil k item) u v wanted := by
  intro l
  have hfirst := run_until_of_ne item (c := ⟨u ++ v, l⟩) hk (u ++ v).length
  exact hfirst.trans (h.bind l)

end items

/-! ## Methods, classes and programs -/

theorem startsDeclaration_cons_cons (k l : TokenKind) (w w' : List TokenKind) :
    startsDeclaration (k :: l :: w) = startsDeclaration (k :: l :: w') := by
  cases k with
  | ident _ => cases l <;> rfl
  | _ => rfl

/-- Where declarations start with one token only, it is a name. -/
theorem ident_of_startsDeclaration_ne {k : TokenKind} {w w' : List TokenKind}
    (h : startsDeclaration (k :: w) ≠ startsDeclaration (k :: w')) : ∃ name, k = .ident name := by
  cases k with
  | ident name => exact ⟨name, rfl⟩
  | _ => exact absurd rfl h

/-- A declaration starts with a type. -/
theorem startsType_of_startsDeclaration {k : TokenKind} {w : List TokenKind}
    (h : startsDeclaration (k :: w) = true) : startsType k = true := by
  cases k with
  | int | bool | nothing | ident _ => rfl
  | _ => cases h

section choices

variable {β : Type} {t : Token} {r : List Token}

theorem declaration_takes (d : Declaration) : Takes declaration d :=
  (declaration_agrees (n := 0) (F := fun _ => True)).takes rfl d

theorem stmt_takes (s : Stmt) : Takes stmt s :=
  (stmt_agrees (n := 0) (F := fun _ => True)).takes rfl s

theorem method_takes (m : Method) : Takes method m :=
  (method_agrees (n := 0) (F := fun _ => True)).takes rfl m

theorem classDef_takes (c : ClassDecl) : Takes classDef c :=
  (classDef_agrees (n := 0) (F := fun _ => True)).takes rfl c

/-- A statement goes on behind a name. -/
theorem passes_stmt {name : String} (ht : t.kind = .ident name) (r : List Token) :
    Passes stmt [] (t :: r) := by
  obtain ⟨kind, line⟩ := t
  obtain rfl : kind = .ident name := ht
  have hrest : ∀ l, run stmt ⟨⟨.ident name, line⟩ :: r, l⟩ =
      run (expect .equal >>= fun _ => expr >>= fun value => expect .semiColon >>= fun _ =>
        pure (Stmt.assign line name value)) ⟨r, l⟩ := fun _ => rfl
  have hlocal : Local 0 0 (expect .equal >>= fun _ => expr >>= fun value =>
      expect .semiColon >>= fun _ => pure (Stmt.assign line name value)) _ :=
    (Local.expect .equal).bind fun _ => Local.expr.bind fun _ =>
      (Local.expect .semiColon).bind fun _ => Local.pure _
  intro l o c' h
  exact Nat.lt_succ_of_le (hlocal.length_le ((hrest l).symm.trans h))

theorem passes_declaration (ht : startsType t.kind = true) (r : List Token) :
    Passes declaration [] (t :: r) := by
  rw [declaration_eq]
  exact passes_type Local.afterFirst ht

/-- Both a declaration and a statement go on behind a name. -/
theorem settled_locals {f : List Stmt → Parse β} (hf : ∀ body, Local 0 0 (f body) (f body)) :
    Settled startsDeclaration declaration (manyUntil .ret stmt >>= f) := by
  intro u v v' hv hne
  obtain ⟨t, r, r', rfl, rfl⟩ := hv
  match u with
  | [] =>
    obtain ⟨name, ht⟩ := ident_of_startsDeclaration_ne hne
    have htype : startsType t.kind = true := by rw [ht]; rfl
    have hret : Cursor.kindAt ⟨t :: r, 0⟩ 0 ≠ some .ret := by simp [Cursor.kindAt, ht]
    have hbody : Passes (manyUntil .ret stmt) [] (t :: r) :=
      (passes_stmt ht r).manyUntil hret Local.stmt stmt_takes
    exact Or.inl ⟨passes_declaration htype r, hbody.bind hf⟩
  | [s] => exact absurd (startsDeclaration_cons_cons _ _ _ _) hne
  | s :: s' :: u => exact absurd (startsDeclaration_cons_cons _ _ _ _) hne

end choices

namespace Local

variable {n n' : Nat}

/-- What stands behind the name of a method. -/
theorem afterSignature (line : Nat) (result : TypeName) (name : String) :
    Local n n' (afterSignature line result name) (afterSignature line result name) :=
  params.bind fun _ => (expect .openCurlyBrace).bind fun _ =>
    manyWhile_bind atDeclaration_eq declaration declaration_takes
      (fun _ => (stmt.manyUntil .ret stmt_takes).bind fun _ => expr.bind fun _ =>
        (expect .semiColon).bind fun _ => (expect .closeCurlyBrace).bind fun _ => pure _)
      (fun _ => settled_locals fun _ => expr.bind fun _ => (expect .semiColon).bind fun _ =>
        (expect .closeCurlyBrace).bind fun _ => pure _)

theorem method : Local n n' method method := by
  rw [method_eq]
  exact lineHere.bind fun line => typeName.bind fun result => ident.bind fun name =>
    afterSignature line result name

end Local

section fields

variable {β : Type} {f : List Method → Parse β} {u v : List Token} {wanted : Wanted}
  {s t : Token} {r : List Token}

/-- A type closes no block. -/
theorem not_closed (hs : startsType s.kind = true) (w : List Token) :
    Cursor.kindAt ⟨s :: w, 0⟩ 0 ≠ some .closeCurlyBrace := by
  intro hclosed
  have hkind : s.kind = .closeCurlyBrace := Option.some.inj hclosed
  rw [hkind] at hs
  cases hs

theorem startsDeclaration_of_startsField {w : List TokenKind} (h : startsField w = true) :
    startsDeclaration w = true :=
  (Bool.and_eq_true_iff.mp h).1

/-- Where one of two lists starts with a field and the other one does not, one of
    them starts with a declaration. -/
theorem startsDeclaration_of_startsField_ne {w w' : List TokenKind}
    (h : startsField w ≠ startsField w') :
    startsDeclaration w = true ∨ startsDeclaration w' = true := by
  by_cases hw : startsField w = true
  · exact Or.inl (startsDeclaration_of_startsField hw)
  · have hw' : startsField w' = true := by
      by_contra hw'
      exact h ((Bool.eq_false_iff.mpr hw).trans (Bool.eq_false_iff.mpr hw').symm)
    exact Or.inr (startsDeclaration_of_startsField hw')

/-- Both a declaration and a method go on behind a type, and behind a name; and
    both stop where there is no name behind the type. -/
theorem settled_fields (hf : ∀ methods, Local 0 0 (f methods) (f methods)) :
    Settled startsField declaration (manyUntil .closeCurlyBrace method >>= f) := by
  intro u v v' hv hne
  obtain ⟨t, r, r', rfl, rfl⟩ := hv
  match u with
  | [] =>
    have htype : startsType t.kind = true := by
      rcases startsDeclaration_of_startsField_ne hne with h | h
      · exact startsType_of_startsDeclaration h
      · exact startsType_of_startsDeclaration h
    have hmethod : Passes method [] (t :: r) := passes_type Local.afterSignature htype
    have hmethods := hmethod.manyUntil (not_closed htype r) Local.method method_takes
    exact Or.inl ⟨passes_declaration htype r, hmethods.bind hf⟩
  | [s] =>
    have htype : startsType s.kind = true := by
      rcases startsDeclaration_of_startsField_ne hne with h | h
      · exact startsType_of_startsDeclaration h
      · exact startsType_of_startsDeclaration h
    by_cases hident : ∃ name, t.kind = .ident name
    · obtain ⟨name, ht⟩ := hident
      have hmethod : Passes method [s] (t :: r) := passes_typed Local.afterSignature htype ht
      have hmethods := hmethod.manyUntil (not_closed htype (t :: r)) Local.method method_takes
      have hdeclaration : Passes declaration [s] (t :: r) :=
        passes_typed Local.afterFirst htype ht
      exact Or.inl ⟨hdeclaration, hmethods.bind hf⟩
    · have ht : ∀ name, t.kind ≠ .ident name := fun name h => hident ⟨name, h⟩
      have hmethods : ∀ r, Fails (manyUntil .closeCurlyBrace method >>= f) [s] (t :: r) .ident := by
        intro r
        have hmethod : Fails method [s] (t :: r) .ident := fails_typed htype ht
        exact (hmethod.manyUntil (not_closed htype (t :: r))).bind
      exact Or.inr ⟨.ident, fails_typed htype ht, hmethods r, fails_typed htype ht, hmethods r'⟩
  | s :: s' :: u =>
    -- the first three tokens are the same
    have hdeclaration : startsDeclaration (kindsOf (s :: s' :: u ++ t :: r)) =
        startsDeclaration (kindsOf (s :: s' :: u ++ t :: r')) :=
      startsDeclaration_cons_cons _ _ _ _
    have hthird : (kindsOf (s :: s' :: u ++ t :: r))[2]? =
        (kindsOf (s :: s' :: u ++ t :: r'))[2]? := by
      cases u <;> rfl
    exact absurd (by rw [startsField, startsField, hdeclaration, hthird]) hne

end fields

namespace Local

variable {n n' : Nat}

theorem superclass : Local n n' superclass superclass :=
  (accept .colon).bind fun _ => ite (ident.bind fun name => pure (some name)) (pure _)

theorem classDef : Local n n' classDef classDef :=
  lineHere.bind fun _ => (expect .cls).bind fun _ => ident.bind fun _ => superclass.bind fun _ =>
    (expect .openCurlyBrace).bind fun _ =>
      manyWhile_bind atField_eq declaration declaration_takes
        (fun _ => (method.manyUntil .closeCurlyBrace method_takes).bind fun _ => pure _)
        (fun _ => settled_fields fun _ => pure _)

/-- The reader of programs. -/
theorem program : Local n n' program program := by
  have hmore : Local n n' atToken atToken := peek.bind fun next => pure next.isSome
  exact lineHere.bind fun _ => (hmore.manyWhile classDef classDef_takes).bind fun _ => pure _

end Local

end ClassLang.Grammar
