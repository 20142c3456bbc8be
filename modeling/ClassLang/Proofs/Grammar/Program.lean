import ClassLang.Compile
import ClassLang.Proofs.Grammar.Bare
import ClassLang.Proofs.Grammar.Expr

/-! # Reading programs by the rules

    The reader of programs reads what the grammar spells, and nothing else.

    * One lemma for each nonterminal above expressions, in the order in which
      the readers use each other, up to **`program_agrees`**.
    * **`startsDeclaration`** and **`startsField`** are what the readers look for
      when they decide whether a declaration comes.
    * **`Program.ofTokens_grammar`** puts it together: a token list is read
      exactly if the grammar derives it, from one derivation, whose tree is
      read. -/

namespace ClassLang.Grammar

variable {n : Nat} {F : List TokenKind → Prop}

/-! ## Declarations and parameters -/

theorem typeName_agrees : Agrees n typeName (.sym .type) F fun (ty v : TypeName) => ty = v := by
  have hcls : Agrees n (do return TypeName.cls (← ident)) .ident F
      fun ty (v : String) => ty = .cls v := Agrees.ident.map fun _ _ h => congrArg _ h
  have hnothing := Agrees.acceptToken (k := .nothing) (z := TypeName.nothing) hcls (by
    intro w h
    obtain ⟨x, w', rfl, _⟩ := starts_ident.mp h
    exact avoids_cons.mpr (by simp))
  have hbool := Agrees.acceptToken (k := .bool) (z := TypeName.bool) hnothing (by
    intro w h
    simp only [starts_alt, starts_token, starts_ident] at h
    rcases h with ⟨w', rfl, _⟩ | ⟨x, w', rfl, _⟩
    all_goals exact avoids_cons.mpr (by simp))
  have hint := Agrees.acceptToken (k := .int) (z := TypeName.int) hbool (by
    intro w h
    simp only [starts_alt, starts_token, starts_ident] at h
    rcases h with ⟨w', rfl, _⟩ | ⟨w', rfl, _⟩ | ⟨x, w', rfl, _⟩
    all_goals exact avoids_cons.mpr (by simp))
  refine hint.sym (s := .type) ?_
  rintro ty (_ | _ | _ | name) h
  all_goals exact h

theorem declaration_agrees :
    Agrees n declaration (.sym .declaration) F fun d (v : Declaration) => d.unlined = v := by
  have hnames : ∀ w, (Rhs.token .semiColon).Starts F w → Avoids [.comma] w :=
    fun w => avoids_of_token (by decide)
  have hrule := Agrees.line fun line => typeName_agrees.bind fun ty =>
    (Agrees.ident (F := _)).bind fun first => (Agrees.ident.commas hnames).bind fun others =>
      Agrees.last (n := n) (F := F) (k := .semiColon)
        (z := ({ ty, names := first :: others, line } : Declaration))
  refine hrule.sym (s := .declaration) ?_
  rintro d ⟨ty, first, others, _⟩ ⟨_, _, rfl, _, rfl, names, hall, rfl⟩
  have hnames : names = others.map (·.2) := by
    rw [← List.forall₂_eq_eq_eq]
    exact List.forall₂_map_right_iff.mpr hall
  rw [hnames]
  rfl

theorem param_agrees : Agrees n param (.sym .param) F fun p (v : Param) => p.unlined = v := by
  have hname : ∀ line ty, Agrees n (do return ({ ty, name := ← ident, line } : Param)) .ident F
      fun p (name : String) => p = { ty, name, line } :=
    fun line ty => Agrees.ident.map fun _ _ h => h ▸ rfl
  have hrule := Agrees.line fun line => typeName_agrees.bind fun ty => hname line ty
  refine hrule.sym (s := .param) ?_
  rintro p ⟨ty, name⟩ ⟨_, _, rfl, rfl⟩
  rfl

/-- The parameters of a method in their parentheses. -/
theorem params_agrees :
    Agrees n params (enclosed (listed (.sym .param))) F
      fun ps (v : Unit × Option (Param × List (Unit × Param)) × Unit) =>
        ps.map Param.unlined = v.2.1.elim [] fun q => q.1 :: q.2.map (·.2) := by
  have hrow := (Agrees.row (n := n) (F := F) (k := .closeParen) (by decide)
    param_agrees).weaken fun ps v hall => map_eq_of_forall₂ hall
  have hstart : ∀ w, (listed (.sym .param)).Starts ((Rhs.token .closeParen).Starts F) w →
      Avoids [.closeParen] w :=
    fun w h => avoids_of_first (Rhs.Starts.param (starts_seq.mp h)) rfl
  have hall := (Agrees.enclosed (r := listed (.sym .param))
    (Q := fun ps (v : Param × List (Unit × Param)) =>
      ps.map Param.unlined = v.1 :: v.2.map (·.2)) hrow hstart).mono (Nat.le_succ n) fun _ h => h
  refine hall.weaken ?_
  rintro ps ⟨_, given, _⟩ hps
  cases given with
  | none =>
    have hps : ps = [] := hps
    rw [hps]
    rfl
  | some _ => exact hps

/-! ## Statements -/

/-- Behind an expression in parentheses comes the closing one. -/
theorem expr_closeParen {r : Rhs} {w : List TokenKind}
    (h : (Rhs.seq (.token .closeParen) r).Starts F w) : Sym.expr.Follow w :=
  avoids_of_token (by decide) (starts_seq.mp h)

theorem expr_semiColon {w : List TokenKind} (h : (Rhs.token .semiColon).Starts F w) :
    Sym.expr.Follow w :=
  avoids_of_token (by decide) h

/-- A block ends in front of no statement. -/
theorem avoids_of_stmt {k : TokenKind} {w : List TokenKind} (hk : k ∉ [.cond, .print])
    (hident : ∀ x, k ≠ .ident x) (h : (Rhs.sym .stmt).Starts F w) : Avoids [k] w := by
  rcases Rhs.Starts.stmt h with ⟨k', w', rfl, hk'⟩ | ⟨x, w', rfl⟩
  · refine avoids_cons.mpr fun hmem => ?_
    rw [List.mem_singleton.mp hmem] at hk'
    exact hk hk'
  · refine avoids_cons.mpr fun hmem => ?_
    exact hident x (List.mem_singleton.mp hmem).symm

section stmt

variable {item : Parse Stmt}

/-- A conditional statement behind its keyword, with a reader for the block. -/
theorem cond_agrees (hitem : ∀ G, Agrees n item (.sym .stmt) G fun s (v : Stmt) => s.unlined = v)
    (line : Nat) : Agrees n (do
        expect .openParen
        let test ← expr
        expect .closeParen
        expect .openCurlyBrace
        return Stmt.cond line test (← manyUntil .closeCurlyBrace item))
      (inRow (.token .openParen) [.sym .expr, .token .closeParen, .token .openCurlyBrace,
        .many (.sym .stmt), .token .closeCurlyBrace]) F
      fun s (v : Unit × Expr × Unit × Unit × List Stmt × Unit) =>
        s.unlined = .cond 0 v.2.1 v.2.2.2.2.1 := by
  have hclose : ∀ {G w}, (Rhs.sym .stmt).Starts G w → Avoids [.closeCurlyBrace] w :=
    avoids_of_stmt (by simp) (by simp)
  have hblock : ∀ test, Agrees n (do return Stmt.cond line test (← manyUntil .closeCurlyBrace item))
      (inRow (.many (.sym .stmt)) [.token .closeCurlyBrace]) F
      fun s (v : List Stmt × Unit) => s.unlined = .cond 0 test.unlined v.1 := by
    intro test
    refine (Agrees.manyUntil (hitem _) rfl fun w => hclose).map fun body v hall => ?_
    rw [Stmt.unlined, Stmt.unlinedAll_eq_map]
    exact congrArg (Stmt.cond 0 test.unlined) (map_eq_of_forall₂ hall)
  have hrule := (Agrees.expect (n := n) (k := .openParen) (F := _)).bind fun _ =>
    (expr_agrees.before fun w => expr_closeParen).bind fun test =>
      (Agrees.expect (k := .closeParen) (F := _)).bind fun _ =>
        (Agrees.expect (k := .openCurlyBrace) (F := _)).bind fun _ => hblock test
  refine hrule.weaken ?_
  rintro s ⟨_, v, _, _, body, _⟩ ⟨_, _, test, rfl, _, _, _, _, hs⟩
  exact hs

/-- A statement that prints, behind its keyword. -/
theorem print_agrees (line : Nat) : Agrees n (do
        expect .openParen
        let value ← expr
        expect .closeParen
        expect .semiColon
        return Stmt.print line value)
      (inRow (.token .openParen) [.sym .expr, .token .closeParen, .token .semiColon]) F
      fun s (v : Unit × Expr × Unit × Unit) => s.unlined = .print 0 v.2.1 := by
  have hrule := (Agrees.expect (n := n) (k := .openParen) (F := _)).bind fun _ =>
    (expr_agrees.before fun w => expr_closeParen).bind fun value =>
      (Agrees.expect (k := .closeParen) (F := _)).bind fun _ =>
        Agrees.last (k := .semiColon) (F := F) (z := Stmt.print line value)
  refine hrule.weaken ?_
  rintro s ⟨_, v, _, _⟩ ⟨_, _, value, rfl, _, _, rfl⟩
  rw [Stmt.unlined]

/-- An assignment. -/
theorem assign_agrees (line : Nat) : Agrees n (do
        let name ← ident
        expect .equal
        let value ← expr
        expect .semiColon
        return Stmt.assign line name value)
      (inRow .ident [.token .equal, .sym .expr, .token .semiColon]) F
      fun s (v : String × Unit × Expr × Unit) => s.unlined = .assign 0 v.1 v.2.2.1 := by
  have hrule := (Agrees.ident (n := n) (F := _)).bind fun name =>
    (Agrees.expect (k := .equal) (F := _)).bind fun _ =>
      (expr_agrees.before fun w => expr_semiColon).bind fun value =>
        Agrees.last (k := .semiColon) (F := F) (z := Stmt.assign line name value)
  refine hrule.weaken ?_
  rintro s ⟨_, _, v, _⟩ ⟨name, rfl, _, _, value, rfl, rfl⟩
  rw [Stmt.unlined]

end stmt

/-- Statements whose blocks nest less than `fuel` deep. -/
theorem stmtUpTo_agrees : ∀ fuel F, Agrees fuel (stmtUpTo fuel) (.sym .stmt) F
    fun s (v : Stmt) => s.unlined = v
  | 0, F => by
    refine ⟨?_, ?_⟩
    · intro c x c' h
      cases h
    · intro c v w' hc
      exact absurd hc (Nat.not_lt_zero _)
  | fuel + 1, F => by
    have ih := stmtUpTo_agrees fuel
    have hprint : ∀ w, (inRow .ident [.token .equal, .sym .expr, .token .semiColon]).Starts F w →
        Avoids [.print] w := by
      intro w h
      obtain ⟨x, w', rfl, _⟩ := starts_ident.mp (starts_seq.mp h)
      exact avoids_cons.mpr (by simp)
    have hcond : ∀ w, (Rhs.alt (inRow (.token .print) [.token .openParen, .sym .expr,
        .token .closeParen, .token .semiColon]) (inRow .ident [.token .equal, .sym .expr,
        .token .semiColon])).Starts F w → Avoids [.cond] w := by
      intro w h
      rcases starts_alt.mp h with h | h
      · exact avoids_of_token (by decide) (starts_seq.mp h)
      · obtain ⟨x, w', rfl, _⟩ := starts_ident.mp (starts_seq.mp h)
        exact avoids_cons.mpr (by simp)
    -- the reader looks for the keywords first
    have hrule := fun line => Agrees.accept (cond_agrees ih line)
      (Agrees.accept (print_agrees line) (assign_agrees line) hprint) hcond
    have hregroup := fun line => (hrule line).congr (b := rules .stmt)
      (Q := fun s v => s.unlined = Sym.stmt.build v) ?_ ?_
    · exact (Agrees.line hregroup).sym fun _ _ ⟨_, hP⟩ => hP
    · rintro w (v | v | v) w' hv
      · exact ⟨.inr (.inl v), (spells_inl.mp hv).left.right, fun _ hP => hP⟩
      · exact ⟨.inr (.inr v), (spells_inl.mp (spells_inr.mp hv)).right.right, fun _ hP => hP⟩
      · exact ⟨.inl v, (spells_inr.mp (spells_inr.mp hv)).left, fun _ hP => hP⟩
    · rintro w (v | v | v) w' hv
      · exact ⟨.inr (.inr v), (spells_inl.mp hv).right.right, fun _ hP => hP⟩
      · exact ⟨.inl v, (spells_inl.mp (spells_inr.mp hv)).left, fun _ hP => hP⟩
      · exact ⟨.inr (.inl v), (spells_inr.mp (spells_inr.mp hv)).left.right, fun _ hP => hP⟩

/-- The reader of statements. -/
theorem stmt_agrees : Agrees n stmt (.sym .stmt) F fun s (v : Stmt) => s.unlined = v where
  sound := by
    intro c s c' h
    exact (stmtUpTo_agrees (c.rest.length + 1) F).sound h
  complete := by
    intro c v w' _ hv hF
    exact (stmtUpTo_agrees (c.rest.length + 1) F).complete (Nat.lt_succ_self _) hv hF

/-! ## Where declarations end -/

/-- A declaration starts with a type and a name. -/
def startsDeclaration : List TokenKind → Bool
  | .int :: _ | .bool :: _ | .nothing :: _ => true
  | .ident _ :: .ident _ :: _ => true
  | _ => false

/-- The declaration of a field is no method: that has a parenthesis behind its
    name. -/
def startsField (w : List TokenKind) : Bool := startsDeclaration w && w[2]? != some .openParen

theorem atDeclaration_eq (c : Cursor) : atDeclaration c = .ok (startsDeclaration c.kinds) c := by
  rw [atDeclaration, Cursor.kindAt_eq, Cursor.kindAt_eq]
  match c.kinds with
  | [] => rfl
  | [k] => cases k <;> rfl
  | k :: l :: _ => cases k <;> cases l <;> rfl

theorem atField_eq (c : Cursor) : atField c = .ok (startsField c.kinds) c := by
  have hpeek : peek 2 c = .ok c.kinds[2]? c := by rw [peek, Cursor.kindAt_eq]
  refine estate_bind_ok_iff.mpr ⟨_, c, atDeclaration_eq c, ?_⟩
  exact estate_bind_ok_iff.mpr ⟨_, c, hpeek, rfl⟩

theorem startsDeclaration_of_type {k : TokenKind} (hk : startsType k = true) (x : String)
    (w : List TokenKind) : startsDeclaration (k :: .ident x :: w) = true := by
  cases k with
  | int | bool | nothing | ident _ => rfl
  | _ => cases hk

/-- A statement is no declaration. -/
theorem not_startsDeclaration {r : Rhs} {w : List TokenKind}
    (h : (Rhs.seq (.many (.sym .stmt)) (.seq (.token .ret) r)).Starts F w) :
    startsDeclaration w = false := by
  rcases starts_many.mp (starts_seq.mp h) with h | h
  · obtain ⟨w', rfl, _⟩ := starts_token.mp (starts_seq.mp h)
    rfl
  · rcases Rhs.Starts.stmt h with ⟨k, w', rfl, hk⟩ | ⟨x, w', rfl⟩
    · simp only [List.mem_cons, List.not_mem_nil, or_false] at hk
      rcases hk with rfl | rfl <;> rfl
    · rfl

/-- The locals of a method end where its statements start. -/
theorem locals_agrees {r : Rhs} : Agrees n (manyWhile atDeclaration declaration)
    (.many (.sym .declaration)) ((Rhs.seq (.many (.sym .stmt)) (.seq (.token .ret) r)).Starts F)
    (List.Forall₂ fun d (v : Declaration) => d.unlined = v) := by
  refine declaration_agrees.manyWhile atDeclaration_eq rfl ?_ fun w => not_startsDeclaration
  intro w h
  obtain ⟨k, x, _, w', rfl, hk, _⟩ := Rhs.Starts.declaration h
  exact startsDeclaration_of_type hk x _

/-- The fields of a class end where its methods start. -/
theorem fields_agrees : Agrees n (manyWhile atField declaration) (.many (.sym .declaration))
    ((Rhs.seq (.many (.sym .method)) (.token .closeCurlyBrace)).Starts F)
    (List.Forall₂ fun d (v : Declaration) => d.unlined = v) := by
  refine declaration_agrees.manyWhile atField_eq rfl ?_ ?_
  · intro w h
    obtain ⟨k, x, k', w', rfl, hk, hk'⟩ := Rhs.Starts.declaration h
    have hne : k' ≠ .openParen := by
      rintro rfl
      simp at hk'
    rw [startsField, startsDeclaration_of_type hk]
    simpa using hne
  · intro w h
    rcases starts_many.mp (starts_seq.mp h) with h | h
    · obtain ⟨w', rfl, _⟩ := starts_token.mp h
      rfl
    · obtain ⟨k, x, w', rfl, _⟩ := Rhs.Starts.method h
      simp [startsField]

/-! ## Methods, classes and programs -/

/-- The statements of a method end with a keyword. -/
theorem body_agrees : Agrees n (manyUntil .ret stmt) (.seq (.many (.sym .stmt)) (.token .ret)) F
    fun ss (v : List Stmt × Unit) => List.Forall₂ (fun s v => s.unlined = v) ss v.1 :=
  stmt_agrees.manyUntil rfl fun _ => avoids_of_stmt (by simp) (by simp)

/-- The expression that a method returns. -/
theorem value_agrees {r : Rhs} : Agrees n expr (.sym .expr)
    ((Rhs.seq (.token .semiColon) r).Starts F) Unlined :=
  expr_agrees.before fun _ h => avoids_of_token (by decide) (starts_seq.mp h)

theorem method_agrees : Agrees n method (.sym .method) F fun m (v : Method) => m.unlined = v := by
  -- the statements and the keyword behind them are two parts of the row, but one reader
  have hrule := Agrees.line fun line => typeName_agrees.bind fun result =>
    (Agrees.ident (F := _)).bind fun name => params_agrees.bind fun params =>
      (Agrees.expect (k := .openCurlyBrace) (F := _)).bind fun _ =>
        locals_agrees.bind fun locals => body_agrees.bind_pair fun body =>
          value_agrees.bind fun value => (Agrees.expect (k := .semiColon) (F := _)).bind fun _ =>
            Agrees.last (n := n) (F := F) (k := .closeCurlyBrace)
              (z := ({ name, result, params, locals, body, value, line } : Method))
  refine hrule.sym (s := .method) ?_
  rintro m ⟨result, name, ⟨_, given, _⟩, _, vlocals, vbody, _, vvalue, _, _⟩
    ⟨line, _, rfl, _, rfl, params, hparams, _, _, locals, hlocals, body, hbody, value, hvalue,
      _, _, rfl⟩
  have hlocals : locals.map Declaration.unlined = vlocals := map_eq_of_forall₂ hlocals
  have hbody : body.map Stmt.unlined = vbody := map_eq_of_forall₂ hbody
  simp only [Method.unlined, hparams, hlocals, hbody, hvalue]
  rfl

theorem superclass_agrees {r : Rhs} : Agrees n superclass (.maybe (inRow (.token .colon) [.ident]))
    ((Rhs.seq (.token .openCurlyBrace) r).Starts F)
    fun name (v : Option (Unit × String)) => name = v.map (·.2) := by
  have hname : ∀ G, Agrees n (do return some (← ident)) .ident G
      fun name (v : String) => name = some v := fun G => Agrees.ident.map fun _ _ h => h ▸ rfl
  have hrule := (hname _).optional (k := .colon) (z := none)
    (F := (Rhs.seq (.token .openCurlyBrace) r).Starts F)
    fun w h => avoids_of_token (by decide) (starts_seq.mp h)
  refine hrule.weaken ?_
  rintro name (_ | ⟨_, v⟩) h
  · exact h
  · exact h

theorem classDef_agrees :
    Agrees n classDef (.sym .cls) F fun c (v : ClassDecl) => c.unlined = v := by
  have hmethods : ∀ line name superclass fields, Agrees n (do
        let methods ← manyUntil .closeCurlyBrace method
        return ({ name, superclass, fields, methods, line } : ClassDecl))
      (.seq (.many (.sym .method)) (.token .closeCurlyBrace)) F
      fun c (v : List Method × Unit) => c.unlined =
        { name, superclass, fields := fields.map Declaration.unlined, methods := v.1, line := 0 } := by
    intro line name superclass fields
    refine (method_agrees.manyUntil rfl ?_).map fun methods v hall => ?_
    · intro w h
      obtain ⟨k, x, w', rfl, hk⟩ := Rhs.Starts.method h
      exact avoids_of_first ⟨k, _, rfl, hk⟩ rfl
    · exact congrArg (ClassDecl.mk name superclass (fields.map Declaration.unlined) · 0)
        (map_eq_of_forall₂ hall)
  have hrule := Agrees.line fun line => (Agrees.expect (k := .cls) (F := _)).bind fun _ =>
    (Agrees.ident (F := _)).bind fun name => superclass_agrees.bind fun superclass =>
      (Agrees.expect (k := .openCurlyBrace) (F := _)).bind fun _ =>
        fields_agrees.bind fun fields => hmethods line name superclass fields
  refine hrule.sym (s := .cls) ?_
  rintro c ⟨_, name, sup, _, vfields, vmethods, _⟩
    ⟨line, _, _, _, rfl, _, rfl, _, _, fields, hfields, hc⟩
  have hfields : fields.map Declaration.unlined = vfields := map_eq_of_forall₂ hfields
  simp only [hc, hfields]
  rfl

/-- A class starts where the list has not ended. -/
def startsClass (w : List TokenKind) : Bool := !w.isEmpty

theorem atToken_eq (c : Cursor) : atToken c = .ok (startsClass c.kinds) c := by
  have hpeek : peek 0 c = .ok c.kinds[0]? c := by rw [peek, Cursor.kindAt_eq]
  refine estate_bind_ok_iff.mpr ⟨_, c, hpeek, ?_⟩
  cases c.kinds <;> rfl

/-- Classes are read up to the end. -/
theorem classes_steps : Steps n (do if ← atToken then return some (← classDef) else return none)
    (.sym .cls) (· = []) fun c (v : ClassDecl) => c.unlined = v := by
  refine classDef_agrees.whileSteps atToken_eq rfl ?_ ?_
  · intro w h
    obtain ⟨w', rfl⟩ := Rhs.Starts.cls h
    rfl
  · rintro w rfl
    rfl

theorem program_agrees :
    Agrees n program (.sym .program) (· = []) fun p (v : Program) => p.unlined = v := by
  have hclasses : ∀ line, Agrees n (do
        return ({ classes := ← manyWhile atToken classDef, line } : Program))
      (rules .program) (· = []) fun p v => p.unlined = Sym.program.build v := by
    intro line
    refine (classes_steps.collect fun h => (while_none atToken_eq h).1).map fun cs v hall => ?_
    exact congrArg (Program.mk · 0) (map_eq_of_forall₂ hall)
  exact (Agrees.line hclasses).sym fun _ _ ⟨_, hP⟩ => hP

/-- Nothing is left behind a program. -/
theorem program_end {c c' : Cursor} {p : Program} (h : program c = .ok p c') : c'.kinds = [] := by
  obtain ⟨line, c₁, hline, h⟩ := estate_bind_ok_iff.mp h
  cases hline
  obtain ⟨classes, c₂, hclasses, hpure⟩ := estate_bind_ok_iff.mp h
  cases hpure
  obtain ⟨u, _, _, _, hstop⟩ :=
    (classes_steps (n := 0)).collectUpTo_sound _ (Nat.lt_succ_self _) hclasses
  obtain ⟨rfl, hend⟩ := while_none atToken_eq hstop
  simpa [startsClass] using hend

end ClassLang.Grammar

namespace ClassLang.Program

open Grammar

/-- A token list is read from its start up to its end. -/
theorem ofTokens_eq_ok_iff {tokens : List Token} {p : Program} :
    ofTokens tokens = .ok p ↔ ∃ c, program (.ofTokens tokens) = .ok p c := by
  unfold ofTokens
  cases hp : program (.ofTokens tokens) with
  | error e c => simp
  | ok q c => simp

/-- What a token list spells if it is read. -/
theorem spells_of_ofTokens {tokens : List Token} {p : Program} (h : ofTokens tokens = .ok p) :
    (Rhs.sym .program).Spells (tokens.map (·.kind)) p.unlined [] := by
  obtain ⟨c, hp⟩ := ofTokens_eq_ok_iff.mp h
  obtain ⟨v, hv, hvalue⟩ := (program_agrees (n := 0)).sound hp
  have hvalue : p.unlined = v := hvalue
  rw [program_end hp, ← hvalue] at hv
  exact hv

/-- What the grammar derives is read. -/
theorem ofTokens_of_spells {tokens : List Token} {v : Program}
    (h : (Rhs.sym .program).Spells (tokens.map (·.kind)) v []) :
    ∃ p, ofTokens tokens = .ok p ∧ p.unlined = v := by
  obtain ⟨p, c, hp, _, hvalue⟩ :=
    program_agrees.complete (c := .ofTokens tokens) (Nat.lt_succ_self _) h rfl
  exact ⟨p, ofTokens_eq_ok_iff.mpr ⟨c, hp⟩, hvalue⟩

/-- How the program that is read relates to the grammar. -/
structure ReadsGrammar (tokens : List Token) : Prop where
  /-- What is read is what the grammar derives. -/
  accepts : (∃ p, ofTokens tokens = .ok p) ↔
    ∃ t : Derivation (.sym .program), t.yield = tokens.map (·.kind)
  /-- There is one derivation at most. -/
  unique : ∀ t t' : Derivation (.sym .program), t.yield = tokens.map (·.kind) →
    t'.yield = tokens.map (·.kind) → t = t'
  /-- The program is the tree of the derivation, but for its lines. -/
  tree : ∀ (p : Program) (t : Derivation (.sym .program)), ofTokens tokens = .ok p →
    t.yield = tokens.map (·.kind) → p.unlined = t.value
  /-- Nothing that the check fills in is there yet. -/
  bare : ∀ p, ofTokens tokens = .ok p → p.erase = p

/-- The grammar is accepted exactly, without ambiguity, and its trees are
    returned. -/
theorem ofTokens_grammar (tokens : List Token) : ReadsGrammar tokens := by
  -- a derivation of the kinds spells them with nothing behind
  have hspells : ∀ t : Derivation (.sym .program), t.yield = tokens.map (·.kind) →
      (Rhs.sym .program).Spells (tokens.map (·.kind)) t.value [] := by
    intro t ht
    exact ⟨t, by rw [ht, List.append_nil], rfl⟩
  refine ⟨⟨?_, ?_⟩, ?_, ?_, ?_⟩
  · rintro ⟨p, hp⟩
    obtain ⟨t, ht, _⟩ := spells_of_ofTokens hp
    rw [List.append_nil] at ht
    exact ⟨t, ht.symm⟩
  · rintro ⟨t, ht⟩
    obtain ⟨p, hp, _⟩ := ofTokens_of_spells (hspells t ht)
    exact ⟨p, hp⟩
  · intro t t' ht ht'
    exact derivation_unique rfl (ht.trans ht'.symm)
  · intro p t hp ht
    obtain ⟨q, hq, hvalue⟩ := ofTokens_of_spells (hspells t ht)
    cases hp.symm.trans hq
    exact hvalue
  · intro p hp
    exact erase_of_ofTokens hp

end ClassLang.Program
