import ClassLang.Proofs.Typing.Erase
import ClassLang.Proofs.Typing.Reflect
import ClassLang.Proofs.Typing.Yields

/-! # Checking expressions is elaboration

    * **`Tables.InMethod`**: the tables as they are while a body is checked;
      **`variableType_eq`** says that they find the variables that the rules
      find.
    * **`Expr.exists_elaborated`**: an expression that has a type has an
      elaborated form.
    * **`Expr.check_yields_iff`**: checking a bare expression yields exactly
      its elaborated form. -/

namespace ClassLang

/-! ## The tables inside a method -/

/-- The tables while the body of a method is checked: the current scope binds
    the variables of the method, and around it is the scope of the class. -/
structure Tables.InMethod (t : Tables) (V : View) : Prop extends t.Reflects V.known where
  around : ∃ e older, t.classes.entries = e :: older ∧ e.name = V.cls ∧
    t.scopes.enclosing = [e.scope, 0]
  fresh : t.scopes.current ∉ 0 :: t.classes.entries.map ClassEntry.scope
  currentOpened : t.scopes.current < t.scopes.scopes.size
  vars : ∀ x, t.scopes.lookupIn t.scopes.current x = V.vars.lookup x

/-- A search through the open scopes and then along the chain of the class
    finds what the rules find. -/
theorem Tables.InMethod.variableType_eq {t : Tables} {V : View} (h : t.InMethod V) (x : String) :
    t.variableType V.cls x = V.varTy? x := by
  obtain ⟨e, older, hent, hname, henc⟩ := h.around
  have hres := h.resolve_eq V.cls x
  have hlookup : t.scopes.lookup x =
      (V.vars.lookup x).or (t.scopes.lookupIn e.scope x) := by
    simp only [ScopeTree.lookup, henc, List.findSome?_cons, h.vars, h.root]
    cases V.vars.lookup x <;> cases t.scopes.lookupIn e.scope x <;> rfl
  rw [variableType, View.varTy?, hlookup]
  cases hv : V.vars.lookup x with
  | some ty => rfl
  | none =>
    obtain ⟨i, known, hei, hknown, hcons⟩ := (List.forall₂_cons_left_iff).mp (hent ▸ h.entries)
    have hmember := hei.members x
    cases hm : i.member? x with
    | some ty =>
      -- a member of the enclosing class is found in its open scope
      have hself : V.known.resolve V.cls x = some (i.name, ty) := by
        rw [hcons, ← hname, hei.name, Known.resolve, Known.lineage_self, List.findSome?_cons, hm]
        rfl
      rw [hmember, hm, hself]
      rfl
    | none =>
      rw [hmember, hm, ← hres, Option.map_map]
      rfl

namespace Expr

/-! ## Notes -/

@[simp] theorem withNote_withNote (e : Expr) (n m : Note) :
    (e.withNote n).withNote m = e.withNote m := by
  cases e <;> rfl

@[simp] theorem withNote_note (e : Expr) : e.withNote e.note = e := by
  cases e <;> rfl

/-- A bare node gets its type and its callee at once. -/
theorem conclude_of_bare {e : Expr} {callee : Option String} {ty : Ty}
    (hb : e.note.erase = e.note) : e.conclude callee ty =
      ⟨e.withNote { line := e.line, ty := some ty, callee := callee },
        [.typedExpression e.line ty], .ok ty⟩ := by
  have hty : e.ty? = none := by
    rw [ty?, ← hb]
    rfl
  cases callee with
  | none =>
    have hnote : { e.note with ty := some ty } = (⟨e.line, some ty, none⟩ : Note) := by
      rw [← hb]
      rfl
    simp only [conclude, recordCallee, setTy?, hty, hnote]
    rfl
  | some cls =>
    have hcallee : e.callee? = none := by
      rw [callee?, ← hb]
      rfl
    have hcalled : (e.withNote { e.note with callee := some cls }).ty? = none := by
      rw [ty?, note_withNote]
      exact hty
    simp only [conclude, recordCallee, setCallee?, hcallee, setTy?, hcalled, withNote_withNote,
      note_withNote]
    rfl

/-- A bare node is concluded with exactly its type and its callee. -/
theorem conclude_yields_iff {e e' : Expr} {callee : Option String} {ty ty' : Ty}
    (hb : e.note.erase = e.note) :
    (e.conclude callee ty).Yields e' ty' ↔
      e' = e.withNote { line := e.line, ty := some ty, callee := callee } ∧ ty' = ty := by
  rw [conclude_of_bare hb, Outcome.yields_mk, Except.ok.injEq]
  exact and_congr eq_comm eq_comm

/-- A node that records its type and its callee is what concluding its bare
    form yields. -/
theorem conclude_of_records {e : Expr} {callee : Option String} {ty : Ty}
    (h : e.note.Records ty callee) :
    ((e.withNote e.note.erase).conclude callee ty).Yields e ty := by
  rw [conclude_yields_iff (by simp [Note.erase])]
  refine ⟨?_, rfl⟩
  have hnote : ({ line := e.note.line, ty := some ty, callee := callee } : Note) = e.note := by
    rw [← h.1, ← h.2]
  rw [withNote_withNote, line, note_withNote, Note.erase_line, hnote, withNote_note]

/-! ## Elaborated forms -/

variable {t : Tables} {V : View}

mutual

/-- An expression that has a type has an elaborated form. -/
theorem HasType.exists_elaborated : ∀ {e : Expr} {ty : Ty}, e.HasType V ty →
    ∃ e' : Expr, e'.erase = e.erase ∧ e'.Elaborated V ty
  | .binary n op _ _, _, .arith hop hl hr _ => by
    obtain ⟨left, hle, hl⟩ := HasType.exists_elaborated hl
    obtain ⟨right, hre, hr⟩ := HasType.exists_elaborated hr
    exact ⟨.binary ⟨n.line, some .int, none⟩ op left right, by simp [erase, hle, hre, Note.erase],
      .arith hop hl hr ⟨rfl, rfl⟩⟩
  | .binary n _ _ _, _, .and hl hr _ => by
    obtain ⟨left, hle, hl⟩ := HasType.exists_elaborated hl
    obtain ⟨right, hre, hr⟩ := HasType.exists_elaborated hr
    exact ⟨.binary ⟨n.line, some .bool, none⟩ .and left right,
      by simp [erase, hle, hre, Note.erase], .and hl hr ⟨rfl, rfl⟩⟩
  | .binary n op _ _, _, .compare hop hl hr _ => by
    obtain ⟨left, hle, hl⟩ := HasType.exists_elaborated hl
    obtain ⟨right, hre, hr⟩ := HasType.exists_elaborated hr
    exact ⟨.binary ⟨n.line, some .bool, none⟩ op left right,
      by simp [erase, hle, hre, Note.erase], .compare hop hl hr ⟨rfl, rfl⟩⟩
  | .binary n op _ _, _, .equate hop hty hl hr _ => by
    obtain ⟨left, hle, hl⟩ := HasType.exists_elaborated hl
    obtain ⟨right, hre, hr⟩ := HasType.exists_elaborated hr
    exact ⟨.binary ⟨n.line, some .bool, none⟩ op left right,
      by simp [erase, hle, hre, Note.erase], .equate hop hty hl hr ⟨rfl, rfl⟩⟩
  | .unary n _ _, _, .neg h _ => by
    obtain ⟨operand, he, h⟩ := HasType.exists_elaborated h
    exact ⟨.unary ⟨n.line, some .int, none⟩ .neg operand, by simp [erase, he, Note.erase],
      .neg h ⟨rfl, rfl⟩⟩
  | .unary n _ _, _, .not h _ => by
    obtain ⟨operand, he, h⟩ := HasType.exists_elaborated h
    exact ⟨.unary ⟨n.line, some .bool, none⟩ .not operand, by simp [erase, he, Note.erase],
      .not h ⟨rfl, rfl⟩⟩
  | .methodCall n _ method _, ty, .methodCall hr hm ha _ => by
    obtain ⟨receiver, hre, hr⟩ := HasType.exists_elaborated hr
    obtain ⟨args, hae, ha⟩ := Fit.exists_elaborated ha
    exact ⟨.methodCall ⟨n.line, some ty, some _⟩ receiver method args,
      by simp [erase, hre, hae, Note.erase], .methodCall hr hm ha ⟨rfl, rfl⟩⟩
  | .selfCall n method _, ty, .selfCall hm ha _ => by
    obtain ⟨args, hae, ha⟩ := Fit.exists_elaborated ha
    exact ⟨.selfCall ⟨n.line, some ty, some _⟩ method args,
      by simp [erase, hae, Note.erase], .selfCall hm ha ⟨rfl, rfl⟩⟩
  | .var n name, ty, .var hv hs _ =>
    ⟨.var ⟨n.line, some ty, none⟩ name, rfl, .var hv hs ⟨rfl, rfl⟩⟩
  | .num n value, _, .num _ => ⟨.num ⟨n.line, some .int, none⟩ value, rfl, .num ⟨rfl, rfl⟩⟩
  | .bool n value, _, .bool _ => ⟨.bool ⟨n.line, some .bool, none⟩ value, rfl, .bool ⟨rfl, rfl⟩⟩
  | .nothing n, _, .nothing _ => ⟨.nothing ⟨n.line, some .nothing, none⟩, rfl, .nothing ⟨rfl, rfl⟩⟩
  | .new n cls, _, .new hc _ =>
    ⟨.new ⟨n.line, some (.object cls), none⟩ cls, rfl, .new hc ⟨rfl, rfl⟩⟩

/-- Arguments that fit have elaborated forms that fit. -/
theorem Fit.exists_elaborated : ∀ {args : List Expr} {params : List Ty},
    Fit (fun _ _ _ => True) V args params →
    ∃ args' : List Expr, eraseAll args' = eraseAll args ∧ Fit Note.Records V args' params
  | _, _, .nil => ⟨[], rfl, .nil⟩
  | _, _, .cons he ha hr => by
    obtain ⟨e', hee, he⟩ := HasType.exists_elaborated he
    obtain ⟨rest', hre, hr⟩ := Fit.exists_elaborated hr
    exact ⟨e' :: rest', by simp [eraseAll, hee, hre], .cons he ha hr⟩

end

/-! ## Operators -/

/-- The rules of the operators say what the table of operators says. -/
theorem Derives.of_resultType {mark : Mark} {n : Note} {op : BinaryOp} {left right : Expr}
    {a b ty : Ty} (hl : left.Derives mark V a) (hr : right.Derives mark V b)
    (hop : op.resultType a b = some ty) (hn : mark n ty none) :
    (binary n op left right).Derives mark V ty := by
  unfold BinaryOp.resultType at hop
  split at hop
  · next h =>
    obtain ⟨rfl, hmem⟩ := h
    cases hop
    cases op with
    | add | sub | mul | div =>
      obtain rfl := List.mem_singleton.mp hmem
      exact .arith (by simp) hl hr hn
    | and =>
      obtain rfl := List.mem_singleton.mp hmem
      exact .and hl hr hn
    | lessThan | lessEqual =>
      obtain rfl := List.mem_singleton.mp hmem
      exact .compare (by simp) hl hr hn
    | equal | notEqual => exact .equate (by simp) hmem hl hr hn
  · cases hop

/-- A binary node is concluded once both operands are checked and fit. -/
theorem check_binary_yields {ctx : Context} {n : Note} {op : BinaryOp}
    {left right left' right' : Expr} {a b ty : Ty} (hl : (left.check ctx).Yields left' a)
    (hr : (right.check ctx).Yields right' b) (hop : op.resultType a b = some ty)
    (hn : n.Records ty none) :
    ((binary n.erase op left right).check ctx).Yields (binary n op left' right') ty := by
  rw [check, Outcome.andThen_yields]
  refine ⟨left', a, hl, ?_⟩
  rw [Outcome.andThen_yields]
  refine ⟨right', b, hr, ?_⟩
  rw [hop]
  exact conclude_of_records (e := binary n op left' right') hn

/-- A unary node is concluded once its operand is checked and fits. -/
theorem check_unary_yields {ctx : Context} {n : Note} {op : UnaryOp} {operand operand' : Expr}
    (h : (operand.check ctx).Yields operand' op.operandType)
    (hn : n.Records op.operandType none) :
    ((unary n.erase op operand).check ctx).Yields (unary n op operand') op.operandType := by
  rw [check, Outcome.andThen_yields]
  refine ⟨operand', op.operandType, h, ?_⟩
  rw [if_pos rfl]
  exact conclude_of_records (e := unary n op operand') hn

/-- A storable type is one that a variable can have. -/
theorem isVariable_iff {ty : Ty} : ty.isVariable = true ↔ ty.Storable := by
  cases ty <;> simp [Ty.isVariable, Ty.Storable]

/-! ## Checking an elaborated form -/

mutual

/-- Checking the bare form of an elaborated expression yields the expression. -/
theorem Elaborated.check_yields (ht : t.InMethod V) : ∀ {e : Expr} {ty : Ty}, e.Elaborated V ty →
    (e.erase.check { tables := t, cls := V.cls }).Yields e ty
  | _, _, .arith hop hl hr hn => by
    refine check_binary_yields (Elaborated.check_yields ht hl) (Elaborated.check_yields ht hr) ?_ hn
    simp only [List.mem_cons, List.not_mem_nil, or_false] at hop
    rcases hop with rfl | rfl | rfl | rfl <;> rfl
  | _, _, .and hl hr hn =>
    check_binary_yields (Elaborated.check_yields ht hl) (Elaborated.check_yields ht hr) rfl hn
  | _, _, .compare hop hl hr hn => by
    refine check_binary_yields (Elaborated.check_yields ht hl) (Elaborated.check_yields ht hr) ?_ hn
    simp only [List.mem_cons, List.not_mem_nil, or_false] at hop
    rcases hop with rfl | rfl <;> rfl
  | _, _, .equate hop hty hl hr hn => by
    refine check_binary_yields (Elaborated.check_yields ht hl) (Elaborated.check_yields ht hr) ?_ hn
    simp only [List.mem_cons, List.not_mem_nil, or_false] at hop hty
    rcases hop with rfl | rfl <;> rcases hty with rfl | rfl <;> rfl
  | _, _, .neg h hn => check_unary_yields (Elaborated.check_yields ht h) hn
  | _, _, .not h hn => check_unary_yields (Elaborated.check_yields ht h) hn
  | .methodCall n receiver method args, ty, .methodCall hr hm ha hn => by
    obtain ⟨tys, hargs, hfit⟩ := Fit.checkAll_yields ht ha
    rw [erase, check, Outcome.andThen_yields]
    refine ⟨receiver, _, Elaborated.check_yields ht hr, ?_⟩
    rw [Outcome.andThen_yields]
    refine ⟨args, tys, hargs, ?_⟩
    rw [concludeCall, ht.callType_ok_iff.mpr ⟨_, hm, hfit⟩]
    exact conclude_of_records (e := methodCall n receiver method args) hn
  | .selfCall n method args, ty, .selfCall hm ha hn => by
    obtain ⟨tys, hargs, hfit⟩ := Fit.checkAll_yields ht ha
    rw [erase, check, Outcome.andThen_yields]
    refine ⟨args, tys, hargs, ?_⟩
    rw [concludeCall, ht.callType_ok_iff.mpr ⟨_, hm, hfit⟩]
    exact conclude_of_records (e := selfCall n method args) hn
  | .var n name, ty, .var hv hs hn => by
    rw [erase, check, concludeVar, ht.variableType_eq, hv]
    simp only [isVariable_iff.mpr hs, if_true]
    exact conclude_of_records (e := var n name) hn
  | .num n value, _, .num hn => conclude_of_records (e := num n value) hn
  | .bool n value, _, .bool hn => conclude_of_records (e := bool n value) hn
  | .nothing n, _, .nothing hn => conclude_of_records (e := nothing n) hn
  | .new n cls, _, .new hc hn => by
    rw [erase, check, if_pos ((ht.contains_iff cls).mpr hc)]
    exact conclude_of_records (e := new n cls) hn

/-- Checking the bare forms of arguments that fit yields the arguments. -/
theorem Fit.checkAll_yields (ht : t.InMethod V) : ∀ {args : List Expr} {params : List Ty},
    Fit Note.Records V args params →
    ∃ tys, (checkAll { tables := t, cls := V.cls } (eraseAll args)).Yields args tys ∧
      List.Forall₂ V.known.Assignable tys params
  | _, _, .nil => ⟨[], by simp [eraseAll, checkAll], .nil⟩
  | e :: rest, _, .cons he ha hr => by
    obtain ⟨tys, hrest, hfit⟩ := Fit.checkAll_yields ht hr
    refine ⟨_ :: tys, ?_, .cons ha hfit⟩
    rw [eraseAll, checkAll, Outcome.andThen_yields]
    refine ⟨e, _, Elaborated.check_yields ht he, ?_⟩
    rw [Outcome.andThen_yields]
    exact ⟨rest, tys, hrest, by simp⟩

end

/-! ## What checking yields -/

/-- Concluding a bare node records exactly its type and its callee. -/
theorem records_of_conclude {e e' : Expr} {callee : Option String} {ty ty' : Ty}
    (hb : e.note.erase = e.note) (h : (e.conclude callee ty).Yields e' ty') :
    ty = ty' ∧ ∃ n : Note, e' = e.withNote n ∧ n.erase = e.note ∧ n.Records ty' callee := by
  obtain ⟨rfl, rfl⟩ := (conclude_yields_iff hb).mp h
  exact ⟨rfl, _, rfl, hb, rfl, rfl⟩

/-- What a node is concluded with if its operands fit. -/
theorem records_of_concludeIf {e e' : Expr} {fits : Option Ty} {ty : Ty}
    (hb : e.note.erase = e.note) (h : (e.concludeIf fits).Yields e' ty) :
    fits = some ty ∧ ∃ n : Note, e' = e.withNote n ∧ n.erase = e.note ∧ n.Records ty none := by
  unfold concludeIf at h
  split at h
  · obtain ⟨rfl, hn⟩ := records_of_conclude hb h
    exact ⟨rfl, hn⟩
  · exact absurd h Outcome.violated_yields

/-- What a variable is concluded with. -/
theorem records_of_concludeVar (ht : t.InMethod V) {e e' : Expr} {name : String} {ty : Ty}
    (hb : e.note.erase = e.note)
    (h : (e.concludeVar { tables := t, cls := V.cls } name).Yields e' ty) :
    V.varTy? name = some ty ∧ ty.Storable ∧
      ∃ n : Note, e' = e.withNote n ∧ n.erase = e.note ∧ n.Records ty none := by
  rw [concludeVar, ht.variableType_eq] at h
  cases hv : V.varTy? name with
  | none =>
    rw [hv] at h
    exact absurd h Outcome.violated_yields
  | some ty₀ =>
    simp only [hv] at h
    split at h
    · next hs =>
      obtain ⟨rfl, hn⟩ := records_of_conclude hb h
      exact ⟨rfl, isVariable_iff.mp hs, hn⟩
    · exact absurd h Outcome.violated_yields

/-- What a call is concluded with. -/
theorem records_of_concludeCall (ht : t.InMethod V) {e e' : Expr} {cls method : String}
    {args : List Ty} {ty : Ty} (hb : e.note.erase = e.note)
    (h : (e.concludeCall { tables := t, cls := V.cls } cls method args).Yields e' ty) :
    ∃ owner params, V.known.resolve cls method = some (owner, .func ty params) ∧
      List.Forall₂ V.known.Assignable args params ∧
      ∃ n : Note, e' = e.withNote n ∧ n.erase = e.note ∧ n.Records ty (some owner) := by
  unfold concludeCall at h
  split at h
  · next owner hcall =>
    obtain ⟨rfl, hn⟩ := records_of_conclude hb h
    obtain ⟨params, hres, hargs⟩ := ht.callType_ok_iff.mp hcall
    exact ⟨owner, params, hres, hargs, hn⟩
  · exact absurd h Outcome.violated_yields

/-- Elaborated arguments whose types may stand for the parameters fit them. -/
theorem Fit.of_forall₂ {mark : Mark} {args : List Expr} {tys params : List Ty}
    (he : List.Forall₂ (Derives mark V) args tys)
    (ha : List.Forall₂ V.known.Assignable tys params) : Fit mark V args params := by
  induction he generalizing params with
  | nil =>
    cases ha
    exact .nil
  | cons he _ ih =>
    cases ha with
    | cons ha hrest => exact .cons he ha (ih hrest)

mutual

/-- What checking a bare expression yields is an elaborated form of it. -/
theorem elaborated_of_check (ht : t.InMethod V) : ∀ {e e' : Expr} {ty : Ty}, e.erase = e →
    (e.check { tables := t, cls := V.cls }).Yields e' ty → e'.erase = e ∧ e'.Elaborated V ty
  | .binary n op left right, e', ty, hb, h => by
    simp only [erase, binary.injEq, true_and] at hb
    obtain ⟨hn, hbl, hbr⟩ := hb
    obtain ⟨left', a, hl, h⟩ := Outcome.andThen_yields.mp (check.eq_1 .. ▸ h)
    obtain ⟨right', b, hr, h⟩ := Outcome.andThen_yields.mp h
    obtain ⟨hel, hl⟩ := elaborated_of_check ht hbl hl
    obtain ⟨her, hr⟩ := elaborated_of_check ht hbr hr
    obtain ⟨hop, m, rfl, hm, hrec⟩ :=
      records_of_concludeIf (e := binary n op left' right') hn h
    refine ⟨?_, .of_resultType hl hr hop hrec⟩
    rw [withNote, erase, hm, hel, her, note]
  | .unary n op operand, e', ty, hb, h => by
    simp only [erase, unary.injEq, true_and] at hb
    obtain ⟨hn, hb⟩ := hb
    obtain ⟨operand', a, ho, h⟩ := Outcome.andThen_yields.mp (check.eq_2 .. ▸ h)
    obtain ⟨heo, ho⟩ := elaborated_of_check ht hb ho
    obtain ⟨hop, m, rfl, hm, hrec⟩ := records_of_concludeIf (e := unary n op operand') hn h
    refine ⟨by rw [withNote, erase, hm, heo, note], ?_⟩
    split at hop
    · next ha =>
      obtain rfl : a = ty := Option.some.inj hop
      subst ha
      cases op with
      | neg => exact .neg ho hrec
      | not => exact .not ho hrec
    · cases hop
  | .methodCall n receiver method args, e', ty, hb, h => by
    simp only [erase, methodCall.injEq, true_and] at hb
    obtain ⟨hn, hbr, hba⟩ := hb
    obtain ⟨receiver', rty, hr, h⟩ := Outcome.andThen_yields.mp (check.eq_3 .. ▸ h)
    obtain ⟨her, hr⟩ := elaborated_of_check ht hbr hr
    cases rty with
    | object cls =>
      obtain ⟨args', tys, ha, h⟩ := Outcome.andThen_yields.mp h
      obtain ⟨hea, ha⟩ := elaborated_of_checkAll ht hba ha
      obtain ⟨owner, params, hres, hfit, m, rfl, hm, hrec⟩ :=
        records_of_concludeCall ht (e := methodCall n receiver' method args') hn h
      refine ⟨by rw [withNote, erase, hm, her, hea, note], ?_⟩
      exact .methodCall hr hres (.of_forall₂ ha hfit) hrec
    | _ => exact absurd h Outcome.violated_yields
  | .selfCall n method args, e', ty, hb, h => by
    simp only [erase, selfCall.injEq, true_and] at hb
    obtain ⟨hn, hba⟩ := hb
    obtain ⟨args', tys, ha, h⟩ := Outcome.andThen_yields.mp (check.eq_4 .. ▸ h)
    obtain ⟨hea, ha⟩ := elaborated_of_checkAll ht hba ha
    obtain ⟨owner, params, hres, hfit, m, rfl, hm, hrec⟩ :=
      records_of_concludeCall ht (e := selfCall n method args') hn h
    refine ⟨by rw [withNote, erase, hm, hea, note], ?_⟩
    exact .selfCall hres (.of_forall₂ ha hfit) hrec
  | .var n name, e', ty, hb, h => by
    simp only [erase, var.injEq, and_true] at hb
    obtain ⟨hv, hs, m, rfl, hm, hrec⟩ := records_of_concludeVar ht (e := var n name) hb h
    exact ⟨by rw [withNote, erase, hm, note], .var hv hs hrec⟩
  | .num n value, e', ty, hb, h => by
    simp only [erase, num.injEq, and_true] at hb
    obtain ⟨rfl, m, rfl, hm, hrec⟩ := records_of_conclude (e := num n value) hb h
    exact ⟨by rw [withNote, erase, hm, note], .num hrec⟩
  | .bool n value, e', ty, hb, h => by
    simp only [erase, bool.injEq, and_true] at hb
    obtain ⟨rfl, m, rfl, hm, hrec⟩ := records_of_conclude (e := bool n value) hb h
    exact ⟨by rw [withNote, erase, hm, note], .bool hrec⟩
  | .nothing n, e', ty, hb, h => by
    simp only [erase, nothing.injEq] at hb
    obtain ⟨rfl, m, rfl, hm, hrec⟩ := records_of_conclude (e := nothing n) hb h
    exact ⟨by rw [withNote, erase, hm, note], .nothing hrec⟩
  | .new n cls, e', ty, hb, h => by
    simp only [erase, new.injEq, and_true] at hb
    rw [check] at h
    split at h
    · next hc =>
      obtain ⟨rfl, m, rfl, hm, hrec⟩ := records_of_conclude (e := new n cls) hb h
      exact ⟨by rw [withNote, erase, hm, note], .new ((ht.contains_iff cls).mp hc) hrec⟩
    · exact absurd h Outcome.violated_yields

/-- What checking bare arguments yields is an elaborated form of each. -/
theorem elaborated_of_checkAll (ht : t.InMethod V) : ∀ {args args' : List Expr} {tys : List Ty},
    eraseAll args = args → (checkAll { tables := t, cls := V.cls } args).Yields args' tys →
    eraseAll args' = args ∧ List.Forall₂ (Elaborated V) args' tys
  | [], _, _, _, h => by
    obtain ⟨rfl, rfl⟩ := Outcome.done_yields.mp (checkAll.eq_1 .. ▸ h)
    exact ⟨rfl, .nil⟩
  | e :: rest, _, _, hb, h => by
    simp only [eraseAll, List.cons.injEq] at hb
    obtain ⟨e', ty, he, h⟩ := Outcome.andThen_yields.mp (checkAll.eq_2 .. ▸ h)
    obtain ⟨rest', tys, hr, h⟩ := Outcome.andThen_yields.mp h
    obtain ⟨rfl, rfl⟩ := Outcome.done_yields.mp h
    obtain ⟨hee, he⟩ := elaborated_of_check ht hb.1 he
    obtain ⟨her, hr⟩ := elaborated_of_checkAll ht hb.2 hr
    exact ⟨by rw [eraseAll, hee, her], .cons he hr⟩

end

/-- Checking a bare expression yields exactly its elaborated forms. -/
theorem check_yields_iff (ht : t.InMethod V) {e e' : Expr} {ty : Ty} (hb : e.erase = e) :
    (e.check { tables := t, cls := V.cls }).Yields e' ty ↔ e'.erase = e ∧ e'.Elaborated V ty := by
  constructor
  · exact elaborated_of_check ht hb
  · rintro ⟨rfl, he⟩
    exact he.check_yields ht

end Expr

end ClassLang
