import ClassLang.Proofs.Grammar.Identifiers
import ClassLang.Proofs.Typing.Recorded

/-! # Checking keeps its contract

    Whatever a bare tree is, checking it meets no fault: it stops at a
    violation or it goes through.  And it tells of nothing but what the tree
    spells.

    * **`Outcome.Keeps`** is the contract of one check, with a lemma for each
      way in which an outcome is built.
    * **`Expr.check_keeps`**, **`Stmt.check_keeps`**, **`Method.check_keeps`** and
      **`ClassDecl.check_keeps`**: each part of a bare tree keeps it.
    * **`Program.check_keeps`**: so does a bare program. -/

namespace ClassLang

/-! ## What is told -/

namespace Ty

mutual

/-- The identifiers of a type. -/
def identifiers : Ty → List String
  | int | bool | nothing => []
  | object cls => [cls]
  | func result params => result.identifiers ++ identifiersAll params

/-- The identifiers of types. -/
def identifiersAll : List Ty → List String
  | [] => []
  | ty :: rest => ty.identifiers ++ identifiersAll rest

end

theorem identifiers_ofName (name : TypeName) : (ofName name).identifiers = name.identifiers := by
  cases name <;> rfl

theorem identifiersAll_eq_flatMap (tys : List Ty) :
    identifiersAll tys = tys.flatMap identifiers := by
  induction tys with
  | nil => rfl
  | cons ty rest ih => rw [identifiersAll, ih, List.flatMap_cons]

end Ty

/-- The identifiers of which an event tells. -/
def Event.identifiers : Event → List String
  | registeredClass cls parent => cls :: parent.toList
  | checkedMethod cls method signature => cls :: method :: signature.identifiers
  | typedExpression _ ty => ty.identifiers
  | wellTyped _ | generatedAssembly _ => []
  | parameterSlot label name _ | localSlot label name _ => [label, name]
  | fieldSlot cls name _ _ => [cls, name]
  | classLayout cls _ => [cls]
  | generatingMethod label _ _ => [label]

/-! ## The contract -/

/-- No fault stops the check, it tells of these names only, and a result is as
    described. -/
structure Outcome.Keeps (o : Outcome τ α) (names : List String) (post : α → Prop) : Prop where
  journal : ∀ e ∈ o.journal, e.identifiers ⊆ names
  faultless : ∀ f, o.result ≠ .error (.fault f)
  result : ∀ a, o.result = .ok a → post a

namespace Outcome

variable {τ σ α β : Type} {names : List String} {post : α → Prop} {post' : β → Prop}

theorem keeps_done {tree : τ} {a : α} (h : post a) : (done tree a).Keeps names post where
  journal := by simp [done]
  faultless := by simp [done]
  result b hb := by
    cases hb
    exact h

theorem keeps_violation {tree : τ} {v : Violation} :
    (stop tree (.violation v) : Outcome τ α).Keeps names post where
  journal := by simp [stop]
  faultless := by simp [stop]
  result := by simp [stop]

theorem keeps_violated {tree : τ} {rule : Rule} {line : Nat} :
    (violated tree rule line : Outcome τ α).Keeps names post := keeps_violation

theorem Keeps.after {o : Outcome τ α} {event : Event} (he : event.identifiers ⊆ names)
    (h : o.Keeps names post) : (after event o).Keeps names post where
  journal e hmem := by
    rcases List.mem_cons.mp hmem with rfl | hmem
    · exact he
    · exact h.journal e hmem
  faultless := h.faultless
  result := h.result

/-- A sequence keeps the contract if both parts do. -/
theorem Keeps.andThen {o : Outcome τ α} {unfinished : τ → σ} {next : τ → α → Outcome σ β}
    (h : o.Keeps names post) (hnext : ∀ tree a, post a → (next tree a).Keeps names post') :
    (o.andThen unfinished next).Keeps names post' := by
  obtain ⟨tree, journal, result⟩ := o
  cases result with
  | error halt =>
    refine ⟨h.journal, fun f hf => ?_, fun b hb => ?_⟩
    · cases hf
      exact h.faultless f rfl
    · cases hb
  | ok a =>
    have hrest := hnext tree a (h.result a rfl)
    refine ⟨fun e hmem => ?_, hrest.faultless, hrest.result⟩
    rcases List.mem_append.mp hmem with hmem | hmem
    · exact h.journal e hmem
    · exact hrest.journal e hmem

end Outcome

/-! ## Scopes that bind spelled types -/

/-- All types that the scopes bind are made of these names. -/
def ScopeTree.Within (t : ScopeTree) (names : List String) : Prop :=
  ∀ number x ty, t.lookupIn number x = some ty → ty.identifiers ⊆ names

namespace ScopeTree.Within

variable {t u : ScopeTree} {names : List String}

theorem empty : ScopeTree.Within {} names := by
  intro number x ty h
  cases number <;> simp [lookupIn, scope?, Scope.find?] at h

theorem openScope (h : t.Within names) : t.openScope.Within names := by
  intro number x ty hx
  rw [lookupIn_openScope] at hx
  exact h number x ty hx

theorem insertIn {target : Nat} {name : String} {ty : Ty} (h : t.Within names)
    (hty : ty.identifiers ⊆ names) (hu : t.insertIn target name ty = some u) :
    u.Within names ∧ u.enclosing = t.enclosing := by
  constructor
  · intro number x ty' hx
    rw [lookupIn_insertIn hu] at hx
    split at hx
    · cases hx
      exact hty
    · exact h number x ty' hx
  · unfold ScopeTree.insertIn at hu
    split at hu
    · cases hu
    · cases hu
      rfl

theorem insertAll {bs : List (String × Ty)} (h : t.Within names)
    (hbs : ∀ b ∈ bs, b.2.identifiers ⊆ names) (hu : t.insertAll bs = some u) :
    u.Within names ∧ u.enclosing = t.enclosing := by
  induction bs generalizing t with
  | nil =>
    cases hu
    exact ⟨h, rfl⟩
  | cons b rest ih =>
    obtain ⟨v, hv, hu⟩ := Option.bind_eq_some_iff.mp hu
    obtain ⟨hwithin, henclosing⟩ := h.insertIn (hbs b List.mem_cons_self) hv
    rw [← henclosing]
    exact ih hwithin (fun b hb => hbs b (List.mem_cons_of_mem _ hb)) hu

theorem lookup {x : String} {ty : Ty} (h : t.Within names) (hx : t.lookup x = some ty) :
    ty.identifiers ⊆ names := by
  obtain ⟨number, _, hx⟩ := List.exists_of_findSome?_eq_some hx
  exact h number x ty hx

/-- A member that is resolved is bound in some scope. -/
theorem resolve {classes : Hierarchy} {cls x : String} {entry : ClassEntry} {ty : Ty}
    (h : t.Within names) (hx : classes.resolve t cls x = some (entry, ty)) :
    ty.identifiers ⊆ names := by
  obtain ⟨_, _, hx⟩ := List.exists_of_findSome?_eq_some hx
  obtain ⟨ty', hx, heq⟩ := Option.map_eq_some_iff.mp hx
  cases heq
  exact h entry.scope x ty hx

end ScopeTree.Within

namespace Tables

variable {t : Tables} {names : List String}

theorem variableType_within {cls x : String} {ty : Ty} (h : t.scopes.Within names)
    (hx : t.variableType cls x = some ty) : ty.identifiers ⊆ names := by
  unfold variableType at hx
  split at hx
  · next hlookup =>
    cases hx
    exact h.lookup hlookup
  · obtain ⟨found, hresolve, rfl⟩ := Option.map_eq_some_iff.mp hx
    exact h.resolve hresolve

theorem callType_within {cls method owner : String} {args : List Ty} {ty : Ty}
    (h : t.scopes.Within names) (hx : t.callType cls method args = .ok (ty, owner)) :
    ty.identifiers ⊆ names := by
  unfold callType at hx
  split at hx
  · cases hx
  · next hresolve =>
    -- the type of a call is the result of a signature that is bound
    have hsignature := h.resolve hresolve
    split at hx
    · cases hx
    · split at hx
      · cases hx
        exact (List.append_subset.mp hsignature).1
      · cases hx
  · cases hx

end Tables

/-! ## Expressions -/

namespace Expr

variable {ctx : Context} {names : List String}

/-- A node without attributes can be given its type and its callee. -/
theorem conclude_keeps {e : Expr} {callee : Option String} {ty : Ty} (hbare : e.note.erase = e.note)
    (hty : ty.identifiers ⊆ names) :
    (e.conclude callee ty).Keeps names fun ty => ty.identifiers ⊆ names := by
  rw [conclude_of_bare hbare]
  exact .after (o := .done _ ty) hty (Outcome.keeps_done hty)

theorem concludeIf_keeps {e : Expr} {fits : Option Ty} (hbare : e.note.erase = e.note)
    (hfits : ∀ ty ∈ fits, ty.identifiers ⊆ names) :
    (e.concludeIf fits).Keeps names fun ty => ty.identifiers ⊆ names := by
  unfold concludeIf
  split
  · exact conclude_keeps hbare (hfits _ rfl)
  · exact Outcome.keeps_violated

theorem concludeCall_keeps {e : Expr} {cls method : String} {args : List Ty}
    (hctx : ctx.tables.scopes.Within names) (hbare : e.note.erase = e.note) :
    (e.concludeCall ctx cls method args).Keeps names fun ty => ty.identifiers ⊆ names := by
  unfold concludeCall
  split
  · next hcall => exact conclude_keeps hbare (Tables.callType_within hctx hcall)
  · exact Outcome.keeps_violated

theorem concludeVar_keeps {e : Expr} {name : String} (hctx : ctx.tables.scopes.Within names)
    (hbare : e.note.erase = e.note) :
    (e.concludeVar ctx name).Keeps names fun ty => ty.identifiers ⊆ names := by
  unfold concludeVar
  split
  · exact Outcome.keeps_violated
  · next hvar =>
    split
    · exact conclude_keeps hbare (Tables.variableType_within hctx hvar)
    · exact Outcome.keeps_violated

mutual

/-- Checking a bare expression keeps the contract. -/
theorem check_keeps (hctx : ctx.tables.scopes.Within names) : ∀ {e : Expr}, e.erase = e →
    e.identifiers ⊆ names → (e.check ctx).Keeps names fun ty => ty.identifiers ⊆ names
  | .binary n op left right, hbare, hnames => by
    obtain ⟨hn, -, hl, hr⟩ := Expr.binary.inj hbare
    obtain ⟨hleft, hright⟩ := List.append_subset.mp hnames
    refine .andThen (check_keeps hctx hl hleft) fun left leftTy _ => ?_
    refine .andThen (check_keeps hctx hr hright) fun right rightTy _ => ?_
    -- no operator yields an object
    refine concludeIf_keeps hn fun ty hty => ?_
    unfold BinaryOp.resultType at hty
    split at hty
    · cases hty
      cases op <;> exact List.nil_subset _
    · cases hty
  | .unary n op operand, hbare, hnames => by
    obtain ⟨hn, -, ho⟩ := Expr.unary.inj hbare
    refine .andThen (check_keeps hctx ho hnames) fun operand ty hty => ?_
    refine concludeIf_keeps hn fun ty' hty' => ?_
    split at hty'
    · cases hty'
      exact hty
    · cases hty'
  | .methodCall n receiver method args, hbare, hnames => by
    obtain ⟨hn, hr, -, ha⟩ := Expr.methodCall.inj hbare
    obtain ⟨hreceiver, hnames⟩ := List.append_subset.mp hnames
    have hargs := (List.cons_subset.mp hnames).2
    refine .andThen (check_keeps hctx hr hreceiver) fun receiver ty _ => ?_
    cases ty with
    | object cls =>
      exact .andThen (checkAll_keeps hctx ha hargs) fun args argTys _ => concludeCall_keeps hctx hn
    | int | bool | nothing | func => exact Outcome.keeps_violated
  | .selfCall n method args, hbare, hnames => by
    obtain ⟨hn, -, ha⟩ := Expr.selfCall.inj hbare
    have hargs := (List.cons_subset.mp hnames).2
    exact .andThen (checkAll_keeps hctx ha hargs) fun args argTys _ => concludeCall_keeps hctx hn
  | .var n name, hbare, _ => concludeVar_keeps hctx (Expr.var.inj hbare).1
  | .num n value, hbare, _ => conclude_keeps (Expr.num.inj hbare).1 (List.nil_subset _)
  | .bool n value, hbare, _ => conclude_keeps (Expr.bool.inj hbare).1 (List.nil_subset _)
  | .nothing n, hbare, _ => conclude_keeps (Expr.nothing.inj hbare) (List.nil_subset _)
  | .new n cls, hbare, hnames => by
    unfold check
    split
    · exact conclude_keeps (Expr.new.inj hbare).1 hnames
    · exact Outcome.keeps_violated

/-- Checking bare arguments keeps the contract. -/
theorem checkAll_keeps (hctx : ctx.tables.scopes.Within names) : ∀ {es : List Expr},
    eraseAll es = es → identifiersAll es ⊆ names →
    (checkAll ctx es).Keeps names fun _ => True
  | [], _, _ => Outcome.keeps_done trivial
  | e :: rest, hbare, hnames => by
    obtain ⟨he, hrest⟩ := List.cons.inj hbare
    obtain ⟨hfirst, hnames⟩ := List.append_subset.mp hnames
    refine .andThen (check_keeps hctx he hfirst) fun e ty _ => ?_
    refine .andThen (checkAll_keeps hctx hrest hnames) fun rest tys _ => ?_
    exact Outcome.keeps_done trivial

end

end Expr

/-! ## Statements -/

namespace Stmt

variable {ctx : Context} {names : List String}

mutual

/-- Checking a bare statement keeps the contract. -/
theorem check_keeps (hctx : ctx.tables.scopes.Within names) : ∀ {s : Stmt}, s.erase = s →
    s.identifiers ⊆ names → (s.check ctx).Keeps names fun _ => True
  | .assign line name value, hbare, hnames => by
    have hvalue := (List.cons_subset.mp hnames).2
    unfold check
    refine .andThen (value.check_keeps hctx (Stmt.assign.inj hbare).2.2 hvalue) fun value ty _ => ?_
    split
    · exact Outcome.keeps_violated
    · split
      · exact Outcome.keeps_violated
      · exact Outcome.keeps_done trivial
  | .cond line test body, hbare, hnames => by
    obtain ⟨-, ht, hb⟩ := Stmt.cond.inj hbare
    obtain ⟨htest, hbody⟩ := List.append_subset.mp hnames
    unfold check
    refine .andThen (test.check_keeps hctx ht htest) fun test ty _ => ?_
    split
    · refine .andThen (checkAll_keeps hctx hb hbody) fun body _ _ => ?_
      exact Outcome.keeps_done trivial
    · exact Outcome.keeps_violated
  | .print line value, hbare, hnames => by
    unfold check
    refine .andThen (value.check_keeps hctx (Stmt.print.inj hbare).2 hnames) fun value ty _ => ?_
    split
    · exact Outcome.keeps_done trivial
    · exact Outcome.keeps_violated

/-- Checking bare statements keeps the contract. -/
theorem checkAll_keeps (hctx : ctx.tables.scopes.Within names) : ∀ {body : List Stmt},
    eraseAll body = body → identifiersAll body ⊆ names →
    (checkAll ctx body).Keeps names fun _ => True
  | [], _, _ => Outcome.keeps_done trivial
  | s :: rest, hbare, hnames => by
    obtain ⟨hs, hrest⟩ := List.cons.inj hbare
    obtain ⟨hfirst, hnames⟩ := List.append_subset.mp hnames
    refine .andThen (check_keeps hctx hs hfirst) fun s _ _ => ?_
    refine .andThen (checkAll_keeps hctx hrest hnames) fun rest _ _ => ?_
    exact Outcome.keeps_done trivial

end

end Stmt

/-! ## Methods -/

/-- The types of declared variables are spelled in their declarations. -/
theorem Declaration.identifiers_variables {decls : List Declaration} {names : List String}
    (h : decls.flatMap Declaration.identifiers ⊆ names) :
    ∀ b ∈ Declaration.variables decls, b.2.identifiers ⊆ names := by
  intro b hb
  obtain ⟨d, hd, hb⟩ := List.mem_flatMap.mp hb
  obtain ⟨name, _, rfl⟩ := List.mem_map.mp hb
  intro x hx
  rw [Ty.identifiers_ofName] at hx
  exact h (List.mem_flatMap.mpr ⟨d, hd, List.mem_append_left _ hx⟩)

namespace Method

variable {t : Tables} {names : List String} {m : Method}

/-- The identifiers of a signature are spelled in the method. -/
theorem identifiers_signature (m : Method) : m.signature.identifiers ⊆ m.identifiers := by
  intro x hx
  have hx : x ∈ (Ty.ofName m.result).identifiers ++
      Ty.identifiersAll (m.params.map (.ofName ·.ty)) := hx
  rw [Ty.identifiers_ofName, Ty.identifiersAll_eq_flatMap, List.flatMap_map] at hx
  simp only [identifiers, List.mem_append, List.mem_cons, List.mem_flatMap] at hx ⊢
  rcases hx with hx | ⟨p, hp, hx⟩
  · simp only [hx, true_or, or_true]
  · rw [Ty.identifiers_ofName] at hx
    have hparam : ∃ p ∈ m.params, x ∈ p.identifiers := ⟨p, hp, List.mem_append_left _ hx⟩
    simp only [hparam, true_or, or_true]

/-- The tables inside a method: its variables are bound in a scope inside that
    of the class. -/
theorem enter_within {u : Tables} (ht : t.scopes.Within names) (hm : m.identifiers ⊆ names)
    (hu : m.enter t = .ok u) :
    u.scopes.Within names ∧ u.scopes.enclosing = t.scopes.current :: t.scopes.enclosing := by
  obtain ⟨_, _, hu⟩ := except_bind_ok_iff.mp hu
  obtain ⟨scopes, hscopes, rfl⟩ := Tables.foldlM_inserts Tables.declare_inserts hu
  refine ht.openScope.insertAll (Declaration.identifiers_variables ?_) hscopes
  intro x hx
  rw [List.flatMap_append, List.flatMap_map] at hx
  apply hm
  simp only [identifiers, List.mem_append, List.mem_cons]
  rcases List.mem_append.mp hx with hx | hx
  · have hx : x ∈ m.params.flatMap Param.identifiers := hx
    simp only [hx, true_or, or_true]
  · simp only [hx, true_or, or_true]

/-- Publishing a method closes its scope. -/
theorem publish_keeps {cls : String} {parent : Nat} {outer : List Nat} (ht : t.scopes.Within names)
    (henclosing : t.scopes.enclosing = parent :: outer) (hcls : cls ∈ names)
    (hname : m.name ∈ names) (hsignature : m.signature.identifiers ⊆ names) :
    (m.publish cls t).Keeps names fun u => u.scopes.Within names ∧ u.scopes.enclosing = outer := by
  have hevent : (Event.checkedMethod cls m.name m.signature).identifiers ⊆ names :=
    List.cons_subset.mpr ⟨hcls, List.cons_subset.mpr ⟨hname, hsignature⟩⟩
  unfold publish
  apply Outcome.Keeps.after hevent
  simp only [ScopeTree.insertInParent, henclosing]
  cases hinsert : t.scopes.insertIn parent m.name m.signature with
  | none => exact Outcome.keeps_violated
  | some scopes =>
    obtain ⟨hwithin, hsame⟩ := ht.insertIn hsignature hinsert
    rw [henclosing] at hsame
    -- the scope is not the root, so that it can be closed
    simp only [Tables.closeScope, ScopeTree.closeScope, hsame]
    refine ⟨by simp, by simp, ?_⟩
    rintro _ ⟨⟩
    exact ⟨hwithin, rfl⟩

/-- Checking a bare method keeps the contract, and leaves its scope. -/
theorem check_keeps {cls : String} (ht : t.scopes.Within names) (hcls : cls ∈ names)
    (hbare : m.erase = m) (hm : m.identifiers ⊆ names) :
    (m.check cls t).Keeps names fun u =>
      u.scopes.Within names ∧ u.scopes.enclosing = t.scopes.enclosing := by
  obtain ⟨hfront, hvalue⟩ := List.append_subset.mp hm
  have hbody : Stmt.identifiersAll m.body ⊆ names := (List.append_subset.mp hfront).2
  have hname : m.name ∈ names := hm (by simp [identifiers])
  have hsignature : m.signature.identifiers ⊆ names :=
    List.Subset.trans m.identifiers_signature hm
  unfold check
  split
  · exact Outcome.keeps_violation
  · next inside henter =>
    obtain ⟨hinside, henclosing⟩ := enter_within ht hm henter
    unfold checkBody
    refine .andThen (Stmt.checkAll_keeps hinside (congrArg Method.body hbare) hbody) ?_
    intro body _ _
    refine .andThen (Expr.check_keeps hinside (congrArg Method.value hbare) hvalue) ?_
    intro value ty _
    dsimp only
    split
    -- the name and the signature do not depend on the annotated body
    · exact publish_keeps hinside henclosing hcls hname hsignature
    · exact Outcome.keeps_violated

/-- Checking bare methods keeps the contract. -/
theorem checkAll_keeps {cls : String} {methods : List Method} (ht : t.scopes.Within names)
    (hcls : cls ∈ names) (hbare : methods.map Method.erase = methods)
    (hm : methods.flatMap Method.identifiers ⊆ names) :
    (checkAll cls t methods).Keeps names fun u =>
      u.scopes.Within names ∧ u.scopes.enclosing = t.scopes.enclosing := by
  induction methods generalizing t with
  | nil => exact Outcome.keeps_done ⟨ht, rfl⟩
  | cons m rest ih =>
    obtain ⟨hfirst, hrest⟩ := List.cons.inj hbare
    rw [List.flatMap_cons] at hm
    obtain ⟨hnames, hm⟩ := List.append_subset.mp hm
    refine .andThen (check_keeps ht hcls hfirst hnames) fun m u hu => ?_
    rw [← hu.2]
    refine .andThen (ih hu.1 hrest hm) fun rest v hv => ?_
    exact Outcome.keeps_done hv

end Method

/-! ## Classes and programs -/

namespace ClassDecl

variable {t : Tables} {names : List String}

/-- Checking a bare class keeps the contract, and leaves its scope. -/
theorem check_keeps {index : Nat} {c : ClassDecl} (ht : t.scopes.Within names)
    (hbare : c.erase = c) (hc : c.identifiers ⊆ names) :
    (c.check index t).Keeps names fun u =>
      u.scopes.Within names ∧ u.scopes.enclosing = t.scopes.enclosing := by
  obtain ⟨hfront, hmethods⟩ := List.append_subset.mp hc
  obtain ⟨hheader, hfields⟩ := List.append_subset.mp hfront
  have hcls : c.name ∈ names := hc (by simp [identifiers])
  unfold check
  split
  · exact Outcome.keeps_violation
  · next registered hregister =>
    -- registering a class changes no scope
    have hscopes : registered.scopes = t.scopes.openScope := by
      unfold Tables.register at hregister
      split at hregister
      · cases hregister
      · split at hregister
        · cases hregister
        · cases hregister
          rfl
    apply Outcome.Keeps.after hheader
    unfold checkMembers
    split
    · exact Outcome.keeps_violation
    · next inside hinside =>
      obtain ⟨scopes, hinsert, rfl⟩ := Tables.foldlM_inserts Tables.declareField_inserts hinside
      rw [hscopes] at hinsert
      obtain ⟨hwithin, henclosing⟩ :=
        ht.openScope.insertAll (Declaration.identifiers_variables hfields) hinsert
      have hchecked : (Method.checkAll c.name ⟨scopes, registered.classes⟩ c.methods).Keeps names
          fun u => u.scopes.Within names ∧ u.scopes.enclosing = scopes.enclosing :=
        Method.checkAll_keeps hwithin hcls (congrArg ClassDecl.methods hbare) hmethods
      refine .andThen hchecked fun methods u hu => ?_
      -- the methods have left their scopes, and that of the class is open
      have hopen : u.scopes.enclosing = t.scopes.current :: t.scopes.enclosing :=
        hu.2.trans henclosing
      simp only [Tables.closeScope, ScopeTree.closeScope, hopen]
      refine ⟨by simp, by simp, ?_⟩
      rintro _ ⟨⟩
      exact ⟨hu.1, rfl⟩

/-- Checking bare classes keeps the contract. -/
theorem checkAll_keeps {index : Nat} {classes : List ClassDecl} (ht : t.scopes.Within names)
    (hbare : classes.map ClassDecl.erase = classes)
    (hc : classes.flatMap ClassDecl.identifiers ⊆ names) :
    (checkAll index t classes).Keeps names fun _ => True := by
  induction classes generalizing t index with
  | nil => exact Outcome.keeps_done trivial
  | cons c rest ih =>
    obtain ⟨hfirst, hrest⟩ := List.cons.inj hbare
    rw [List.flatMap_cons] at hc
    obtain ⟨hnames, hc⟩ := List.append_subset.mp hc
    refine .andThen (check_keeps ht hfirst hnames) fun c u hu => ?_
    refine .andThen (ih hu.1 hrest hc) fun rest v _ => ?_
    exact Outcome.keeps_done trivial

end ClassDecl

/-- Checking a bare program meets no fault, and tells of what it spells only. -/
theorem Program.check_keeps {p : Program} (hbare : p.erase = p) :
    p.check.Keeps p.identifiers fun _ => True := by
  have hclasses : (ClassDecl.checkAll 0 {} p.classes).Keeps p.identifiers fun _ => True :=
    ClassDecl.checkAll_keeps .empty (congrArg Program.classes hbare) (List.Subset.refl _)
  refine .andThen hclasses fun classes t _ => ?_
  dsimp only
  split
  · exact Outcome.keeps_violation
  · exact Outcome.keeps_done trivial

end ClassLang
