import ClassLang.Proofs.Meaning.Typed

/-! # Runs of typed trees

    A tree that follows the rules of typing is never stuck.

    * **`Safe`**: a run gives a result of some kind, or meets a trouble that
      the rules do not exclude.
    * **`Calls.Sound`** is what is demanded of calls.
    * **`Expr.eval_safe`**, **`Stmt.exec_safe`** and **`Method.run_safe`**:
      values are of the types that the rules give, and stores stay typed. -/

namespace ClassLang

/-! ## Safe runs -/

/-- The run gives a result of this kind, or a trouble other than being stuck. -/
def Safe {α : Type} (Q : α → Store → Prop) : Except Trouble (α × Store) → Prop
  | .ok (a, σ) => Q a σ
  | .error t => t ≠ .stuck

section safe

variable {α β : Type} {Q : α → Store → Prop} {R : β → Store → Prop} {σ : Store}

theorem Safe.bind {x : Eval α} {f : α → Eval β} (hx : Safe Q (x σ))
    (hf : ∀ a σ', Q a σ' → Safe R (f a σ')) : Safe R ((x >>= f) σ) := by
  have hbind : (x >>= f) σ = (x σ) >>= fun r => f r.1 r.2 := rfl
  rw [hbind]
  cases hr : x σ with
  | error t =>
    rw [hr] at hx
    exact hx
  | ok r =>
    rw [hr] at hx
    exact hf r.1 r.2 hx

/-- A step that leaves the store alone. -/
theorem Safe.lift {x : Except Trouble α} (h : ∀ a, x = .ok a → Q a σ) (hne : x ≠ .error .stuck) :
    Safe Q ((liftM x : Eval α) σ) := by
  cases hx : x with
  | error t =>
    rw [hx] at hne
    exact fun heq => hne (by rw [heq])
  | ok a => exact h a hx

theorem Safe.weaken {Q' : α → Store → Prop} {x : Except Trouble (α × Store)} (h : Safe Q x)
    (hQ : ∀ a σ', Q a σ' → Q' a σ') : Safe Q' x := by
  cases x with
  | error t => exact h
  | ok r => exact hQ r.1 r.2 h

theorem Safe.of_ok {x : Except Trouble (α × Store)} (h : Safe Q x) {a : α} {σ' : Store}
    (hx : x = .ok (a, σ')) : Q a σ' := by
  rw [hx] at h
  exact h

end safe

/-! ## What runs give -/

/-- A value of this type, and a store that grew. -/
def Gives (known : Known) (σ : Store) (ty : Ty) (v : Value) (σ' : Store) : Prop :=
  σ.Grows known σ' ∧ v.Of known σ'.roots ty

/-- Values of these types, and a store that grew. -/
def GivesAll (known : Known) (σ : Store) (params : List Ty) (args : List Value) (σ' : Store) :
    Prop :=
  σ.Grows known σ' ∧ List.Forall₂ (Value.Of known σ'.roots) args params

/-- The calls of a method give values of its result type. -/
def Calls.Sound (known : Known) (calls : Calls) (owner method : String) (params : List Ty)
    (result : Ty) : Prop :=
  ∀ σ self args, σ.Typed known → (Value.object self).Of known σ.roots (.object owner) →
    List.Forall₂ (Value.Of known σ.roots) args params →
    Safe (Gives known σ result) (calls owner method self args σ)

/-- All calls that a view can resolve are sound. -/
def View.CallsSound (V : View) (known : Known) (calls : Calls) : Prop :=
  ∀ cls method owner result params,
    V.known.resolve cls method = some (owner, .func result params) →
    calls.Sound known owner method params result

variable {known : Known} {V : View} {calls : Calls} {mark : Mark} {ρ : Env} {σ : Store}

theorem forall₂_mono {args : List Value} {params : List Ty} {roots roots' : List String}
    (h : List.Forall₂ (Value.Of known roots) args params) (hr : roots <+: roots') :
    List.Forall₂ (Value.Of known roots') args params :=
  h.imp fun _ _ hv => hv.mono hr

/-! ## Operators -/

/-- The operands that an operator takes. -/
theorem BinaryOp.apply_arith {op : BinaryOp} (hop : op ∈ [BinaryOp.add, .sub, .mul, .div])
    (a b : BitVec 32) : op.apply (.int a) (.int b) = .error .division ∨
      ∃ w, op.apply (.int a) (.int b) = .ok (.int w) := by
  simp only [List.mem_cons, List.not_mem_nil, or_false] at hop
  rcases hop with rfl | rfl | rfl | rfl
  · exact Or.inr ⟨_, rfl⟩
  · exact Or.inr ⟨_, rfl⟩
  · exact Or.inr ⟨_, rfl⟩
  · by_cases hd : b = 0 ∨ a = leastInt ∧ b = -1
    · exact Or.inl (if_pos hd)
    · exact Or.inr ⟨_, if_neg hd⟩

theorem BinaryOp.apply_compare {op : BinaryOp} (hop : op ∈ [BinaryOp.lessThan, .lessEqual])
    (a b : BitVec 32) : ∃ c, op.apply (.int a) (.int b) = .ok (.bool c) := by
  simp only [List.mem_cons, List.not_mem_nil, or_false] at hop
  rcases hop with rfl | rfl <;> exact ⟨_, rfl⟩

theorem BinaryOp.apply_equate {op : BinaryOp} (hop : op ∈ [BinaryOp.equal, .notEqual])
    {ty : Ty} (hty : ty ∈ [Ty.int, .bool]) {roots : List String} {a b : Value}
    (ha : a.Of known roots ty) (hb : b.Of known roots ty) :
    ∃ c, op.apply a b = .ok (.bool c) := by
  simp only [List.mem_cons, List.not_mem_nil, or_false] at hop hty
  rcases hty with rfl | rfl <;> cases ha <;> cases hb <;> rcases hop with rfl | rfl <;>
    exact ⟨_, rfl⟩

/-! ## Variables -/

namespace View

/-- Reading a variable gives a value of its type. -/
theorem read_safe (hk : known.Regular) (hV : V.Within known) (hρ : ρ.Typed known σ.roots V)
    (hσ : σ.Typed known) {x : String} {ty : Ty} (hx : V.varTy? x = some ty)
    (hs : ty.Storable) : Safe (Gives known σ ty) (V.read ρ x σ) := by
  have hp : ty.Plain := by
    cases ty with
    | func => exact hs.elim
    | _ => trivial
  unfold View.varTy? at hx
  unfold read
  cases hv : V.vars.lookup x with
  | some ty' =>
    rw [hv] at hx
    cases hx
    cases hval : ρ.vars x with
    | none => exact fun h => by cases h
    | some v => exact ⟨.refl hσ, hρ.vars hv hval⟩
  | none =>
    rw [hv] at hx
    obtain ⟨⟨owner, ty'⟩, hr, rfl⟩ := Option.map_eq_some_iff.mp hx
    obtain ⟨root, k, s, hroot, hf, hty, _, hleads⟩ := hρ.field hk hV hr hp
    rw [hr]
    have hvalue : ∀ v, σ.field ρ.self owner x ty' = some v → v.Of known σ.roots ty' := by
      intro v hv
      cases hty' : ty' with
      | object cls =>
        rw [hty'] at hleads hty hv
        cases hv
        have hown := hk.ownSlot hf.own
        exact .object hroot hleads (Known.inherits_refl (hown.held cls hty).1)
      | func => exact (hty' ▸ hp).elim
      | _ =>
        rw [hty'] at hleads hv
        simp only [Store.field] at hv
        cases hc : σ.cells (ρ.self.sub owner x) with
        | cleared =>
          rw [hc] at hv
          cases hv
          constructor
        | unset =>
          rw [hc] at hv
          cases hv
        | value w =>
          rw [hc] at hv
          cases hv
          exact hσ.cells _ _ hc root _ _ hroot hleads
    simp only
    cases hv : σ.field ρ.self owner x ty' with
    | none => exact fun h => by cases h
    | some v => exact ⟨.refl hσ, hvalue v hv⟩

/-- Assigning a value of the type of a variable keeps everything typed. -/
theorem assign_safe (hk : known.Regular) (hV : V.Within known) (hρ : ρ.Typed known σ.roots V)
    (hσ : σ.Typed known) {x : String} {ty : Ty} {v : Value} (hx : V.varTy? x = some ty)
    (hs : ty.Storable) (hv : v.Of known σ.roots ty) :
    Safe (fun ρ' σ' => σ.Grows known σ' ∧ ρ'.Typed known σ'.roots V) (V.assign ρ x v σ) := by
  have hp : ty.Plain := by
    cases ty with
    | func => exact hs.elim
    | _ => trivial
  unfold View.varTy? at hx
  unfold assign
  cases hl : V.vars.lookup x with
  | some ty' =>
    rw [hl] at hx
    cases hx
    refine ⟨.refl hσ, hρ.self, ?_⟩
    intro y ty' v' hy hval
    simp only at hval
    by_cases heq : y = x
    · subst heq
      rw [if_pos rfl] at hval
      cases hval
      cases hl.symm.trans hy
      exact hv
    · rw [if_neg heq] at hval
      exact hρ.vars hy hval
  | none =>
    rw [hl] at hx
    obtain ⟨⟨owner, ty'⟩, hr, rfl⟩ := Option.map_eq_some_iff.mp hx
    obtain ⟨root, k, s, hroot, hf, hty, _, hleads⟩ := hρ.field hk hV hr hp
    rw [hr]
    simp only
    cases hty' : ty' with
    | object cls =>
      rw [hty'] at hleads hv
      obtain _ | _ | _ | ⟨hsroot, hsleads, hi⟩ := hv
      have hgrows : σ.Grows known (σ.copy _ (ρ.self.sub owner x)) :=
        hσ.copy hk hroot hleads (.object hsroot hsleads hi)
      exact ⟨hgrows, hρ.mono hgrows.roots⟩
    | _ =>
      rw [hty'] at hleads hv
      have hgrows := hσ.set hk (r := ρ.self.sub owner x) hroot hleads hv
      exact ⟨hgrows, hρ.mono hgrows.roots⟩

/-- A call that the rules resolve is safe. -/
theorem call_safe (hV : V.Within known) (hwf : known.WellFormed)
    (hcalls : V.CallsSound known calls) {cls method owner : String} {result : Ty}
    {params : List Ty} (hr : V.known.resolve cls method = some (owner, .func result params))
    {self : Value} {args : List Value} (hσ : σ.Typed known)
    (hself : self.Of known σ.roots (.object cls))
    (hargs : List.Forall₂ (Value.Of known σ.roots) args params) :
    Safe (Gives known σ result) (V.call calls (some cls) method self args σ) := by
  have hi := hV.inherits (Known.inherits_of_resolve hr)
  have hself' := hself.assign hwf (.object hi)
  unfold call
  rw [Option.bind_some, hr]
  obtain _ | _ | _ | ⟨_, _, _⟩ := hself
  exact hcalls _ _ _ _ _ hr σ _ args hσ hself' hargs

end View

/-! ## Expressions -/

namespace Expr

/-- The type of an expression is read off as the rules give it. -/
theorem Derives.typeIn_eq {e : Expr} {ty : Ty} (h : e.Derives mark V ty) :
    e.typeIn V = some ty := by
  cases e with
  | binary _ _ _ _ => rw [typeIn, h.binary_ty]
  | unary _ _ _ => rw [typeIn, h.unary_ty]
  | methodCall _ receiver _ _ =>
    cases h with
    | methodCall hr hm _ _ =>
      rw [typeIn, Derives.typeIn_eq hr, Option.bind_some, Ty.className?, Option.bind_some, hm]
      rfl
  | selfCall _ _ _ =>
    cases h with
    | selfCall hm _ _ =>
      rw [typeIn, hm]
      rfl
  | var _ _ =>
    cases h with
    | var hv _ _ => rw [typeIn, hv]
  | num _ _ | bool _ _ | nothing _ | new _ _ =>
    cases h
    rfl

/-- A binary expression is safe if its operands are and if its operator takes
    their values. -/
theorem eval_binary_safe {n : Note} {op : BinaryOp} {left right : Expr} {ta tb ty : Ty}
    (hl : Safe (Gives known σ ta) (left.eval calls V ρ σ))
    (hr : ∀ σ', σ.Grows known σ' → Safe (Gives known σ' tb) (right.eval calls V ρ σ'))
    (hop : ∀ (roots : List String) (a b : Value), a.Of known roots ta → b.Of known roots tb →
      op.apply a b = .error .division ∨ ∃ v, op.apply a b = .ok v ∧ v.Of known roots ty) :
    Safe (Gives known σ ty) ((binary n op left right).eval calls V ρ σ) := by
  refine hl.bind ?_
  rintro a σ₁ ⟨hgrows, ha⟩
  refine (hr σ₁ hgrows).bind ?_
  rintro b σ₂ ⟨hgrows', hb⟩
  have happly := hop σ₂.roots a b (ha.mono hgrows'.roots) hb
  refine Safe.lift ?_ ?_
  · intro v hv
    rcases happly with herr | ⟨v', hv', hty⟩
    · rw [herr] at hv
      cases hv
    · cases hv.symm.trans hv'
      exact ⟨hgrows.trans hgrows', hty⟩
  · rcases happly with herr | ⟨v', hv', _⟩
    · rw [herr]
      exact fun h => by cases h
    · rw [hv']
      exact fun h => by cases h

mutual

/-- An expression that follows the rules is safe. -/
theorem eval_safe (hk : known.Regular) (hV : V.Within known) (hcalls : V.CallsSound known calls) :
    ∀ {e : Expr} {ty : Ty}, e.Derives mark V ty → ∀ {σ : Store}, ρ.Typed known σ.roots V →
      σ.Typed known → Safe (Gives known σ ty) (e.eval calls V ρ σ)
  | _, _, .arith hop hl hr _, σ, hρ, hσ => by
    refine eval_binary_safe (eval_safe hk hV hcalls hl hρ hσ)
      (fun σ' hg => eval_safe hk hV hcalls hr (hρ.mono hg.roots) hg.typed) ?_
    rintro roots a b ⟨⟩ ⟨⟩
    rcases BinaryOp.apply_arith hop _ _ with h | ⟨w, h⟩
    · exact Or.inl h
    · exact Or.inr ⟨_, h, .int⟩
  | _, _, .and hl hr _, σ, hρ, hσ => by
    refine eval_binary_safe (eval_safe hk hV hcalls hl hρ hσ)
      (fun σ' hg => eval_safe hk hV hcalls hr (hρ.mono hg.roots) hg.typed) ?_
    rintro roots a b ⟨⟩ ⟨⟩
    exact Or.inr ⟨_, rfl, .bool⟩
  | _, _, .compare hop hl hr _, σ, hρ, hσ => by
    refine eval_binary_safe (eval_safe hk hV hcalls hl hρ hσ)
      (fun σ' hg => eval_safe hk hV hcalls hr (hρ.mono hg.roots) hg.typed) ?_
    rintro roots a b ⟨⟩ ⟨⟩
    obtain ⟨c, h⟩ := BinaryOp.apply_compare hop _ _
    exact Or.inr ⟨_, h, .bool⟩
  | _, _, .equate hop hty hl hr _, σ, hρ, hσ => by
    refine eval_binary_safe (eval_safe hk hV hcalls hl hρ hσ)
      (fun σ' hg => eval_safe hk hV hcalls hr (hρ.mono hg.roots) hg.typed) ?_
    intro roots a b ha hb
    obtain ⟨c, h⟩ := BinaryOp.apply_equate hop hty ha hb
    exact Or.inr ⟨_, h, .bool⟩
  | _, _, .neg h _, σ, hρ, hσ => by
    refine (eval_safe hk hV hcalls h hρ hσ).bind ?_
    rintro _ σ' ⟨hg, ⟨⟩⟩
    exact ⟨hg, .int⟩
  | _, _, .not h _, σ, hρ, hσ => by
    refine (eval_safe hk hV hcalls h hρ hσ).bind ?_
    rintro _ σ' ⟨hg, ⟨⟩⟩
    exact ⟨hg, .bool⟩
  | .methodCall _ receiver _ _, _, .methodCall hr hm ha _, σ, hρ, hσ => by
    refine (eval_safe hk hV hcalls hr hρ hσ).bind ?_
    rintro self σ₁ ⟨hg₁, hself⟩
    refine (evalArgs_safe hk hV hcalls ha (hρ.mono hg₁.roots) hg₁.typed).bind ?_
    rintro args σ₂ ⟨hg₂, hargs⟩
    have hcall := View.call_safe hV hk.wellFormed hcalls hm hg₂.typed (hself.mono hg₂.roots) hargs
    rw [hr.typeIn_eq]
    exact hcall.weaken fun v σ' h => ⟨(hg₁.trans hg₂).trans h.1, h.2⟩
  | .selfCall .., _, .selfCall hm ha _, σ, hρ, hσ => by
    refine (evalArgs_safe hk hV hcalls ha hρ hσ).bind ?_
    rintro args σ₁ ⟨hg, hargs⟩
    have hcall := View.call_safe hV hk.wellFormed hcalls hm hg.typed
      (hρ.self.mono hg.roots) hargs
    exact hcall.weaken fun v σ' h => ⟨hg.trans h.1, h.2⟩
  | .var .., _, .var hv hs _, σ, hρ, hσ => View.read_safe hk hV hρ hσ hv hs
  | .num .., _, .num _, σ, _, hσ => ⟨.refl hσ, .int⟩
  | .bool .., _, .bool _, σ, _, hσ => ⟨.refl hσ, .bool⟩
  | .nothing .., _, .nothing _, σ, _, hσ => ⟨.refl hσ, .nothing⟩
  | .new _ cls, _, .new hc _, σ, _, hσ => by
    have hroot : (σ.roots ++ [cls])[σ.roots.length]? = some cls := by simp
    exact ⟨hσ.make cls, .object hroot .here (hV.inherits (Known.inherits_refl hc))⟩

/-- Arguments that fit are safe. -/
theorem evalArgs_safe (hk : known.Regular) (hV : V.Within known)
    (hcalls : V.CallsSound known calls) : ∀ {args : List Expr} {params : List Ty},
    Fit mark V args params → ∀ {σ : Store}, ρ.Typed known σ.roots V → σ.Typed known →
      Safe (GivesAll known σ params) (evalArgs calls V ρ args σ)
  | _, _, .nil, σ, _, hσ => ⟨.refl hσ, .nil⟩
  | _, _, .cons he ha hr, σ, hρ, hσ => by
    refine (evalArgs_safe hk hV hcalls hr hρ hσ).bind ?_
    rintro values σ₁ ⟨hg₁, hvalues⟩
    refine (eval_safe hk hV hcalls he (hρ.mono hg₁.roots) hg₁.typed).bind ?_
    rintro v σ₂ ⟨hg₂, hv⟩
    have hv' := hv.assign hk.wellFormed (hV.assignable ha)
    exact ⟨hg₁.trans hg₂, .cons hv' (forall₂_mono hvalues hg₂.roots)⟩

end

end Expr

/-! ## Statements -/

/-- A store that grew, and an environment that is still typed. -/
def Keeps (known : Known) (V : View) (σ : Store) (ρ : Env) (σ' : Store) : Prop :=
  σ.Grows known σ' ∧ ρ.Typed known σ'.roots V

namespace Stmt

/-- Statements in order are safe if each of them is. -/
theorem execAll_safe_of_forall {body : List Stmt}
    (h : ∀ s ∈ body, ∀ (ρ : Env) (σ : Store), ρ.Typed known σ.roots V → σ.Typed known →
      Safe (Keeps known V σ) (s.exec calls V ρ σ)) (hρ : ρ.Typed known σ.roots V)
    (hσ : σ.Typed known) : Safe (Keeps known V σ) (execAll calls V body ρ σ) := by
  induction body generalizing ρ σ with
  | nil => exact ⟨.refl hσ, hρ⟩
  | cons s rest ih =>
    refine (h s List.mem_cons_self ρ σ hρ hσ).bind ?_
    rintro ρ₁ σ₁ ⟨hg, hρ₁⟩
    have hrest := ih (fun s' hs' => h s' (List.mem_cons_of_mem _ hs')) hρ₁ hg.typed
    exact hrest.weaken fun ρ₂ σ₂ h₂ => ⟨hg.trans h₂.1, h₂.2⟩

/-- A statement that follows the rules is safe. -/
theorem exec_safe (hk : known.Regular) (hV : V.Within known) (hcalls : V.CallsSound known calls)
    {s : Stmt} (h : s.Derives mark V) (ρ : Env) (σ : Store) (hρ : ρ.Typed known σ.roots V)
    (hσ : σ.Typed known) : Safe (Keeps known V σ) (s.exec calls V ρ σ) := by
  induction h generalizing ρ σ with
  | assign hv hx hs ha =>
    rw [exec]
    refine (Expr.eval_safe hk hV hcalls hv hρ hσ).bind ?_
    rintro v σ₁ ⟨hg, hty⟩
    have hassign := View.assign_safe hk hV (hρ.mono hg.roots) hg.typed hx hs
      (hty.assign hk.wellFormed (hV.assignable ha))
    exact hassign.weaken fun ρ₂ σ₂ h₂ => ⟨hg.trans h₂.1, h₂.2⟩
  | cond ht _ ih =>
    rw [exec]
    refine (Expr.eval_safe hk hV hcalls ht hρ hσ).bind ?_
    rintro _ σ₁ ⟨hg, ⟨⟩⟩
    rename_i b
    have hρ₁ := hρ.mono hg.roots
    cases b with
    | true =>
      have hbody := execAll_safe_of_forall ih hρ₁ hg.typed
      exact hbody.weaken fun ρ₂ σ₂ h₂ => ⟨hg.trans h₂.1, h₂.2⟩
    | false => exact ⟨hg, hρ₁⟩
  | print hv hty =>
    rw [exec]
    refine (Expr.eval_safe hk hV hcalls hv hρ hσ).bind ?_
    rintro v σ₁ ⟨hg, hof⟩
    have hshown : ∃ n, v.shown = some n := by
      simp only [List.mem_cons, List.not_mem_nil, or_false] at hty
      rcases hty with rfl | rfl <;> cases hof <;> exact ⟨_, rfl⟩
    obtain ⟨n, hn⟩ := hshown
    simp only [Store.print, hn]
    exact ⟨hg.trans (hg.typed.print _), hρ.mono hg.roots⟩

end Stmt

/-! ## Methods -/

/-- Arguments that fit the parameters give each parameter a value of its
    type. -/
theorem Method.of_lookup_args {roots : List String} {params : List Param}
    {locals : List (String × Ty)} {args : List Value}
    (h : List.Forall₂ (Value.Of known roots) args (params.map (Ty.ofName ·.ty))) {x : String}
    {ty : Ty} {v : Value} (hx : (Param.variables params ++ locals).lookup x = some ty)
    (hv : ((params.map (·.name)).zip args).lookup x = some v) : v.Of known roots ty := by
  induction params generalizing args with
  | nil => simp at hv
  | cons p rest ih =>
    cases h with
    | cons hof hrest =>
      simp only [Param.variables, List.map_cons, List.cons_append, List.lookup_cons,
        List.zip_cons_cons] at hx hv
      cases hp : x == p.name with
      | true =>
        rw [hp] at hx hv
        cases hx
        cases hv
        exact hof
      | false =>
        rw [hp] at hx hv
        exact ih hrest hx hv

/-- What a method starts with is typed. -/
theorem Method.env_typed {m : Method} {self : Ref} {args : List Value}
    (hvars : V.vars = m.variables) (hself : (Value.object self).Of known σ.roots (.object V.cls))
    (hargs : List.Forall₂ (Value.Of known σ.roots) args (m.params.map (Ty.ofName ·.ty))) :
    (m.env self args).Typed known σ.roots V where
  self := hself
  vars := fun hx hv => Method.of_lookup_args hargs (hvars ▸ hx) hv

/-- A method that follows the rules gives values of its result type. -/
theorem Method.run_safe (hk : known.Regular) {seen : Known} {cls : String} {m : Method}
    (hV : (m.view seen cls).Within known) (hcalls : (m.view seen cls).CallsSound known calls)
    (h : m.Derives mark seen cls) (hσ : σ.Typed known) {self : Ref} {args : List Value}
    (hself : (Value.object self).Of known σ.roots (.object cls))
    (hargs : List.Forall₂ (Value.Of known σ.roots) args (m.params.map (Ty.ofName ·.ty))) :
    Safe (Gives known σ (.ofName m.result)) (m.run calls (m.view seen cls) self args σ) := by
  have hρ := Method.env_typed (V := m.view seen cls) rfl hself hargs
  obtain ⟨ty, hvalue, ha⟩ := h.value
  have hbody := Stmt.execAll_safe_of_forall
    (fun s hs => Stmt.exec_safe hk hV hcalls (h.body s hs)) hρ hσ
  refine hbody.bind ?_
  rintro ρ₁ σ₁ ⟨hg, hρ₁⟩
  have heval := Expr.eval_safe hk hV hcalls hvalue hρ₁ hg.typed
  refine heval.weaken fun v σ₂ h₂ => ⟨hg.trans h₂.1, ?_⟩
  exact h₂.2.assign hk.wellFormed (hV.assignable ha)

end ClassLang
