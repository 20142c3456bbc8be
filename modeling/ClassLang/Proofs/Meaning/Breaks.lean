import ClassLang.Proofs.Meaning.Linked

/-! # Runs that break off

    A run that meets a division without a quotient has no result.  What it did
    before that is not lost: it has printed, and it has made objects.

    * **`Expr.Breaks`** and **`Stmt.Breaks`** relate the store from which a run
      starts to the one in which it breaks off, and **`Routine.breaks`** does so
      for calls.
    * **`Routine.exists_breaks`**: every run that fails for this reason breaks
      off in some store.
    * **`Routine.breaks_roots`**: until then objects are only added. -/

namespace ClassLang

/-- In which store a call breaks off that starts from another one. -/
abbrev Breaking := (cls method : String) → (self : Ref) → (args : List Value) →
  Store → Store → Prop

/-- A call of the nearest method of this name breaks off. -/
def View.CallBreaks (V : View) (breaking : Breaking) (cls : Option String) (method : String)
    (self : Value) (args : List Value) (σ σ' : Store) : Prop :=
  ∃ c owner ty r, cls = some c ∧ V.known.resolve c method = some (owner, ty) ∧
    self = .object r ∧ breaking owner method r args σ σ'

/-! ## Trees -/

namespace Expr

mutual

/-- The evaluation of an expression breaks off.  The cases follow the order of
    evaluation: a part breaks off once the parts before it have values. -/
inductive Breaks (calls : Calls) (breaking : Breaking) (V : View) (ρ : Env) :
    Expr → Store → Store → Prop where
  | left {n op left right σ σ'} : Breaks calls breaking V ρ left σ σ' →
      Breaks calls breaking V ρ (.binary n op left right) σ σ'
  | right {n op left right a σ σ₁ σ'} : left.eval calls V ρ σ = .ok (a, σ₁) →
      Breaks calls breaking V ρ right σ₁ σ' →
      Breaks calls breaking V ρ (.binary n op left right) σ σ'
  /-- The operator itself has no result. -/
  | divide {n op left right a b σ σ₁ σ'} : left.eval calls V ρ σ = .ok (a, σ₁) →
      right.eval calls V ρ σ₁ = .ok (b, σ') → op.apply a b = .error .division →
      Breaks calls breaking V ρ (.binary n op left right) σ σ'
  | operand {n op operand σ σ'} : Breaks calls breaking V ρ operand σ σ' →
      Breaks calls breaking V ρ (.unary n op operand) σ σ'
  | receiver {n receiver method args σ σ'} : Breaks calls breaking V ρ receiver σ σ' →
      Breaks calls breaking V ρ (.methodCall n receiver method args) σ σ'
  | methodArgs {n receiver method args self σ σ₁ σ'} :
      receiver.eval calls V ρ σ = .ok (self, σ₁) → BreaksAll calls breaking V ρ args σ₁ σ' →
      Breaks calls breaking V ρ (.methodCall n receiver method args) σ σ'
  | methodCall {n receiver method args self values σ σ₁ σ₂ σ'} :
      receiver.eval calls V ρ σ = .ok (self, σ₁) →
      evalArgs calls V ρ args σ₁ = .ok (values, σ₂) →
      V.CallBreaks breaking ((receiver.typeIn V).bind Ty.className?) method self values σ₂ σ' →
      Breaks calls breaking V ρ (.methodCall n receiver method args) σ σ'
  | selfArgs {n method args σ σ'} : BreaksAll calls breaking V ρ args σ σ' →
      Breaks calls breaking V ρ (.selfCall n method args) σ σ'
  | selfCall {n method args values σ σ₁ σ'} :
      evalArgs calls V ρ args σ = .ok (values, σ₁) →
      V.CallBreaks breaking (some V.cls) method (.object ρ.self) values σ₁ σ' →
      Breaks calls breaking V ρ (.selfCall n method args) σ σ'

/-- The evaluation of arguments, from the last to the first, breaks off. -/
inductive BreaksAll (calls : Calls) (breaking : Breaking) (V : View) (ρ : Env) :
    List Expr → Store → Store → Prop where
  | later {e rest σ σ'} : BreaksAll calls breaking V ρ rest σ σ' →
      BreaksAll calls breaking V ρ (e :: rest) σ σ'
  | first {e rest values σ σ₁ σ'} : evalArgs calls V ρ rest σ = .ok (values, σ₁) →
      Breaks calls breaking V ρ e σ₁ σ' → BreaksAll calls breaking V ρ (e :: rest) σ σ'

end

end Expr

namespace Stmt

mutual

/-- The run of a statement breaks off. -/
inductive Breaks (calls : Calls) (breaking : Breaking) (V : View) :
    Stmt → Env → Store → Store → Prop where
  | assign {line name value ρ σ σ'} : value.Breaks calls breaking V ρ σ σ' →
      Breaks calls breaking V (.assign line name value) ρ σ σ'
  | test {line test body ρ σ σ'} : test.Breaks calls breaking V ρ σ σ' →
      Breaks calls breaking V (.cond line test body) ρ σ σ'
  | body {line test body ρ σ σ₁ σ'} : test.eval calls V ρ σ = .ok (.bool true, σ₁) →
      BreaksAll calls breaking V body ρ σ₁ σ' →
      Breaks calls breaking V (.cond line test body) ρ σ σ'
  | print {line value ρ σ σ'} : value.Breaks calls breaking V ρ σ σ' →
      Breaks calls breaking V (.print line value) ρ σ σ'

/-- The run of statements in order breaks off. -/
inductive BreaksAll (calls : Calls) (breaking : Breaking) (V : View) :
    List Stmt → Env → Store → Store → Prop where
  | first {s rest ρ σ σ'} : Breaks calls breaking V s ρ σ σ' →
      BreaksAll calls breaking V (s :: rest) ρ σ σ'
  | later {s rest ρ ρ₁ σ σ₁ σ'} : s.exec calls V ρ σ = .ok (ρ₁, σ₁) →
      BreaksAll calls breaking V rest ρ₁ σ₁ σ' → BreaksAll calls breaking V (s :: rest) ρ σ σ'

end

end Stmt

/-- The run of a method breaks off, in its body or in its value. -/
inductive Method.Breaks (calls : Calls) (breaking : Breaking) (V : View) (m : Method) (self : Ref)
    (args : List Value) (σ σ' : Store) : Prop where
  | body : Stmt.BreaksAll calls breaking V m.body (m.env self args) σ σ' →
      Method.Breaks calls breaking V m self args σ σ'
  | value {ρ σ₁} : Stmt.execAll calls V m.body (m.env self args) σ = .ok (ρ, σ₁) →
      m.value.Breaks calls breaking V ρ σ₁ σ' → Method.Breaks calls breaking V m self args σ σ'

/-- Where calls of some methods break off, the newest first. -/
def Routine.breaks : List Routine → Breaking
  | [], _, _, _, _, _, _ => False
  | r :: earlier, cls, method, self, args, σ, σ' =>
    if r.view.cls = cls ∧ r.method.name = method then
      r.method.Breaks (calls earlier) (breaks earlier) r.view self args σ σ'
    else breaks earlier cls method self args σ σ'

/-! ## Every failure by a division -/

/-- Every call that fails by a division breaks off somewhere. -/
def Breaking.Covers (breaking : Breaking) (calls : Calls) : Prop :=
  ∀ cls method self args σ, calls cls method self args σ = .error .division →
    ∃ σ', breaking cls method self args σ σ'

variable {calls : Calls} {breaking : Breaking} {V : View} {ρ : Env} {σ σ' : Store}

/-- Only the division fails so, and only on numbers without a quotient. -/
theorem BinaryOp.apply_eq_division {op : BinaryOp} {a b : Value}
    (h : op.apply a b = .error .division) : op = .div ∧ ∃ x y, a = .int x ∧ b = .int y ∧
      (y = 0 ∨ x = leastInt ∧ y = -1) := by
  cases op with
  | div =>
    cases a with
    | int x =>
      cases b with
      | int y =>
        by_cases hno : y = 0 ∨ x = leastInt ∧ y = -1
        · exact ⟨rfl, x, y, rfl, rfl, hno⟩
        · have hok : BinaryOp.div.apply (.int x) (.int y) = .ok _ := if_neg hno
          rw [hok] at h
          cases h
      | _ => cases h
    | _ => cases h
  | _ => cases a <;> cases b <;> cases h

theorem UnaryOp.apply_ne_division (op : UnaryOp) (a : Value) : op.apply a ≠ .error .division := by
  intro h
  cases op <;> cases a <;> cases h

namespace View

theorem read_ne_division (x : String) : V.read ρ x σ ≠ .error .division := by
  intro h
  unfold read at h
  split at h
  · split at h <;> cases h
  · split at h
    · split at h <;> cases h
    · cases h

theorem assign_ne_division (x : String) (v : Value) : V.assign ρ x v σ ≠ .error .division := by
  intro h
  unfold assign at h
  split at h
  · cases h
  · split at h
    · next owner ty _ =>
      cases ty <;> cases v <;> cases h
    · cases h

theorem exists_callBreaks (hc : breaking.Covers calls) {cls : Option String} {method : String}
    {self : Value} {args : List Value}
    (h : V.call calls cls method self args σ = .error .division) :
    ∃ σ', V.CallBreaks breaking cls method self args σ σ' := by
  unfold call at h
  cases hfound : cls.bind (V.known.resolve · method) with
  | none =>
    rw [hfound] at h
    cases h
  | some found =>
    rw [hfound] at h
    cases self with
    | object r =>
      obtain ⟨c, rfl, hr⟩ := Option.bind_eq_some_iff.mp hfound
      obtain ⟨σ', hb⟩ := hc found.1 method r args σ h
      exact ⟨σ', c, found.1, found.2, r, rfl, hr, rfl, hb⟩
    | _ => cases h

end View

namespace Expr

mutual

/-- An evaluation that fails by a division breaks off somewhere. -/
theorem exists_breaks (hc : breaking.Covers calls) : ∀ {e : Expr} {σ : Store},
    e.eval calls V ρ σ = .error .division → ∃ σ', e.Breaks calls breaking V ρ σ σ'
  | .binary _ op left right, σ, h => by
    rcases state_bind_error_iff.mp h with hl | ⟨a, σ₁, ha, h⟩
    · obtain ⟨σ', hb⟩ := exists_breaks hc hl
      exact ⟨σ', .left hb⟩
    · rcases state_bind_error_iff.mp h with hr | ⟨b, σ₂, hb, hop⟩
      · obtain ⟨σ', hb⟩ := exists_breaks hc hr
        exact ⟨σ', .right ha hb⟩
      · exact ⟨σ₂, .divide ha hb (state_lift_error_iff.mp hop)⟩
  | .unary _ op operand, σ, h => by
    rcases state_bind_error_iff.mp h with ho | ⟨a, σ₁, _, hop⟩
    · obtain ⟨σ', hb⟩ := exists_breaks hc ho
      exact ⟨σ', .operand hb⟩
    -- no unary operator divides
    · exact absurd (state_lift_error_iff.mp hop) (op.apply_ne_division a)
  | .methodCall _ receiver method args, σ, h => by
    rcases state_bind_error_iff.mp h with hr | ⟨self, σ₁, hself, h⟩
    · obtain ⟨σ', hb⟩ := exists_breaks hc hr
      exact ⟨σ', .receiver hb⟩
    · rcases state_bind_error_iff.mp h with ha | ⟨values, σ₂, hvalues, hcall⟩
      · obtain ⟨σ', hb⟩ := exists_breaksAll hc ha
        exact ⟨σ', .methodArgs hself hb⟩
      · obtain ⟨σ', hb⟩ := View.exists_callBreaks hc hcall
        exact ⟨σ', .methodCall hself hvalues hb⟩
  | .selfCall _ method args, σ, h => by
    rcases state_bind_error_iff.mp h with ha | ⟨values, σ₁, hvalues, hcall⟩
    · obtain ⟨σ', hb⟩ := exists_breaksAll hc ha
      exact ⟨σ', .selfArgs hb⟩
    · obtain ⟨σ', hb⟩ := View.exists_callBreaks hc hcall
      exact ⟨σ', .selfCall hvalues hb⟩
  | .var _ x, _, h => absurd h (View.read_ne_division x)
  | .num .., _, h | .bool .., _, h | .nothing .., _, h | .new .., _, h => by cases h

/-- Arguments whose evaluation fails by a division break off somewhere. -/
theorem exists_breaksAll (hc : breaking.Covers calls) : ∀ {args : List Expr} {σ : Store},
    evalArgs calls V ρ args σ = .error .division → ∃ σ', BreaksAll calls breaking V ρ args σ σ'
  | [], _, h => by cases h
  | e :: rest, σ, h => by
    -- the last argument comes first, so the rest have values when `e` breaks off
    rcases state_bind_error_iff.mp h with hr | ⟨values, σ₁, hvalues, h⟩
    · obtain ⟨σ', hb⟩ := exists_breaksAll hc hr
      exact ⟨σ', .later hb⟩
    · rcases state_bind_error_iff.mp h with he | ⟨v, σ₂, _, h⟩
      · obtain ⟨σ', hb⟩ := exists_breaks hc he
        exact ⟨σ', .first hvalues hb⟩
      · cases h

end

end Expr

namespace Stmt

mutual

/-- A statement that fails by a division breaks off somewhere. -/
theorem exists_breaks (hc : breaking.Covers calls) : ∀ {s : Stmt} {ρ : Env} {σ : Store},
    s.exec calls V ρ σ = .error .division → ∃ σ', s.Breaks calls breaking V ρ σ σ'
  | .assign _ name value, ρ, σ, h => by
    rw [exec] at h
    rcases state_bind_error_iff.mp h with hv | ⟨v, σ₁, _, hassign⟩
    · obtain ⟨σ', hb⟩ := Expr.exists_breaks hc hv
      exact ⟨σ', .assign hb⟩
    · exact absurd hassign (View.assign_ne_division name v)
  | .cond _ test body, ρ, σ, h => by
    rw [exec] at h
    rcases state_bind_error_iff.mp h with ht | ⟨v, σ₁, hv, h⟩
    · obtain ⟨σ', hb⟩ := Expr.exists_breaks hc ht
      exact ⟨σ', .test hb⟩
    · cases v with
      | bool c =>
        cases c with
        | true =>
          obtain ⟨σ', hb⟩ := exists_breaksAll hc h
          exact ⟨σ', .body hv hb⟩
        | false => cases h
      | _ => cases h
  | .print _ value, ρ, σ, h => by
    rw [exec] at h
    rcases state_bind_error_iff.mp h with hv | ⟨v, σ₁, _, hprint⟩
    · obtain ⟨σ', hb⟩ := Expr.exists_breaks hc hv
      exact ⟨σ', .print hb⟩
    · cases hshown : v.shown <;> simp only [Store.print, hshown] at hprint <;> cases hprint

/-- Statements that fail by a division break off somewhere. -/
theorem exists_breaksAll (hc : breaking.Covers calls) : ∀ {body : List Stmt} {ρ : Env} {σ : Store},
    execAll calls V body ρ σ = .error .division → ∃ σ', BreaksAll calls breaking V body ρ σ σ'
  | [], _, _, h => by cases h
  | s :: rest, ρ, σ, h => by
    rw [execAll] at h
    rcases state_bind_error_iff.mp h with hs | ⟨ρ₁, σ₁, hs, hrest⟩
    · obtain ⟨σ', hb⟩ := exists_breaks hc hs
      exact ⟨σ', .first hb⟩
    · obtain ⟨σ', hb⟩ := exists_breaksAll hc hrest
      exact ⟨σ', .later hs hb⟩

end

end Stmt

/-- A method that fails by a division breaks off somewhere. -/
theorem Method.exists_breaks (hc : breaking.Covers calls) {m : Method} {self : Ref}
    {args : List Value} (h : m.run calls V self args σ = .error .division) :
    ∃ σ', m.Breaks calls breaking V self args σ σ' := by
  rcases state_bind_error_iff.mp h with hbody | ⟨ρ, σ₁, hbody, hvalue⟩
  · obtain ⟨σ', hb⟩ := Stmt.exists_breaksAll hc hbody
    exact ⟨σ', .body hb⟩
  · obtain ⟨σ', hb⟩ := Expr.exists_breaks hc hvalue
    exact ⟨σ', .value hbody hb⟩

/-- Calls that fail by a division break off somewhere. -/
theorem Routine.exists_breaks (rs : List Routine) :
    (Routine.breaks rs).Covers (Routine.calls rs) := by
  induction rs with
  | nil =>
    intro cls method self args σ h
    cases h
  | cons r earlier ih =>
    intro cls method self args σ h
    by_cases hkey : r.view.cls = cls ∧ r.method.name = method
    -- the newest method calls earlier ones only, for which it is the hypothesis
    · simp only [Routine.calls, if_pos hkey] at h
      obtain ⟨σ', hb⟩ := Method.exists_breaks ih h
      refine ⟨σ', ?_⟩
      simp only [Routine.breaks, if_pos hkey]
      exact hb
    · simp only [Routine.calls, if_neg hkey] at h
      obtain ⟨σ', hb⟩ := ih cls method self args σ h
      refine ⟨σ', ?_⟩
      simp only [Routine.breaks, if_neg hkey]
      exact hb

/-! ## Objects are only added -/

/-- Until a call of the method breaks off, objects are only added. -/
def Breaking.Adds (known : Known) (breaking : Breaking) (owner method : String)
    (params : List Ty) : Prop :=
  ∀ σ self args σ', σ.Typed known → (Value.object self).Of known σ.roots (.object owner) →
    List.Forall₂ (Value.Of known σ.roots) args params →
    breaking owner method self args σ σ' → σ.roots <+: σ'.roots

/-- So it is for all calls that a view can resolve. -/
def View.CallsAdd (V : View) (known : Known) (breaking : Breaking) : Prop :=
  ∀ cls method owner result params,
    V.known.resolve cls method = some (owner, .func result params) →
    breaking.Adds known owner method params

variable {known : Known} {mark : Mark}

/-- A call that breaks off, where the rules resolve it. -/
theorem View.CallBreaks.resolved {cls method owner : String} {result : Ty} {params : List Ty}
    {self : Value} {args : List Value}
    (h : V.CallBreaks breaking (some cls) method self args σ σ')
    (hr : V.known.resolve cls method = some (owner, .func result params)) :
    ∃ r, self = .object r ∧ breaking owner method r args σ σ' := by
  obtain ⟨c, owner', ty, r, hc, hr', hself, hb⟩ := h
  cases hc
  cases hr.symm.trans hr'
  exact ⟨r, hself, hb⟩

theorem View.CallBreaks.roots (hV : V.Within known) (hwf : known.WellFormed)
    (ha : V.CallsAdd known breaking) {cls method owner : String} {result : Ty}
    {params : List Ty} (hr : V.known.resolve cls method = some (owner, .func result params))
    {self : Value} {args : List Value}
    (h : V.CallBreaks breaking (some cls) method self args σ σ') (hσ : σ.Typed known)
    (hself : self.Of known σ.roots (.object cls))
    (hargs : List.Forall₂ (Value.Of known σ.roots) args params) : σ.roots <+: σ'.roots := by
  obtain ⟨r, rfl, hb⟩ := h.resolved hr
  have howner := hself.assign hwf (.object (hV.inherits (Known.inherits_of_resolve hr)))
  exact ha _ _ _ _ _ hr σ r args σ' hσ howner hargs hb

namespace Expr

/-- The operands of a binary expression have types. -/
theorem Derives.operands {n : Note} {op : BinaryOp} {left right : Expr} {ty : Ty}
    (h : (binary n op left right).Derives mark V ty) :
    ∃ tl tr, left.Derives mark V tl ∧ right.Derives mark V tr := by
  cases h with
  | arith _ hl hr | compare _ hl hr | equate _ _ hl hr | and hl hr => exact ⟨_, _, hl, hr⟩

mutual

/-- Until an evaluation breaks off, objects are only added. -/
theorem Breaks.roots (hk : known.Regular) (hV : V.Within known)
    (hcalls : V.CallsSound known calls) (ha : V.CallsAdd known breaking) :
    ∀ {e : Expr} {ty : Ty} {σ σ' : Store}, e.Breaks calls breaking V ρ σ σ' →
      e.Derives mark V ty → ρ.Typed known σ.roots V → σ.Typed known → σ.roots <+: σ'.roots
  | _, _, _, _, .left hb, h, hρ, hσ => by
    obtain ⟨tl, _, hl, _⟩ := h.operands
    exact Breaks.roots hk hV hcalls ha hb hl hρ hσ
  | _, _, _, _, .right hl hb, h, hρ, hσ => by
    obtain ⟨tl, tr, hdl, hdr⟩ := h.operands
    have hg := (eval_safe hk hV hcalls hdl hρ hσ).of_ok hl
    exact hg.1.roots.trans
      (Breaks.roots hk hV hcalls ha hb hdr (hρ.mono hg.1.roots) hg.1.typed)
  | _, _, _, _, .divide hl hr _, h, hρ, hσ => by
    obtain ⟨tl, tr, hdl, hdr⟩ := h.operands
    have hg := (eval_safe hk hV hcalls hdl hρ hσ).of_ok hl
    have hg' := (eval_safe hk hV hcalls hdr (hρ.mono hg.1.roots) hg.1.typed).of_ok hr
    exact hg.1.roots.trans hg'.1.roots
  | _, _, _, _, .operand hb, h, hρ, hσ => by
    cases h with
    | neg ho _ | not ho _ => exact Breaks.roots hk hV hcalls ha hb ho hρ hσ
  | _, _, _, _, .receiver hb, .methodCall hr _ _ _, hρ, hσ =>
    Breaks.roots hk hV hcalls ha hb hr hρ hσ
  | _, _, _, _, .methodArgs hself hb, .methodCall hr _ hfit _, hρ, hσ => by
    have hg := (eval_safe hk hV hcalls hr hρ hσ).of_ok hself
    exact hg.1.roots.trans
      (BreaksAll.roots hk hV hcalls ha hb hfit (hρ.mono hg.1.roots) hg.1.typed)
  | _, _, _, _, .methodCall hself hvalues hb, .methodCall hr hm hfit _, hρ, hσ => by
    have hg := (eval_safe hk hV hcalls hr hρ hσ).of_ok hself
    have hg' := (evalArgs_safe hk hV hcalls hfit (hρ.mono hg.1.roots) hg.1.typed).of_ok hvalues
    rw [hr.typeIn_eq] at hb
    exact (hg.1.trans hg'.1).roots.trans
      (hb.roots hV hk.wellFormed ha hm hg'.1.typed (hg.2.mono hg'.1.roots) hg'.2)
  | _, _, _, _, .selfArgs hb, .selfCall _ hfit _, hρ, hσ =>
    BreaksAll.roots hk hV hcalls ha hb hfit hρ hσ
  | _, _, _, _, .selfCall hvalues hb, .selfCall hm hfit _, hρ, hσ => by
    have hg := (evalArgs_safe hk hV hcalls hfit hρ hσ).of_ok hvalues
    exact hg.1.roots.trans
      (hb.roots hV hk.wellFormed ha hm hg.1.typed (hρ.self.mono hg.1.roots) hg.2)

/-- Until the evaluation of arguments breaks off, objects are only added. -/
theorem BreaksAll.roots (hk : known.Regular) (hV : V.Within known)
    (hcalls : V.CallsSound known calls) (ha : V.CallsAdd known breaking) :
    ∀ {args : List Expr} {params : List Ty} {σ σ' : Store},
      BreaksAll calls breaking V ρ args σ σ' → Fit mark V args params →
      ρ.Typed known σ.roots V → σ.Typed known → σ.roots <+: σ'.roots
  | _, _, _, _, .later hb, .cons _ _ hrest, hρ, hσ =>
    BreaksAll.roots hk hV hcalls ha hb hrest hρ hσ
  | _, _, _, _, .first hvalues hb, .cons he _ hrest, hρ, hσ => by
    have hg := (evalArgs_safe hk hV hcalls hrest hρ hσ).of_ok hvalues
    exact hg.1.roots.trans
      (Breaks.roots hk hV hcalls ha hb he (hρ.mono hg.1.roots) hg.1.typed)

end

end Expr

namespace Stmt

mutual

/-- Until a statement breaks off, objects are only added. -/
theorem Breaks.roots (hk : known.Regular) (hV : V.Within known)
    (hcalls : V.CallsSound known calls) (ha : V.CallsAdd known breaking) :
    ∀ {s : Stmt} {ρ : Env} {σ σ' : Store}, s.Breaks calls breaking V ρ σ σ' →
      s.Derives mark V → ρ.Typed known σ.roots V → σ.Typed known → σ.roots <+: σ'.roots
  | _, _, _, _, .assign hb, .assign hv _ _ _, hρ, hσ => hb.roots hk hV hcalls ha hv hρ hσ
  | _, _, _, _, .test hb, .cond ht _, hρ, hσ => hb.roots hk hV hcalls ha ht hρ hσ
  | _, _, _, _, .body htest hb, .cond ht hbody, hρ, hσ => by
    have hg := (Expr.eval_safe hk hV hcalls ht hρ hσ).of_ok htest
    exact hg.1.roots.trans
      (BreaksAll.roots hk hV hcalls ha hb hbody (hρ.mono hg.1.roots) hg.1.typed)
  | _, _, _, _, .print hb, .print hv _, hρ, hσ => hb.roots hk hV hcalls ha hv hρ hσ

/-- Until statements in order break off, objects are only added. -/
theorem BreaksAll.roots (hk : known.Regular) (hV : V.Within known)
    (hcalls : V.CallsSound known calls) (ha : V.CallsAdd known breaking) :
    ∀ {body : List Stmt} {ρ : Env} {σ σ' : Store}, BreaksAll calls breaking V body ρ σ σ' →
      (∀ s ∈ body, s.Derives mark V) → ρ.Typed known σ.roots V → σ.Typed known →
      σ.roots <+: σ'.roots
  | _, _, _, _, .first hb, h, hρ, hσ =>
    Breaks.roots hk hV hcalls ha hb (h _ List.mem_cons_self) hρ hσ
  | _, ρ, σ, _, .later hs hb, h, hρ, hσ => by
    have hg := (exec_safe hk hV hcalls (h _ List.mem_cons_self) ρ σ hρ hσ).of_ok hs
    exact hg.1.roots.trans (BreaksAll.roots hk hV hcalls ha hb
      (fun s hs => h s (List.mem_cons_of_mem _ hs)) hg.2 hg.1.typed)

end

end Stmt

/-- Until a method breaks off, objects are only added. -/
theorem Method.Breaks.roots (hk : known.Regular) {seen : Known} {cls : String} {m : Method}
    (hV : (m.view seen cls).Within known) (hcalls : (m.view seen cls).CallsSound known calls)
    (ha : (m.view seen cls).CallsAdd known breaking) (h : m.Derives mark seen cls)
    (hσ : σ.Typed known) {self : Ref} {args : List Value}
    (hself : (Value.object self).Of known σ.roots (.object cls))
    (hargs : List.Forall₂ (Value.Of known σ.roots) args (m.params.map (Ty.ofName ·.ty)))
    (hb : m.Breaks calls breaking (m.view seen cls) self args σ σ') : σ.roots <+: σ'.roots := by
  have hρ := Method.env_typed (V := m.view seen cls) rfl hself hargs
  cases hb with
  | body hb => exact hb.roots hk hV hcalls ha h.body hρ hσ
  | value hbody hb =>
    obtain ⟨ty, hvalue, _⟩ := h.value
    have hg := (Stmt.execAll_safe_of_forall
      (fun s hs => Stmt.exec_safe hk hV hcalls (h.body s hs)) hρ hσ).of_ok hbody
    exact hg.1.roots.trans (hb.roots hk hV hcalls ha hvalue hg.2 hg.1.typed)

namespace Routine

/-- The newest method breaks off where its run does. -/
theorem breaks_self (r : Routine) (earlier : List Routine) (self : Ref) (args : List Value) :
    breaks (r :: earlier) r.view.cls r.method.name self args =
      r.method.Breaks (Routine.calls earlier) (breaks earlier) r.view self args := by
  funext σ σ'
  rw [breaks, if_pos ⟨rfl, rfl⟩]

/-- An earlier method breaks off as if there was no newer one. -/
theorem breaks_of_ne {r r' : Routine} (earlier : List Routine) (h : r'.key ≠ r.key) (self : Ref)
    (args : List Value) :
    breaks (r :: earlier) r'.view.cls r'.method.name self args =
      breaks earlier r'.view.cls r'.method.name self args := by
  funext σ σ'
  rw [breaks, if_neg]
  rintro ⟨hcls, hname⟩
  exact h (by rw [key, key, hcls, hname])

/-- Until a call of linked methods breaks off, objects are only added. -/
theorem breaks_roots (hk : known.Regular) {rs : List Routine} (hl : Linked rs)
    (ht : ∀ r ∈ rs, r.Typed mark known) : ∀ r ∈ rs,
    (breaks rs).Adds known r.view.cls r.method.name (r.method.params.map (Ty.ofName ·.ty)) := by
  induction rs with
  | nil => simp
  | cons r earlier ih =>
    have htyped : ∀ r ∈ earlier, r.Typed mark known :=
      fun r' hr' => ht r' (List.mem_cons_of_mem _ hr')
    have ih := ih hl.2.2 htyped
    intro r' hr' σ self args σ' hσ hself hargs hb
    rcases List.mem_cons.mp hr' with rfl | hr'
    · have hr := ht r' List.mem_cons_self
      have hcalls := hl.callsSound hk htyped
      have hadds : r'.view.CallsAdd known (breaks earlier) := by
        intro cls method owner result params hres
        obtain ⟨r'', hmem, rfl, rfl, rfl, rfl⟩ := hl.called hres
        exact ih r'' hmem
      have hwithin := hr.within
      -- the declared types speak of the view of the method, so the goal has to as well
      rw [breaks_self, hr.view] at hb
      rw [hr.view] at hcalls hadds hwithin
      exact hb.roots hk hwithin hcalls hadds hr.derives hσ hself hargs
    · rw [breaks_of_ne earlier (hl.2.1 r' hr')] at hb
      exact ih r' hr' σ self args σ' hσ hself hargs hb

end Routine

end ClassLang
