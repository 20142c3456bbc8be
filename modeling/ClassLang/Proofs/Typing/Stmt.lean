import ClassLang.Proofs.Typing.Expr
import ClassLang.Typing.Stmt

/-! # Checking statements is elaboration

    The counterpart for statements of what holds of expressions:
    **`Stmt.checkAll_yields_iff`** says that checking a bare body yields
    exactly its elaborated forms, and **`Stmt.exists_elaborated`** that a
    statement that follows the rules has one. -/

namespace ClassLang.Stmt

variable {t : Tables} {V : View}

/-- Forms of single statements make up a form of the whole body. -/
theorem exists_forms {Q : Stmt → Prop} {body : List Stmt}
    (h : ∀ s ∈ body, ∃ s' : Stmt, s'.erase = s.erase ∧ Q s') :
    ∃ body', eraseAll body' = eraseAll body ∧ ∀ s ∈ body', Q s := by
  induction body with
  | nil => exact ⟨[], rfl, by simp⟩
  | cons s rest ih =>
    obtain ⟨s', hs, hq⟩ := h s List.mem_cons_self
    obtain ⟨rest', hr, hqr⟩ := ih fun s hs => h s (List.mem_cons_of_mem _ hs)
    exact ⟨s' :: rest', by simp [eraseAll, hs, hr], by simpa using ⟨hq, hqr⟩⟩

/-- A statement that follows the rules has an elaborated form. -/
theorem exists_elaborated {s : Stmt} (h : s.Derives (fun _ _ _ => True) V) :
    ∃ s' : Stmt, s'.erase = s.erase ∧ s'.Derives Note.Records V := by
  induction h with
  | @assign line name value _ _ hv hx hs ha =>
    obtain ⟨value', he, hv⟩ := Expr.HasType.exists_elaborated hv
    exact ⟨.assign line name value', by simp [erase, he], .assign hv hx hs ha⟩
  | @cond line test body ht _ ih =>
    obtain ⟨test', he, ht⟩ := Expr.HasType.exists_elaborated ht
    obtain ⟨body', hb, hd⟩ := exists_forms ih
    exact ⟨.cond line test' body', by simp [erase, he, hb], .cond ht hd⟩
  | @print line value _ hv hty =>
    obtain ⟨value', he, hv⟩ := Expr.HasType.exists_elaborated hv
    exact ⟨.print line value', by simp [erase, he], .print hv hty⟩

/-- Checking a sequence goes through if it does for each statement. -/
theorem checkAll_yields_of_forall {ctx : Context} {body : List Stmt}
    (h : ∀ s ∈ body, (s.erase.check ctx).Yields s ()) :
    (checkAll ctx (eraseAll body)).Yields body () := by
  induction body with
  | nil => simp [eraseAll, checkAll]
  | cons s rest ih =>
    rw [eraseAll, checkAll, Outcome.andThen_yields]
    refine ⟨s, (), h s List.mem_cons_self, ?_⟩
    rw [Outcome.andThen_yields]
    exact ⟨rest, (), ih fun s hs => h s (List.mem_cons_of_mem _ hs), by simp⟩

/-- Checking the bare form of an elaborated statement yields the statement. -/
theorem check_yields (ht : t.InMethod V) {s : Stmt} (h : s.Derives Note.Records V) :
    (s.erase.check { tables := t, cls := V.cls }).Yields s () := by
  induction h with
  | @assign line name value left right hv hx hs ha =>
    rw [erase, check, Outcome.andThen_yields]
    refine ⟨value, right, Expr.Elaborated.check_yields ht hv, ?_⟩
    have hassign : t.assignment? left right = none := ht.assignment?_eq_none_iff.mpr ⟨hs, ha⟩
    simp [ht.variableType_eq, hx, hassign]
  | @cond line test body hv _ ih =>
    rw [erase, check, Outcome.andThen_yields]
    refine ⟨test, .bool, Expr.Elaborated.check_yields ht hv, ?_⟩
    rw [if_pos rfl, Outcome.andThen_yields]
    exact ⟨body, (), checkAll_yields_of_forall ih, by simp⟩
  | @print line value ty hv hty =>
    rw [erase, check, Outcome.andThen_yields]
    refine ⟨value, ty, Expr.Elaborated.check_yields ht hv, ?_⟩
    rw [if_pos (by simpa using hty)]
    simp

mutual

/-- What checking a bare statement yields is an elaborated form of it. -/
theorem elaborated_of_check (ht : t.InMethod V) : ∀ {s s' : Stmt}, s.erase = s →
    (s.check { tables := t, cls := V.cls }).Yields s' () →
    s'.erase = s ∧ s'.Derives Note.Records V
  | .assign line name value, s', hb, h => by
    simp only [erase, assign.injEq, true_and] at hb
    obtain ⟨value', right, hv, h⟩ := Outcome.andThen_yields.mp (check.eq_1 .. ▸ h)
    obtain ⟨hev, hv⟩ := Expr.elaborated_of_check ht hb hv
    rw [ht.variableType_eq] at h
    cases hx : V.varTy? name with
    | none =>
      rw [hx] at h
      exact absurd h Outcome.violated_yields
    | some left =>
      simp only [hx] at h
      cases hassign : t.assignment? left right with
      | some rule =>
        rw [hassign] at h
        exact absurd h Outcome.violated_yields
      | none =>
        rw [hassign] at h
        obtain ⟨rfl, _⟩ := Outcome.done_yields.mp h
        obtain ⟨hs, ha⟩ := ht.assignment?_eq_none_iff.mp hassign
        exact ⟨by rw [erase, hev], .assign hv hx hs ha⟩
  | .cond line test body, s', hb, h => by
    simp only [erase, cond.injEq, true_and] at hb
    obtain ⟨test', ty, hv, h⟩ := Outcome.andThen_yields.mp (check.eq_2 .. ▸ h)
    obtain ⟨hev, hv⟩ := Expr.elaborated_of_check ht hb.1 hv
    split at h
    · next hty =>
      obtain ⟨body', _, hbody, h⟩ := Outcome.andThen_yields.mp h
      obtain ⟨rfl, _⟩ := Outcome.done_yields.mp h
      obtain ⟨heb, hd⟩ := elaborated_of_checkAll ht hb.2 hbody
      exact ⟨by rw [erase, hev, heb], .cond (hty ▸ hv) hd⟩
    · exact absurd h Outcome.violated_yields
  | .print line value, s', hb, h => by
    simp only [erase, print.injEq, true_and] at hb
    obtain ⟨value', ty, hv, h⟩ := Outcome.andThen_yields.mp (check.eq_3 .. ▸ h)
    obtain ⟨hev, hv⟩ := Expr.elaborated_of_check ht hb hv
    split at h
    · next hty =>
      obtain ⟨rfl, _⟩ := Outcome.done_yields.mp h
      exact ⟨by rw [erase, hev], .print hv (by simpa using hty)⟩
    · exact absurd h Outcome.violated_yields

/-- What checking a bare body yields is an elaborated form of each statement. -/
theorem elaborated_of_checkAll (ht : t.InMethod V) : ∀ {body body' : List Stmt},
    eraseAll body = body → (checkAll { tables := t, cls := V.cls } body).Yields body' () →
    eraseAll body' = body ∧ ∀ s ∈ body', s.Derives Note.Records V
  | [], _, _, h => by
    obtain ⟨rfl, _⟩ := Outcome.done_yields.mp (checkAll.eq_1 .. ▸ h)
    exact ⟨rfl, by simp⟩
  | s :: rest, _, hb, h => by
    simp only [eraseAll, List.cons.injEq] at hb
    obtain ⟨s', _, hs, h⟩ := Outcome.andThen_yields.mp (checkAll.eq_2 .. ▸ h)
    obtain ⟨rest', _, hr, h⟩ := Outcome.andThen_yields.mp h
    obtain ⟨rfl, _⟩ := Outcome.done_yields.mp h
    obtain ⟨hes, hs⟩ := elaborated_of_check ht hb.1 hs
    obtain ⟨her, hr⟩ := elaborated_of_checkAll ht hb.2 hr
    exact ⟨by rw [eraseAll, hes, her], by simpa using ⟨hs, hr⟩⟩

end

/-- Checking a bare body yields exactly its elaborated forms. -/
theorem checkAll_yields_iff (ht : t.InMethod V) {body body' : List Stmt}
    (hb : eraseAll body = body) :
    (checkAll { tables := t, cls := V.cls } body).Yields body' () ↔
      eraseAll body' = body ∧ ∀ s ∈ body', s.Derives Note.Records V := by
  constructor
  · exact elaborated_of_checkAll ht hb
  · rintro ⟨rfl, hd⟩
    exact checkAll_yields_of_forall fun s hs => check_yields ht (hd s hs)

end ClassLang.Stmt
