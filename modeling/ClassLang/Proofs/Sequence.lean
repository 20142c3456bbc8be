import ClassLang.Lowering.Expr

/-! # Sequences that go through

    A sequence of two steps has a result exactly if its first step has one and
    its second step has one from there.  One lemma for each kind of step:

    * **`except_bind_ok_iff`** for steps that may fail;
    * **`state_bind_ok_iff`** for steps that also have a state, and
      **`state_lift_ok_iff`** for such steps that leave it alone;
    * **`estate_bind_ok_iff`** for steps that change a state and may fail.

    It fails if its first step fails, or its second step from there:
    **`state_bind_error_iff`**. -/

namespace ClassLang

variable {ε σ α β : Type}

theorem except_bind_ok_iff {x : Except ε α} {f : α → Except ε β} {b : β} :
    (x >>= f) = .ok b ↔ ∃ a, x = .ok a ∧ f a = .ok b := by
  cases x with
  | error _ => exact ⟨fun h => (by cases h), fun ⟨_, h, _⟩ => by cases h⟩
  | ok a =>
    refine ⟨fun h => ⟨a, rfl, h⟩, ?_⟩
    rintro ⟨_, ha, h⟩
    cases ha
    exact h

theorem except_ok_of_toOption {x : Except ε α} {a : α} (h : x.toOption = some a) : x = .ok a := by
  cases x with
  | error _ => cases h
  | ok _ =>
    cases h
    rfl

theorem state_bind_ok_iff {x : StateT σ (Except ε) α} {f : α → StateT σ (Except ε) β} {s t : σ}
    {b : β} : (x >>= f) s = .ok (b, t) ↔ ∃ a u, x s = .ok (a, u) ∧ f a u = .ok (b, t) := by
  refine except_bind_ok_iff.trans ?_
  constructor
  · rintro ⟨⟨a, u⟩, hx, hf⟩
    exact ⟨a, u, hx, hf⟩
  · rintro ⟨a, u, hx, hf⟩
    exact ⟨(a, u), hx, hf⟩

/-- A step that leaves the state alone. -/
theorem state_lift_ok_iff {x : Except ε α} {s t : σ} {a : α} :
    (liftM x : StateT σ (Except ε) α) s = .ok (a, t) ↔ x = .ok a ∧ t = s := by
  cases x with
  | error _ => exact ⟨fun h => (by cases h), fun h => (by cases h.1)⟩
  | ok a' =>
    constructor
    · intro h
      cases h
      exact ⟨rfl, rfl⟩
    · rintro ⟨h, rfl⟩
      cases h
      rfl

theorem state_bind_error_iff {x : StateT σ (Except ε) α} {f : α → StateT σ (Except ε) β} {s : σ}
    {e : ε} : (x >>= f) s = .error e ↔
      x s = .error e ∨ ∃ a u, x s = .ok (a, u) ∧ f a u = .error e := by
  have hbind : (x >>= f) s = (x s) >>= fun r => f r.1 r.2 := rfl
  rw [hbind]
  cases x s with
  | error e' =>
    refine ⟨fun h => (by cases h; exact Or.inl rfl), ?_⟩
    rintro (h | ⟨_, _, h, _⟩)
    · cases h
      rfl
    · cases h
  | ok r =>
    refine ⟨fun h => Or.inr ⟨r.1, r.2, rfl, h⟩, ?_⟩
    rintro (h | ⟨_, _, h, hf⟩)
    · cases h
    · cases h
      exact hf

theorem state_lift_error_iff {x : Except ε α} {s : σ} {e : ε} :
    (liftM x : StateT σ (Except ε) α) s = .error e ↔ x = .error e := by
  cases x with
  | error _ => exact ⟨fun h => (by cases h; rfl), fun h => (by cases h; rfl)⟩
  | ok _ => exact ⟨fun h => (by cases h), fun h => (by cases h)⟩

theorem estate_bind_ok_iff {x : EStateM ε σ α} {f : α → EStateM ε σ β} {s t : σ} {b : β} :
    (x >>= f) s = .ok b t ↔ ∃ a u, x s = .ok a u ∧ f a u = .ok b t := by
  simp only [bind, EStateM.bind]
  cases x s with
  | error _ _ => exact ⟨fun h => (by cases h), fun ⟨_, _, h, _⟩ => by cases h⟩
  | ok a u =>
    refine ⟨fun h => ⟨a, u, rfl, h⟩, ?_⟩
    rintro ⟨_, _, ha, h⟩
    cases ha
    exact h

end ClassLang
