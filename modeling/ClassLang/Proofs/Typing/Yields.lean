import ClassLang.Typing.Outcome

/-! # Outcomes with a result

    * **`Outcome.Yields`** says that checking went through: the annotated tree
      and the result.

    One lemma for each way in which an outcome is built turns a statement
    about a whole pass into one about its parts. -/

namespace ClassLang.Outcome

variable {τ σ α β : Type}

/-- Checking went through with this annotated tree and this result. -/
def Yields (o : Outcome τ α) (tree : τ) (a : α) : Prop := o.tree = tree ∧ o.result = .ok a

/-- What an outcome yields is unique. -/
theorem Yields.unique {o : Outcome τ α} {t u : τ} {a b : α} (h : o.Yields t a)
    (h' : o.Yields u b) : t = u ∧ a = b := by
  refine ⟨h.1.symm.trans h'.1, ?_⟩
  have hab : Except.ok a = (Except.ok b : Except Halt α) := h.2.symm.trans h'.2
  exact Except.ok.inj hab

@[simp] theorem yields_mk {tree t : τ} {journal : List Event} {r : Except Halt α} {a : α} :
    (Outcome.mk tree journal r).Yields t a ↔ tree = t ∧ r = .ok a := Iff.rfl

@[simp] theorem done_yields {tree t : τ} {a b : α} :
    (done tree a).Yields t b ↔ tree = t ∧ a = b := by
  simp [done]

@[simp] theorem stop_yields {tree t : τ} {h : Halt} {a : α} :
    ¬ (stop tree h : Outcome τ α).Yields t a := by
  simp [stop]

@[simp] theorem violated_yields {tree t : τ} {rule : Rule} {line : Nat} {a : α} :
    ¬ (violated tree rule line : Outcome τ α).Yields t a := by
  simp [violated]

@[simp] theorem after_yields {event : Event} {o : Outcome τ α} {t : τ} {a : α} :
    (after event o).Yields t a ↔ o.Yields t a := Iff.rfl

/-- A sequence goes through exactly if both its parts do. -/
theorem andThen_yields {o : Outcome τ α} {unfinished : τ → σ} {next : τ → α → Outcome σ β}
    {t : σ} {b : β} :
    (o.andThen unfinished next).Yields t b ↔
      ∃ u a, o.Yields u a ∧ (next u a).Yields t b := by
  obtain ⟨tree, journal, result⟩ := o
  cases result with
  | error h => simp [andThen]
  | ok a =>
    constructor
    · intro h
      exact ⟨tree, a, ⟨rfl, rfl⟩, h⟩
    · rintro ⟨u, a', ⟨hu, ha⟩, h⟩
      cases hu
      cases ha
      exact h

end ClassLang.Outcome
