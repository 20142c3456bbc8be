import ClassLang.Scope
import Mathlib.Data.List.Nodup

/-! # Binding names in one scope

    What declaring names does to the tree of scopes.

    * **`ScopeTree.Binds`**: one scope has gained some bindings, and nothing
      else has changed.
    * **`ScopeTree.insertIn_binds`** and **`insertAll_binds`** say that
      inserting does just this, and **`insertAll_isSome_iff`** when it can be
      done at all. -/

namespace ClassLang

/-! ## Lists of bindings -/

/-- A name is not found exactly if it is not bound. -/
theorem lookup_eq_none_iff_names {bs : List (String × Ty)} {x : String} :
    bs.lookup x = none ↔ x ∉ bs.map (·.1) := by
  simp only [List.lookup_eq_none_iff, List.mem_map, not_exists, not_and]
  constructor
  · rintro h b hb rfl
    simpa using h b hb
  · intro h b hb
    simpa using fun heq => h b hb heq.symm

/-- What is found is one of the bindings. -/
theorem mem_of_lookup {β : Type} {bs : List (String × β)} {x : String} {b : β}
    (h : bs.lookup x = some b) : (x, b) ∈ bs := by
  obtain ⟨before, after, rfl, _⟩ := List.lookup_eq_some_iff.mp h
  simp

/-- Where no name is bound twice, every binding is found. -/
theorem lookup_of_mem {bs : List (String × Ty)} {x : String} {ty : Ty}
    (hd : (bs.map (·.1)).Nodup) (h : (x, ty) ∈ bs) : bs.lookup x = some ty := by
  induction bs with
  | nil => cases h
  | cons b rest ih =>
    obtain ⟨y, ty'⟩ := b
    obtain ⟨hy, hrest⟩ := List.nodup_cons.mp hd
    rcases List.mem_cons.mp h with heq | h
    · cases heq
      simp
    · have hx : x ∈ rest.map (·.1) := List.mem_map_of_mem h
      have hne : (x == y) = false := by
        have : x ≠ y := fun heq => hy (heq ▸ hx)
        simpa using this
      rw [List.lookup_cons, hne]
      exact ih hrest h

/-! ## One scope gains bindings -/

namespace ScopeTree

/-- Scope `number` has gained the bindings `bs`, and nothing else is changed. -/
structure Binds (t u : ScopeTree) (number : Nat) (bs : List (String × Ty)) : Prop where
  current : u.current = t.current
  enclosing : u.enclosing = t.enclosing
  size : u.scopes.size = t.scopes.size
  here : ∀ x, u.lookupIn number x = (t.lookupIn number x).or (bs.lookup x)
  elsewhere : ∀ n, n ≠ number → ∀ x, u.lookupIn n x = t.lookupIn n x

theorem Binds.refl (t : ScopeTree) (number : Nat) : t.Binds t number [] where
  current := rfl
  enclosing := rfl
  size := rfl
  here := by simp
  elsewhere := fun _ _ _ => rfl

theorem Binds.trans {t u v : ScopeTree} {number : Nat} {bs cs : List (String × Ty)}
    (h : t.Binds u number bs) (h' : u.Binds v number cs) : t.Binds v number (bs ++ cs) where
  current := h'.current.trans h.current
  enclosing := h'.enclosing.trans h.enclosing
  size := h'.size.trans h.size
  here := by
    intro x
    rw [h'.here, h.here, List.lookup_append, Option.or_assoc]
  elsewhere := fun n hn x => (h'.elsewhere n hn x).trans (h.elsewhere n hn x)

/-- Inserting a name into an open scope binds it there. -/
theorem insertIn_binds {t u : ScopeTree} {number : Nat} {name : String} {ty : Ty}
    (hn : number < t.scopes.size) (h : t.insertIn number name ty = some u) :
    t.Binds u number [(name, ty)] := by
  have hlook := lookupIn_insertIn h
  have hnone : t.lookupIn number name = none := by
    cases hl : t.lookupIn number name with
    | none => rfl
    | some _ => simp [insertIn, hl] at h
  unfold insertIn at h
  rw [hnone] at h
  cases h
  refine ⟨rfl, rfl, by simp, ?_, ?_⟩
  · intro x
    rw [hlook]
    by_cases hx : x = name
    · simp [hx, hn, hnone]
    · have hne : [(name, ty)].lookup x = none := lookup_eq_none_iff_names.mpr (by simpa using hx)
      simp [hx, hne]
  · intro n hne x
    rw [hlook]
    simp [hne]

/-- A name can be inserted exactly where the scope does not bind it. -/
theorem insertIn_isSome_iff {t : ScopeTree} {number : Nat} {name : String} {ty : Ty} :
    (t.insertIn number name ty).isSome ↔ t.lookupIn number name = none := by
  unfold insertIn
  cases t.lookupIn number name <;> simp

/-- Inserting names one after another binds them all. -/
theorem insertAll_binds {t u : ScopeTree} {bs : List (String × Ty)}
    (hn : t.current < t.scopes.size) (h : t.insertAll bs = some u) :
    t.Binds u t.current bs := by
  induction bs generalizing t with
  | nil =>
    cases h
    exact Binds.refl _ _
  | cons b rest ih =>
    obtain ⟨name, ty⟩ := b
    obtain ⟨v, hv, hu⟩ := Option.bind_eq_some_iff.mp h
    have hb := insertIn_binds hn hv
    have hrest := ih (by rw [hb.current, hb.size]; exact hn) hu
    rw [hb.current] at hrest
    exact hb.trans hrest

/-- Names can be inserted exactly if they are distinct and the scope binds none
    of them. -/
theorem insertAll_isSome_iff {t : ScopeTree} (hn : t.current < t.scopes.size)
    (bs : List (String × Ty)) :
    (t.insertAll bs).isSome ↔
      (bs.map (·.1)).Nodup ∧ ∀ x ∈ bs.map (·.1), t.lookupIn t.current x = none := by
  induction bs generalizing t with
  | nil => simp [insertAll]
  | cons b rest ih =>
    obtain ⟨name, ty⟩ := b
    cases hv : t.insert name ty with
    | none =>
      have hbound : t.lookupIn t.current name ≠ none := by
        intro hnone
        have hsome : (t.insertIn t.current name ty).isSome := insertIn_isSome_iff.mpr hnone
        rw [show t.insertIn t.current name ty = none from hv] at hsome
        cases hsome
      simp [insertAll, hv, hbound]
    | some v =>
      have hb := insertIn_binds hn hv
      have hfree : t.lookupIn t.current name = none :=
        insertIn_isSome_iff.mp (by rw [show t.insertIn t.current name ty = some v from hv]; rfl)
      have hstep : (t.insertAll ((name, ty) :: rest)).isSome ↔ (v.insertAll rest).isSome := by
        simp [insertAll, hv]
      rw [hstep, ih (by rw [hb.current, hb.size]; exact hn), hb.current]
      simp only [List.map_cons, List.nodup_cons, List.forall_mem_cons, hfree, true_and]
      constructor
      · rintro ⟨hnd, hfrees⟩
        have hname : name ∉ rest.map (·.1) := by
          intro hmem
          have := hfrees name hmem
          rw [hb.here, hfree] at this
          simp at this
        refine ⟨⟨hname, hnd⟩, ?_⟩
        intro x hx
        have := hfrees x hx
        rw [hb.here] at this
        exact (Option.or_eq_none_iff.mp this).1
      · rintro ⟨⟨hname, hnd⟩, hfrees⟩
        refine ⟨hnd, ?_⟩
        intro x hx
        rw [hb.here, hfrees x hx]
        have hne : (x == name) = false := by
          have : x ≠ name := fun heq => hname (heq ▸ hx)
          simpa using this
        simp [List.lookup_cons, hne]

end ScopeTree

end ClassLang
