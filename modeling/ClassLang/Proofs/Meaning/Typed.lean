import ClassLang.Proofs.Layout.Paths
import ClassLang.Proofs.Meaning.Program

/-! # Typed values and stores

    What the rules of typing promise of the values in a run.

    * **`Value.Of`**: a value is of a type.  A reference is of a class if the
      way to its object leads to an object of a descendant.
    * **`Store.Typed`** and **`Env.Typed`**: fields and variables have values
      of their types.  Each operation on stores keeps this, also the one that
      copies objects (**`Store.Typed.copy`**).
    * **`Store.Grows`** is what a run does to a store.  -/

namespace ClassLang

/-! ## Values -/

variable {known : Known} {roots roots' : List String} {v : Value} {ty : Ty}

/-- The value is of the type. -/
inductive Value.Of (known : Known) (roots : List String) : Value → Ty → Prop where
  | int {w} : Of known roots (.int w) .int
  | bool {b} : Of known roots (.bool b) .bool
  | nothing : Of known roots .nothing .nothing
  | object {r root d cls k} : roots[r.root]? = some root →
      known.Leads (.object root) r.path (.object d) k → known.Inherits d cls →
      Of known roots (.object r) (.object cls)

/-- More objects change nothing for the values that there are. -/
theorem Value.Of.mono (h : v.Of known roots ty) (hr : roots <+: roots') :
    v.Of known roots' ty := by
  cases h with
  | int => exact .int
  | bool => exact .bool
  | nothing => exact .nothing
  | object hroot hleads hi =>
    obtain ⟨more, rfl⟩ := hr
    refine .object ?_ hleads hi
    rw [List.getElem?_append_left (List.getElem?_eq_some_iff.mp hroot).1]
    exact hroot

/-- A value that may stand for a type is of that type. -/
theorem Value.Of.assign (hwf : known.WellFormed) (h : v.Of known roots ty) {target : Ty}
    (ha : known.Assignable ty target) : v.Of known roots target := by
  cases ha with
  | object hi =>
    obtain _ | _ | _ | ⟨hroot, hleads, hi'⟩ := h
    exact .object hroot hleads (hi'.trans hwf hi)
  | _ => exact h

/-! ## Stores -/

/-- Fields that are not cleared are those of objects that were made, and every
    field that was assigned to has a value of its type. -/
structure Store.Typed (known : Known) (σ : Store) : Prop where
  made : ∀ r, σ.cells r ≠ .cleared → r.root < σ.roots.length
  cells : ∀ r v, σ.cells r = .value v → ∀ root u k, σ.roots[r.root]? = some root →
    known.Leads (.object root) r.path u k → v.Of known σ.roots u

/-- What a run keeps: objects stay, and the store stays typed. -/
structure Store.Grows (known : Known) (σ σ' : Store) : Prop where
  roots : σ.roots <+: σ'.roots
  typed : σ'.Typed known

variable {σ σ' σ'' : Store}

theorem Store.Grows.refl (h : σ.Typed known) : σ.Grows known σ := ⟨List.prefix_rfl, h⟩

theorem Store.Grows.trans (h : σ.Grows known σ') (h' : σ'.Grows known σ'') :
    σ.Grows known σ'' :=
  ⟨h.roots.trans h'.roots, h'.typed⟩

/-- The fields of a new object are cleared. -/
theorem Store.Typed.make (h : σ.Typed known) (cls : String) :
    σ.Grows known (σ.make cls).2 where
  roots := List.prefix_append _ _
  typed := by
    refine ⟨fun r hr => ?_, fun r v hr root u k hroot hleads => ?_⟩
    · have hlt := h.made r hr
      simp only [Store.make, List.length_append, List.length_singleton]
      omega
    · have hlt := h.made r (by rw [show σ.cells r = .value v from hr]; exact Cell.noConfusion)
      simp only [Store.make] at hroot
      rw [List.getElem?_append_left hlt] at hroot
      exact (h.cells r v hr root u k hroot hleads).mono (List.prefix_append _ _)

/-- A field takes a value of its type. -/
theorem Store.Typed.set (hk : known.Regular) (h : σ.Typed known) {r : Ref} {root : String} {k : Int}
    (hroot : σ.roots[r.root]? = some root) (hleads : known.Leads (.object root) r.path ty k)
    (hv : v.Of known σ.roots ty) : σ.Grows known (σ.set r v) where
  roots := List.prefix_rfl
  typed := by
    refine ⟨fun r' hr' => ?_, fun r' v' hr' root' u k' hroot' hleads' => ?_⟩
    · simp only [Store.set] at hr'
      by_cases heq : r' = r
      · subst heq
        exact (List.getElem?_eq_some_iff.mp hroot).1
      · rw [if_neg heq] at hr'
        exact h.made r' hr'
    · simp only [Store.set] at hr' hroot'
      by_cases heq : r' = r
      · subst heq
        rw [if_pos rfl] at hr'
        cases hr'
        cases hroot.symm.trans hroot'
        obtain ⟨rfl, _⟩ := hleads.unique hk hleads'
        exact hv
      · rw [if_neg heq] at hr'
        exact h.cells r' v' hr' root' u k' hroot' hleads'

/-- A field that holds an object takes the fields of an object that may stand
    there. -/
theorem Store.Typed.copy (hk : known.Regular) (h : σ.Typed known) {source target : Ref}
    {root cls : String} {k : Int} (hroot : σ.roots[target.root]? = some root)
    (hleads : known.Leads (.object root) target.path (.object cls) k)
    (hsource : (Value.object source).Of known σ.roots (.object cls)) :
    σ.Grows known (σ.copy source target) where
  roots := List.prefix_rfl
  typed := by
    have hlt := (List.getElem?_eq_some_iff.mp hroot).1
    refine ⟨fun r hr => ?_, fun r v hr root' u k' hroot' hleads' => ?_⟩
    · simp only [Store.copy] at hr
      split at hr
      · rename_i hin
        exact hin.1 ▸ hlt
      · exact h.made r hr
    · simp only [Store.copy] at hr hroot'
      split at hr
      · rename_i hin
        obtain ⟨hr0, ⟨rest, hrest⟩, hne⟩ := hin
        rw [← hrest] at hr hne hleads'
        rw [List.drop_left] at hr
        rw [hr0, hroot] at hroot'
        cases hroot'
        obtain ⟨w, l, l', hw, hu, _⟩ := hleads'.split
        obtain ⟨rfl, _⟩ := hleads.unique hk hw
        have hrest : rest ≠ [] := fun heq => hne (by rw [heq, List.append_nil])
        obtain _ | _ | _ | ⟨hsroot, hsleads, hi⟩ := hsource
        exact h.cells _ v hr _ u _ hsroot (hsleads.append (hu.inherited hk hi hrest))
      · exact h.cells r v hr root' u k' hroot' hleads'

theorem Store.Typed.print (h : σ.Typed known) (printed : List Int) :
    σ.Grows known { σ with printed } where
  roots := List.prefix_rfl
  typed := ⟨h.made, h.cells⟩

/-! ## Views and environments -/

/-- What is seen is declared so in the whole program. -/
structure View.Within (V : View) (known : Known) : Prop where
  inherits : ∀ {a b}, V.known.Inherits a b → known.Inherits a b
  field : ∀ {x owner ty}, V.known.resolve V.cls x = some (owner, ty) → ty.Plain →
    ∃ s, known.HasField V.cls ⟨owner, x⟩ s ∧ s.ty = ty

theorem View.Within.assignable {V : View} (h : V.Within known) {source target : Ty}
    (ha : V.known.Assignable source target) : known.Assignable source target := by
  cases ha with
  | int => exact .int
  | bool => exact .bool
  | nothing => exact .nothing
  | object hi => exact .object (h.inherits hi)

/-- The method runs on an object of its class, and variables that have values
    have values of their types. -/
structure Env.Typed (known : Known) (roots : List String) (V : View) (ρ : Env) : Prop where
  self : (Value.object ρ.self).Of known roots (.object V.cls)
  vars : ∀ {x ty v}, V.vars.lookup x = some ty → ρ.vars x = some v → v.Of known roots ty

variable {V : View} {ρ : Env}

theorem Env.Typed.mono (h : ρ.Typed known roots V) (hr : roots <+: roots') :
    ρ.Typed known roots' V where
  self := h.self.mono hr
  vars := fun hx hv => (h.vars hx hv).mono hr

/-- The way to a field of the object on which a method runs. -/
theorem Env.Typed.field (hk : known.Regular) (hV : V.Within known) (h : ρ.Typed known roots V)
    {x owner : String} (hr : V.known.resolve V.cls x = some (owner, ty)) (hp : ty.Plain) :
    ∃ root k s, roots[ρ.self.root]? = some root ∧ known.HasField V.cls ⟨owner, x⟩ s ∧ s.ty = ty ∧
      (∃ d, known.Leads (.object root) ρ.self.path (.object d) k ∧ known.Inherits d V.cls) ∧
      known.Leads (.object root) (ρ.self.sub owner x).path ty (k + s.offset) := by
  obtain ⟨s, hs, hty⟩ := hV.field hr hp
  have hself := h.self
  generalize hval : Value.object ρ.self = val at hself
  obtain _ | _ | _ | ⟨hroot, hleads, hi⟩ := hself
  cases hval
  refine ⟨_, _, s, hroot, hs, hty, ⟨_, hleads, hi⟩, ?_⟩
  have hstep : known.Leads (.object _) [⟨owner, x⟩] ty (s.offset + 0) :=
    .field (hs.inherited hk hi) (hty ▸ .here)
  rw [Int.add_zero] at hstep
  exact hleads.append hstep

end ClassLang
