import ClassLang.Typing.Program

/-! # Interfaces

    What one part of a program can see of the classes before it.

    * **`Interface`** is a class without its bodies: its name, its superclass
      and the types of its members.
    * **`Known`** is a list of interfaces, the newest first.  A superclass is
      always older than its subclasses, so every walk up a chain is a
      recursion on this list.
    * **`Known.lineage`**, **`resolve`**, **`Inherits`** and **`Assignable`**
      are inheritance as the rules of typing use it. -/

namespace ClassLang

/-! ## Classes without bodies -/

/-- What others see of a class. -/
structure Interface where
  name : String
  superclass : Option String
  /-- The declared fields in order. -/
  fields : List (String × Ty)
  /-- The declared methods in order, each with its signature. -/
  methods : List (String × Ty)
deriving DecidableEq

/-- All declared members, fields before methods. -/
def Interface.members (i : Interface) : List (String × Ty) := i.fields ++ i.methods

/-- The type of a member that the class itself declares. -/
def Interface.member? (i : Interface) (name : String) : Option Ty := i.members.lookup name

/-- The interface of a class declaration. -/
def ClassDecl.interface (c : ClassDecl) : Interface where
  name := c.name
  superclass := c.superclass
  fields := Declaration.variables c.fields
  methods := c.methods.map fun m => (m.name, m.signature)

/-- What a method sees of its own class: all fields, but only the methods
    `before` it. -/
def ClassDecl.upTo (c : ClassDecl) (before : List Method) : Interface :=
  { c with methods := before }.interface

/-! ## Known classes -/

/-- The classes that are visible at one place, the newest first. -/
abbrev Known := List Interface

namespace ClassDecl

/-- The classes of a list after those known before it, the newest first. -/
def knownAfter (older : Known) (classes : List ClassDecl) : Known :=
  (classes.map interface).reverse ++ older

@[simp] theorem knownAfter_nil (older : Known) : knownAfter older [] = older := rfl

@[simp] theorem knownAfter_cons (older : Known) (c : ClassDecl) (rest : List ClassDecl) :
    knownAfter older (c :: rest) = knownAfter (c.interface :: older) rest := by
  simp [knownAfter]

end ClassDecl

namespace Known

/-- Is there a class of this name? -/
def Declares (known : Known) (cls : String) : Prop := ∃ i ∈ known, i.name = cls

/-- The class of this name and then each of its ancestors.  The ancestors of a
    class are older than the class itself. -/
def lineage : Known → String → List Interface
  | [], _ => []
  | i :: older, cls =>
    if i.name = cls then
      i :: match i.superclass with
        | some parent => lineage older parent
        | none => []
    else lineage older cls

/-- The nearest class from `cls` upwards that declares `member`, and the type
    of that member. -/
def resolve (known : Known) (cls member : String) : Option (String × Ty) :=
  (known.lineage cls).findSome? fun i => (i.member? member).map (i.name, ·)

/-- `derived` is the class `base` or one of its descendants. -/
def Inherits (known : Known) (derived base : String) : Prop :=
  ∃ i ∈ known.lineage derived, i.name = base

/-- A value of the first type may stand where the second is asked for: an
    object may be of a descendant, all else has to be of the same type. -/
inductive Assignable (known : Known) : Ty → Ty → Prop where
  | int : Assignable known .int .int
  | bool : Assignable known .bool .bool
  | nothing : Assignable known .nothing .nothing
  | object {derived base : String} : known.Inherits derived base →
      Assignable known (.object derived) (.object base)

/-- Names are new and superclasses are older, for every class of the list. -/
def WellFormed : Known → Prop
  | [] => True
  | i :: older =>
    ¬ Declares older i.name ∧ (∀ parent, i.superclass = some parent → Declares older parent)
      ∧ WellFormed older

/-! ## Small facts -/

@[simp] theorem declares_nil (cls : String) : ¬ Declares [] cls := by
  simp [Declares]

@[simp] theorem declares_cons (i : Interface) (older : Known) (cls : String) :
    Declares (i :: older) cls ↔ i.name = cls ∨ Declares older cls := by
  simp [Declares]

/-- A chain that starts at the newest class goes on among the older ones. -/
theorem lineage_self (i : Interface) (older : Known) :
    lineage (i :: older) i.name =
      i :: match i.superclass with
        | some parent => lineage older parent
        | none => [] := by
  simp [lineage]

/-- A chain that starts elsewhere does not meet the newest class. -/
theorem lineage_of_ne {i : Interface} {older : Known} {cls : String} (h : i.name ≠ cls) :
    lineage (i :: older) cls = lineage older cls := by
  simp [lineage, h]

/-- Every class of a chain is one of the known classes. -/
theorem mem_of_mem_lineage {known : Known} {cls : String} {i : Interface}
    (h : i ∈ known.lineage cls) : i ∈ known := by
  induction known generalizing cls with
  | nil => simp [lineage] at h
  | cons j older ih =>
    by_cases hj : j.name = cls
    · subst hj
      rw [lineage_self] at h
      rcases List.mem_cons.mp h with rfl | h
      · exact List.mem_cons_self
      · cases hs : j.superclass with
        | none => simp [hs] at h
        | some parent => exact List.mem_cons_of_mem _ (ih (by simpa [hs] using h))
    · rw [lineage_of_ne hj] at h
      exact List.mem_cons_of_mem _ (ih h)

/-- A chain is empty exactly where there is no class of this name. -/
theorem lineage_ne_nil_iff {known : Known} {cls : String} :
    known.lineage cls ≠ [] ↔ known.Declares cls := by
  induction known with
  | nil => simp [lineage]
  | cons j older ih =>
    by_cases hj : j.name = cls
    · simp [lineage, hj]
    · simp [lineage_of_ne hj, hj, ih]

/-- Whoever inherits is declared. -/
theorem Inherits.declares_left {known : Known} {derived base : String}
    (h : known.Inherits derived base) : known.Declares derived := by
  obtain ⟨i, hi, _⟩ := h
  exact lineage_ne_nil_iff.mp (List.ne_nil_of_mem hi)

/-- Whoever is inherited from is declared. -/
theorem Inherits.declares_right {known : Known} {derived base : String}
    (h : known.Inherits derived base) : known.Declares base := by
  obtain ⟨i, hi, hn⟩ := h
  exact ⟨i, mem_of_mem_lineage hi, hn⟩

/-- A suffix of a well-formed list is well formed. -/
theorem WellFormed.of_append {newer known : Known} (h : WellFormed (newer ++ known)) :
    WellFormed known := by
  induction newer with
  | nil => exact h
  | cons i rest ih => exact ih h.2.2

/-- A class that is declared later has another name. -/
theorem WellFormed.name_ne {known : Known} {classes : List ClassDecl}
    (h : WellFormed (ClassDecl.knownAfter known classes)) {c : ClassDecl} (hc : c ∈ classes)
    {cls : String} (hd : known.Declares cls) : c.name ≠ cls := by
  induction classes generalizing known with
  | nil => cases hc
  | cons d rest ih =>
    rw [ClassDecl.knownAfter_cons] at h
    rcases List.mem_cons.mp hc with rfl | hc
    · rintro rfl
      exact (WellFormed.of_append h).1 hd
    · exact ih h hc ((declares_cons _ _ _).mpr (Or.inr hd))

/-- Classes that are declared later do not change a chain. -/
theorem lineage_knownAfter {known : Known} {classes : List ClassDecl} {cls : String}
    (h : ∀ c ∈ classes, c.name ≠ cls) :
    lineage (ClassDecl.knownAfter known classes) cls = lineage known cls := by
  induction classes generalizing known with
  | nil => rfl
  | cons c rest ih =>
    rw [ClassDecl.knownAfter_cons, ih fun d hd => h d (List.mem_cons_of_mem _ hd)]
    exact lineage_of_ne (h c List.mem_cons_self)

/-- A resolved member is declared by the class that the search gives. -/
theorem exists_of_resolve {known : Known} {cls member owner : String} {ty : Ty}
    (h : known.resolve cls member = some (owner, ty)) :
    ∃ i ∈ known.lineage cls, i.name = owner ∧ i.member? member = some ty := by
  obtain ⟨i, hi, heq⟩ := List.exists_of_findSome?_eq_some h
  obtain ⟨ty', hty, hpair⟩ := Option.map_eq_some_iff.mp heq
  cases hpair
  exact ⟨i, hi, rfl, hty⟩

/-- The owner of a resolved member is the class itself or an ancestor. -/
theorem inherits_of_resolve {known : Known} {cls member owner : String} {ty : Ty}
    (h : known.resolve cls member = some (owner, ty)) : known.Inherits cls owner := by
  obtain ⟨i, hi, hn, _⟩ := exists_of_resolve h
  exact ⟨i, hi, hn⟩

end Known

end ClassLang
