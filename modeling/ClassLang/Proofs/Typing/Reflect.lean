import ClassLang.Proofs.Typing.Bindings
import ClassLang.Proofs.Typing.Rules
import Mathlib.Data.List.Forall2

/-! # Tables and known classes

    The tables that checking keeps, seen as a list of known classes.

    * **`Tables.Reflects`**: the registered classes are exactly the known ones,
      and the scope of each binds exactly its members.
    * Under this relation every question that checking asks of its tables has
      the answer that the rules give: **`contains_iff`**, **`isSubclass_iff`**,
      **`resolve_eq`**, and on top of them **`typeOf_ok_iff`**,
      **`assignable_iff`** and **`assignment?_eq_none_iff`**. -/

namespace ClassLang

/-! ## Types that can be written -/

/-- A type without a signature. -/
def Ty.Plain : Ty → Prop
  | .func .. => False
  | .int | .bool | .nothing | .object _ => True

/-- A signature is made of types without signatures. -/
def Ty.Written : Ty → Prop
  | .func result params => result.Plain ∧ ∀ p ∈ params, p.Plain
  | .int | .bool | .nothing | .object _ => True

theorem Ty.ofName_plain (name : TypeName) : (Ty.ofName name).Plain := by
  cases name <;> trivial

theorem Ty.Plain.written {ty : Ty} (h : ty.Plain) : ty.Written := by
  cases ty with
  | func => exact h.elim
  | _ => trivial

theorem Method.signature_written (m : Method) : m.signature.Written := by
  refine ⟨Ty.ofName_plain _, ?_⟩
  intro p hp
  obtain ⟨q, _, rfl⟩ := List.mem_map.mp hp
  exact Ty.ofName_plain _

/-- All member types of the known classes can be written in declarations. -/
def Known.Written (known : Known) : Prop := ∀ i ∈ known, ∀ b ∈ i.members, b.2.Written

/-- A resolved method takes and gives only what declarations can write. -/
theorem Known.Written.of_resolve {known : Known} (hw : known.Written)
    {cls member owner : String} {ty : Ty} (h : known.resolve cls member = some (owner, ty)) :
    ty.Written := by
  obtain ⟨i, hi, _, hm⟩ := Known.exists_of_resolve h
  exact hw i (Known.mem_of_mem_lineage hi) _ (mem_of_lookup hm)

/-! ## The relation -/

/-- The entry and its scope show this interface. -/
structure ClassEntry.Shows (scopes : ScopeTree) (e : ClassEntry) (i : Interface) : Prop where
  name : e.name = i.name
  parent : e.parent = i.superclass
  members : ∀ x, scopes.lookupIn e.scope x = i.member? x

/-- The tables hold exactly the known classes. -/
structure Tables.Reflects (t : Tables) (known : Known) : Prop where
  entries : List.Forall₂ (ClassEntry.Shows t.scopes) t.classes.entries known
  wellFormed : known.WellFormed
  written : known.Written
  /-- The root scope binds nothing. -/
  root : ∀ x, t.scopes.lookupIn 0 x = none
  /-- The root and the classes have scopes of their own. -/
  distinct : (0 :: t.classes.entries.map ClassEntry.scope).Nodup
  opened : ∀ n ∈ 0 :: t.classes.entries.map ClassEntry.scope, n < t.scopes.scopes.size

/-! ## Looking up classes -/

/-- Entries that show interfaces are found by the same names. -/
theorem find?_isSome_of_shows {scopes : ScopeTree} {entries : List ClassEntry} {known : Known}
    (h : List.Forall₂ (ClassEntry.Shows scopes) entries known) (cls : String) :
    (entries.find? (·.name == cls)).isSome ↔ known.Declares cls := by
  induction h with
  | nil => simp
  | @cons e i entries known hs _ ih =>
    by_cases he : e.name = cls
    · simp [he, hs.name.symm]
    · have hi : i.name ≠ cls := hs.name ▸ he
      have hb : (e.name == cls) = false := by simpa using he
      simp only [List.find?_cons, hb, Known.declares_cons, hi, false_or]
      exact ih

/-- A walk through a suffix of the entries follows the chain of the known
    classes, since superclasses are never newer. -/
theorem chain_shows {h : Hierarchy} {scopes : ScopeTree} {entries : List ClassEntry}
    {known : Known} (hs : List.Forall₂ (ClassEntry.Shows scopes) entries known)
    (hwf : known.WellFormed)
    (hfind : ∀ cls, known.Declares cls → h.find? cls = entries.find? (·.name == cls))
    {n : Nat} (hn : entries.length ≤ n) {cls : String} (hcls : known.Declares cls) :
    List.Forall₂ (ClassEntry.Shows scopes) (h.chain n (h.find? cls)) (known.lineage cls) := by
  induction hs generalizing n cls with
  | nil => exact absurd hcls (Known.declares_nil cls)
  | @cons e i entries known hei _ ih =>
    obtain ⟨hnew, hparent, hwf⟩ := hwf
    have hfind' : ∀ c, Known.Declares known c → h.find? c = entries.find? (·.name == c) := by
      intro c hc
      have hne : (e.name == c) = false := by
        have : e.name ≠ c := by
          rintro rfl
          exact hnew (hei.name ▸ hc)
        simpa using this
      rw [hfind c ((Known.declares_cons _ _ _).mpr (Or.inr hc)), List.find?_cons, hne]
    obtain ⟨n, rfl⟩ : ∃ m, n = m + 1 := ⟨n - 1, by simp at hn; omega⟩
    simp only [List.length_cons, Nat.add_le_add_iff_right] at hn
    by_cases hi : i.name = cls
    · subst hi
      have he : h.find? i.name = some e := by
        rw [hfind _ hcls]
        simp [hei.name]
      rw [he, Known.lineage_self]
      refine List.Forall₂.cons hei ?_
      cases hsup : i.superclass with
      | none =>
        have : h.parent? e = none := by simp [Hierarchy.parent?, hei.parent, hsup]
        rw [this]
        cases n <;> exact List.Forall₂.nil
      | some parent =>
        have : h.parent? e = h.find? parent := by
          simp [Hierarchy.parent?, hei.parent, hsup]
        rw [this]
        exact ih hwf hfind' hn (hparent parent hsup)
    · have hc : Known.Declares known cls := by simpa [hi] using hcls
      rw [Known.lineage_of_ne hi]
      exact ih hwf hfind' (Nat.le_succ_of_le hn) hc

/-- A class lies on a chain of entries exactly if it lies on the chain that
    they show. -/
theorem any_name_iff_of_shows {scopes : ScopeTree} {entries : List ClassEntry}
    {chain : List Interface} (h : List.Forall₂ (ClassEntry.Shows scopes) entries chain)
    (base : String) :
    entries.any (·.name == base) = true ↔ ∃ i ∈ chain, i.name = base := by
  induction h with
  | nil => simp
  | cons hei _ ih => simp only [List.any_cons, Bool.or_eq_true, ih, hei.name, beq_iff_eq,
      List.exists_mem_cons_iff]

/-- The nearest member on a chain of entries is the nearest one on the chain
    that they show. -/
theorem findSome?_member_of_shows {scopes : ScopeTree} {entries : List ClassEntry}
    {chain : List Interface} (h : List.Forall₂ (ClassEntry.Shows scopes) entries chain)
    (member : String) :
    (entries.findSome? fun e => (scopes.lookupIn e.scope member).map (e, ·)).map
        (fun found => (found.1.name, found.2)) =
      chain.findSome? fun i => (i.member? member).map (i.name, ·) := by
  induction h with
  | nil => rfl
  | @cons e i _ _ hei _ ih =>
    rw [List.findSome?_cons, List.findSome?_cons, hei.members]
    cases i.member? member with
    | none => simpa using ih
    | some ty => simp [hei.name]

namespace Tables.Reflects

variable {t : Tables} {known : Known}

/-- A class is registered exactly if it is known. -/
theorem contains_iff (h : t.Reflects known) (cls : String) :
    t.classes.contains cls = true ↔ known.Declares cls := by
  rw [Hierarchy.contains, Hierarchy.find?]
  exact find?_isSome_of_shows h.entries cls

/-- The ancestors of a class are its chain. -/
theorem ancestors (h : t.Reflects known) (cls : String) :
    List.Forall₂ (ClassEntry.Shows t.scopes) (t.classes.ancestors cls) (known.lineage cls) := by
  by_cases hc : known.Declares cls
  · exact chain_shows h.entries h.wellFormed (fun _ _ => rfl) (Nat.le_refl _) hc
  · have hl : known.lineage cls = [] := by
      by_contra hne
      exact hc (Known.lineage_ne_nil_iff.mp hne)
    have hf : t.classes.find? cls = none := by
      have := mt (h.contains_iff cls).mp hc
      simpa [Hierarchy.contains] using this
    rw [hl, Hierarchy.ancestors, hf]
    cases t.classes.entries.length <;> exact List.Forall₂.nil

/-- Inheritance is what the tables say. -/
theorem isSubclass_iff (h : t.Reflects known) (derived base : String) :
    t.classes.isSubclass derived base = true ↔ known.Inherits derived base := by
  exact any_name_iff_of_shows (h.ancestors derived) base

/-- Members are resolved as the tables say. -/
theorem resolve_eq (h : t.Reflects known) (cls member : String) :
    (t.classes.resolve t.scopes cls member).map (fun found => (found.1.name, found.2)) =
      known.resolve cls member := by
  exact findSome?_member_of_shows (h.ancestors cls) member

/-! ## Types -/

/-- A written type is accepted exactly if it is visible. -/
theorem typeOf_ok_iff (h : t.Reflects known) {name : TypeName} {line : Nat} {ty : Ty} :
    t.typeOf name line = .ok ty ↔ name.Visible known ∧ ty = .ofName name := by
  cases name with
  | cls c =>
    have hc := h.contains_iff c
    by_cases hin : t.classes.contains c = true
    · simp [typeOf, TypeName.Visible, Ty.ofName, hin, hc.mp hin, eq_comm]
    · simp [typeOf, TypeName.Visible, hin, mt hc.mpr hin]
  | _ => simp [typeOf, TypeName.Visible, Ty.ofName, eq_comm]

/-- A value may stand for a target without a signature exactly if the rules
    say so. -/
theorem assignable_iff (h : t.Reflects known) (source : Ty) {target : Ty} (hp : target.Plain) :
    t.assignable source target = true ↔ known.Assignable source target := by
  constructor
  · intro ha
    cases source <;> cases target <;> simp_all [assignable, Ty.sameKind, Ty.Plain]
    case int => exact .int
    case bool => exact .bool
    case nothing => exact .nothing
    case object => exact .object ((h.isSubclass_iff _ _).mp ha)
  · intro ha
    cases ha with
    | object hi => exact (h.isSubclass_iff _ _).mpr hi
    | _ => rfl

/-- An assignment is accepted exactly if the rules say so. -/
theorem assignment?_eq_none_iff (h : t.Reflects known) {left right : Ty} :
    t.assignment? left right = none ↔ left.Storable ∧ known.Assignable right left := by
  constructor
  · intro ha
    cases left <;> cases right <;>
      simp [assignment?, Ty.sameKind, Ty.isVariable] at ha
    case int => exact ⟨trivial, .int⟩
    case bool => exact ⟨trivial, .bool⟩
    case object target source =>
      by_cases hsub : t.classes.isSubclass source target = true
      · exact ⟨trivial, .object ((h.isSubclass_iff _ _).mp hsub)⟩
      · rw [if_neg hsub] at ha
        split at ha <;> cases ha
  · rintro ⟨hs, ha⟩
    cases ha with
    | object hi =>
      have hl := (h.contains_iff _).mpr hi.declares_left
      have hr := (h.contains_iff _).mpr hi.declares_right
      have hsub := (h.isSubclass_iff _ _).mpr hi
      simp [assignment?, Ty.isVariable, hl, hr, hsub]
    | nothing => exact hs.elim
    | _ => rfl

/-- Arguments are accepted exactly if they are as many as the parameters and
    each may stand for its parameter. -/
theorem zip_assignable_iff (h : t.Reflects known) (args : List Ty) {params : List Ty}
    (hp : ∀ p ∈ params, p.Plain) :
    (params.length = args.length ∧
        (args.zip params).all (fun (arg, param) => t.assignable arg param) = true) ↔
      List.Forall₂ known.Assignable args params := by
  induction params generalizing args with
  | nil => cases args <;> simp
  | cons p params ih =>
    cases args with
    | nil => simp
    | cons a args =>
      have hrest := ih args fun q hq => hp q (List.mem_cons_of_mem _ hq)
      have hhead := h.assignable_iff a (hp p List.mem_cons_self)
      simp only [List.length_cons, Nat.add_right_cancel_iff, List.zip_cons_cons, List.all_cons,
        Bool.and_eq_true, List.forall₂_cons, ← hrest, hhead]
      tauto

/-- A call is accepted exactly if it resolves to a method whose parameters the
    arguments may stand for. -/
theorem callType_ok_iff (h : t.Reflects known) {cls method owner : String} {args : List Ty}
    {ty : Ty} :
    t.callType cls method args = .ok (ty, owner) ↔
      ∃ params, known.resolve cls method = some (owner, .func ty params) ∧
        List.Forall₂ known.Assignable args params := by
  have hres := h.resolve_eq cls method
  unfold callType
  cases hr : t.classes.resolve t.scopes cls method with
  | none => simp [hr] at hres; simp [← hres]
  | some found =>
    obtain ⟨entry, mty⟩ := found
    simp only [hr, Option.map_some] at hres
    cases mty with
    | func result params =>
      have hw : ∀ p ∈ params, p.Plain := (h.written.of_resolve hres.symm).2
      have hz := h.zip_assignable_iff args hw
      constructor
      · intro hc
        by_cases hlen : params.length = args.length
        · by_cases hall : (args.zip params).all (fun (arg, param) => t.assignable arg param) = true
          · simp only [hlen, hall, ne_eq, not_true_eq_false, if_false, if_true,
              Except.ok.injEq, Prod.mk.injEq] at hc
            obtain ⟨rfl, rfl⟩ := hc
            exact ⟨params, hres.symm, hz.mp ⟨hlen, hall⟩⟩
          · simp [hlen, hall] at hc
        · simp [hlen] at hc
      · rintro ⟨ps, hr', hargs⟩
        rw [← hres] at hr'
        cases hr'
        obtain ⟨hlen, hall⟩ := hz.mpr hargs
        simp only [hlen, hall, ne_eq, not_true_eq_false, if_false, if_true]
    | _ =>
      simp only [← hres, Option.some.injEq, Prod.mk.injEq]
      simp

end Tables.Reflects

end ClassLang
