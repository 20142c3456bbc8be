import ClassLang.Lowering.Stmt
import ClassLang.Proofs.Layout.Remembered
import ClassLang.Proofs.Typing.Places

/-! # Sites

    What code generation knows where it makes the code of a method, next to
    what the rules of typing see there.

    * **`Program.Representable`**: the labels of a program are distinct, and
      its objects and frames can be addressed with words.
    * **`Site.Serves`**: the site of a method fits its view.
    * **`Serves.locate_variable`** and **`locate_member`**: under this relation
      a name has the place of exactly that declaration to which the rules
      resolve it. -/

namespace ClassLang

/-! ## Programs of representable size -/

/-- The labels of the methods of a class. -/
def ClassDecl.labels (c : ClassDecl) : List String :=
  c.methods.map fun m => methodLabel c.name m.name

namespace Program

/-- The labels of all methods in order. -/
def labels (p : Program) : List String := p.classes.flatMap ClassDecl.labels

/-- All classes of the program. -/
def known (p : Program) : Known := ClassDecl.knownAfter [] p.classes

/-- No two methods share a label, and the sizes of all objects and frames are
    words. -/
structure Representable (p : Program) : Prop where
  labels : p.labels.Nodup
  objects : ∀ c ∈ p.classes, Word.Fits (p.known.objectSize c.name)
  frames : ∀ c ∈ p.classes, ∀ m ∈ c.methods, m.FrameFits

instance (p : Program) : Decidable p.Representable :=
  decidable_of_iff (p.labels.Nodup ∧ (∀ c ∈ p.classes, Word.Fits (p.known.objectSize c.name)) ∧
      ∀ c ∈ p.classes, ∀ m ∈ c.methods, m.FrameFits)
    ⟨fun h => ⟨h.1, h.2.1, h.2.2⟩, fun h => ⟨h.labels, h.objects, h.frames⟩⟩

end Program

/-! ## The relation -/

/-- The site at which the code of method `m` is made fits what `m` sees. -/
structure Site.Serves (site : Site) (V : View) (m : Method) : Prop where
  cls : site.cls = V.cls
  object : site.object = V.known.layout V.cls
  frame : site.frame = m.frame
  vars : V.vars = m.variables
  layouts : site.layouts.Holds V.known
  classes : ∀ derived base, V.known.Inherits derived base →
    site.classes.isSubclass derived base = true
  wellFormed : V.known.WellFormed
  proper : ∀ i ∈ V.known, i.Proper
  distinct : (V.vars.map (·.1)).Nodup
  objects : ∀ cls, V.known.Declares cls → Word.Fits (V.known.objectSize cls)
  frameFits : m.FrameFits
  /-- Receiver and arguments of every call take a representable number of
      bytes. -/
  calls : ∀ cls method owner result params,
    V.known.resolve cls method = some (owner, .func result params) →
    Word.Fits (Word.size * (1 + params.length))

namespace Site.Serves

variable {site : Site} {V : View} {m : Method}

/-- A variable of the method has the slot of its own declaration. -/
theorem locate_variable (h : site.Serves V m) {k : Nat} {x : String} {ty : Ty}
    (hk : V.vars[k]? = some (x, ty)) :
    site.locate x =
      .ok (.frame { name := x, ty, offset := m.offsetOf k, size := Word.size }) := by
  rw [h.vars] at hk
  rw [locate, h.frame, Method.slot?_frame (h.vars ▸ h.distinct) hk]

/-- A variable that is found is one of the declared ones. -/
theorem exists_index_of_lookup {vars : List (String × Ty)} {x : String} {ty : Ty}
    (hx : vars.lookup x = some ty) : ∃ k : Nat, vars[k]? = some (x, ty) :=
  List.mem_iff_getElem?.mp (mem_of_lookup hx)

/-- A field has the slot that its owner declares, which is also its slot in the
    layout of the owner. -/
theorem locate_member (h : site.Serves V m) {x owner : String} {ty : Ty}
    (hx : V.vars.lookup x = none) (hr : V.known.resolve V.cls x = some (owner, ty))
    (hty : ty.Plain) :
    ∃ s ∈ V.known.ownSlots owner, s.name = x ∧ s.ty = ty ∧ site.locate x = .ok (.field s) ∧
      (V.known.layout V.cls).field? x = some s ∧ (V.known.layout owner).field? x = some s := by
  obtain ⟨s, hs, hname, hsty, hcls, howner⟩ :=
    Known.layout_field?_of_resolve h.wellFormed h.proper hr hty
  refine ⟨s, hs, hname, hsty, ?_, hcls, howner⟩
  have hnone : site.frame.slot? x = none := by
    rw [h.frame]
    exact Method.slot?_frame_eq_none (h.vars ▸ hx)
  have hfield : site.object.field? x = some s := by
    rw [h.object]
    exact hcls
  rw [locate, hnone, hfield]

theorem plain_of_storable {ty : Ty} (h : ty.Storable) : ty.Plain := by
  cases ty with
  | func => exact h.elim
  | _ => trivial

/-- Every variable that the rules find has a place, with its type.  In an object
    the place ends where the offsets are still words. -/
theorem exists_place (h : site.Serves V m) {x : String} {ty : Ty} (hx : V.varTy? x = some ty)
    (hs : ty.Storable) :
    (∃ s, site.locate x = .ok (.frame s) ∧ s.ty = ty) ∨
    ∃ s, site.locate x = .ok (.field s) ∧ s.ty = ty ∧ 0 ≤ s.offset ∧
      Word.Fits (s.offset + s.size) := by
  unfold View.varTy? at hx
  cases hv : V.vars.lookup x with
  | some ty' =>
    rw [hv] at hx
    cases hx
    obtain ⟨k, hk⟩ := exists_index_of_lookup hv
    exact Or.inl ⟨_, h.locate_variable hk, rfl⟩
  | none =>
    rw [hv] at hx
    obtain ⟨⟨owner, ty'⟩, hr, rfl⟩ := Option.map_eq_some_iff.mp hx
    obtain ⟨s, _, _, hsty, hloc, hfield, _⟩ := h.locate_member hv hr (plain_of_storable hs)
    have hmem : s ∈ (V.known.layout V.cls).fields :=
      List.mem_reverse.mp (List.mem_of_find?_eq_some hfield)
    obtain ⟨hsize, hinside⟩ := V.known.layout_inside V.cls
    obtain ⟨hoffset, hssize, hend⟩ := hinside s hmem
    have hcls : V.known.Declares V.cls := (Known.inherits_of_resolve hr).declares_left
    have hfits := h.objects V.cls hcls
    refine Or.inr ⟨s, hloc, hsty, hoffset, ?_⟩
    -- the end of a field is not behind the end of the object
    simp only [Known.objectSize, Word.Fits] at hfits ⊢
    omega

end Site.Serves

end ClassLang
