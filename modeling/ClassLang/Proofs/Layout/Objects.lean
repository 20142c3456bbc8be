import ClassLang.Layouts
import ClassLang.Proofs.Typing.Reflect
import Mathlib.Algebra.Ring.Int.Defs

/-! # Layouts of known classes

    What the layout of a class has to be, with sizes of any magnitude and
    nothing remembered.

    * **`slotsFrom`** are fields one behind the other, and
      **`ObjectLayout.extend`** puts them behind the inherited ones.
    * **`Known.layout`** is the layout of a known class.
    * **`Known.layout_field?_of_resolve`**: a field that is resolved to an
      ancestor has the slot that it has in the ancestor's own layout. -/

namespace ClassLang

/-! ## Slots by name -/

/-- Where no name occurs twice, a slot is found by its name. -/
theorem find?_name_of_mem {slots : List Slot} {s : Slot} (hd : (slots.map Slot.name).Nodup)
    (hs : s ∈ slots) : slots.find? (·.name == s.name) = some s := by
  induction slots with
  | nil => cases hs
  | cons t rest ih =>
    obtain ⟨ht, hrest⟩ := List.nodup_cons.mp hd
    rcases List.mem_cons.mp hs with rfl | hs
    · simp
    · have hne : (t.name == s.name) = false := by
        have : t.name ≠ s.name := fun heq => ht (heq ▸ List.mem_map_of_mem hs)
        simpa using this
      rw [List.find?_cons, hne]
      exact ih hrest hs

/-- A slot is not found exactly if no slot has its name. -/
theorem find?_name_eq_none_iff {slots : List Slot} {x : String} :
    slots.find? (·.name == x) = none ↔ x ∉ slots.map Slot.name := by
  simp only [List.find?_eq_none, beq_iff_eq, List.mem_map, not_exists, not_and]

/-! ## Fields one behind the other -/

/-- The bytes that a variable takes, a held object being as large as `sizeOf`
    says. -/
def Ty.size (sizeOf : String → Int) : Ty → Int
  | .object cls => sizeOf cls
  | .int | .bool | .nothing | .func .. => Word.size

/-- Fields one behind the other from `offset` on. -/
def slotsFrom (sizeOf : String → Int) (offset : Int) : List (String × Ty) → List Slot
  | [] => []
  | (name, ty) :: rest =>
    { name, ty, offset, size := ty.size sizeOf }
      :: slotsFrom sizeOf (offset + ty.size sizeOf) rest

/-- The bytes that all fields take together. -/
def totalSize (sizeOf : String → Int) (fields : List (String × Ty)) : Int :=
  (fields.map fun field => field.2.size sizeOf).sum

section slots

variable {sizeOf : String → Int} {fields : List (String × Ty)} {offset : Int}

/-- Sizes are not negative if those of classes are not. -/
theorem Ty.size_nonneg (h : ∀ cls, 0 ≤ sizeOf cls) (ty : Ty) : 0 ≤ ty.size sizeOf := by
  cases ty with
  | object cls => exact h cls
  | _ => show (0 : Int) ≤ 4; omega

theorem totalSize_nonneg (h : ∀ cls, 0 ≤ sizeOf cls) (fields : List (String × Ty)) :
    0 ≤ totalSize sizeOf fields := by
  induction fields with
  | nil => simp [totalSize]
  | cons field rest ih =>
    have hf := field.2.size_nonneg h
    simp only [totalSize, List.map_cons, List.sum_cons] at ih ⊢
    omega

@[simp] theorem map_name_slotsFrom :
    (slotsFrom sizeOf offset fields).map Slot.name = fields.map (·.1) := by
  induction fields generalizing offset with
  | nil => rfl
  | cons field rest ih => simp [slotsFrom, ih]

@[simp] theorem length_slotsFrom : (slotsFrom sizeOf offset fields).length = fields.length := by
  induction fields generalizing offset with
  | nil => rfl
  | cons field rest ih => simp [slotsFrom, ih]

/-- A slot belongs to one of the fields and is as large as its type says. -/
theorem mem_of_mem_slotsFrom {s : Slot} (hs : s ∈ slotsFrom sizeOf offset fields) :
    (s.name, s.ty) ∈ fields ∧ s.size = s.ty.size sizeOf := by
  induction fields generalizing offset with
  | nil => cases hs
  | cons field rest ih =>
    rcases List.mem_cons.mp hs with rfl | hs
    · exact ⟨List.mem_cons_self, rfl⟩
    · obtain ⟨hmem, hsize⟩ := ih hs
      exact ⟨List.mem_cons_of_mem _ hmem, hsize⟩

/-- Every slot lies between the first offset and the end of all fields. -/
theorem bounds_of_mem_slotsFrom (h : ∀ cls, 0 ≤ sizeOf cls) {s : Slot}
    (hs : s ∈ slotsFrom sizeOf offset fields) :
    offset ≤ s.offset ∧ 0 ≤ s.size ∧ s.offset + s.size ≤ offset + totalSize sizeOf fields := by
  induction fields generalizing offset with
  | nil => cases hs
  | cons field rest ih =>
    have hf := field.2.size_nonneg h
    have ht := totalSize_nonneg h rest
    have hsum : totalSize sizeOf (field :: rest) =
        field.2.size sizeOf + totalSize sizeOf rest := rfl
    rcases List.mem_cons.mp hs with rfl | hs
    · simp only [hsum]
      omega
    · have hrest := ih hs
      omega

/-- The slot of a field that is declared once. -/
theorem exists_slot_of_lookup (sizeOf : String → Int) (offset : Int) {x : String} {ty : Ty}
    (hd : (fields.map (·.1)).Nodup)
    (hx : fields.lookup x = some ty) :
    ∃ s ∈ slotsFrom sizeOf offset fields, s.name = x ∧ s.ty = ty ∧
      (slotsFrom sizeOf offset fields).reverse.find? (·.name == x) = some s := by
  have hnames : x ∈ (slotsFrom sizeOf offset fields).map Slot.name := by
    rw [map_name_slotsFrom]
    exact List.mem_map_of_mem (mem_of_lookup hx)
  obtain ⟨s, hs, rfl⟩ := List.mem_map.mp hnames
  have hty : fields.lookup s.name = some s.ty :=
    lookup_of_mem hd (mem_of_mem_slotsFrom hs).1
  refine ⟨s, hs, rfl, Option.some.inj (hty.symm.trans hx), ?_⟩
  refine find?_name_of_mem ?_ (List.mem_reverse.mpr hs)
  rw [List.map_reverse, List.nodup_reverse, map_name_slotsFrom]
  exact hd

end slots

/-! ## One class on top of another -/

namespace ObjectLayout

/-- The layout with more fields at its end. -/
def extend (sizeOf : String → Int) (layout : ObjectLayout) (fields : List (String × Ty)) :
    ObjectLayout where
  fields := layout.fields ++ slotsFrom sizeOf layout.size fields
  size := layout.size + totalSize sizeOf fields

/-- Every slot lies inside the object. -/
def Inside (layout : ObjectLayout) : Prop :=
  0 ≤ layout.size ∧
    ∀ s ∈ layout.fields, 0 ≤ s.offset ∧ 0 ≤ s.size ∧ s.offset + s.size ≤ layout.size

theorem Inside.extend {layout : ObjectLayout} {sizeOf : String → Int} (h : layout.Inside)
    (hs : ∀ cls, 0 ≤ sizeOf cls) (fields : List (String × Ty)) :
    (layout.extend sizeOf fields).Inside := by
  obtain ⟨hsize, hfields⟩ := h
  have htotal := totalSize_nonneg hs fields
  refine ⟨by simp only [ObjectLayout.extend]; omega, ?_⟩
  intro s hmem
  simp only [ObjectLayout.extend] at hmem ⊢
  rcases List.mem_append.mp hmem with hmem | hmem
  · have := hfields s hmem
    omega
  · have := bounds_of_mem_slotsFrom hs hmem
    omega

end ObjectLayout

/-! ## Known classes -/

namespace Interface

/-- Fields are no methods, methods are, and no member is declared twice. -/
structure Proper (i : Interface) : Prop where
  fields : ∀ b ∈ i.fields, b.2.Plain
  methods : ∀ b ∈ i.methods, ¬ b.2.Plain
  distinct : (i.members.map (·.1)).Nodup

/-- A member that is no method is a field. -/
theorem Proper.lookup_fields {i : Interface} (h : i.Proper) {x : String} {ty : Ty}
    (hx : i.member? x = some ty) (hty : ty.Plain) : i.fields.lookup x = some ty := by
  rw [member?, members, List.lookup_append] at hx
  cases hf : i.fields.lookup x with
  | some ty' => rwa [hf, Option.some_or] at hx
  | none =>
    rw [hf, Option.none_or] at hx
    exact absurd hty (h.methods _ (mem_of_lookup hx))

theorem Proper.distinct_fields {i : Interface} (h : i.Proper) :
    (i.fields.map (·.1)).Nodup := by
  have hd := h.distinct
  rw [members, List.map_append] at hd
  exact (List.nodup_append.mp hd).1

end Interface

namespace Known

/-- The layout of a class: inherited fields first, then its own. -/
def layout : Known → String → ObjectLayout
  | [], _ => {}
  | i :: older, cls =>
    if i.name = cls then
      ObjectLayout.extend (fun c => (layout older c).size)
        (match i.superclass with
          | some parent => layout older parent
          | none => {}) i.fields
    else layout older cls

/-- The bytes that an object of a class takes. -/
def objectSize (known : Known) (cls : String) : Int := (known.layout cls).size

/-- What the newest class inherits. -/
def inherited (older : Known) (i : Interface) : ObjectLayout :=
  match i.superclass with
  | some parent => older.layout parent
  | none => {}

theorem layout_self (i : Interface) (older : Known) :
    layout (i :: older) i.name = (inherited older i).extend (objectSize older) i.fields := by
  rw [layout, if_pos rfl]
  rfl

theorem layout_of_ne {i : Interface} {older : Known} {cls : String} (h : i.name ≠ cls) :
    layout (i :: older) cls = layout older cls := by
  rw [layout, if_neg h]

/-- Newer classes do not change the layout of a known one. -/
theorem layout_cons_of_declares {i : Interface} {older : Known} {cls : String}
    (hwf : WellFormed (i :: older)) (h : Declares older cls) :
    layout (i :: older) cls = layout older cls := by
  refine layout_of_ne ?_
  rintro rfl
  exact hwf.1 h

/-- Classes that are declared later do not change a layout. -/
theorem layout_knownAfter {known : Known} {classes : List ClassDecl} {cls : String}
    (h : ∀ c ∈ classes, c.name ≠ cls) :
    layout (ClassDecl.knownAfter known classes) cls = layout known cls := by
  induction classes generalizing known with
  | nil => rfl
  | cons c rest ih =>
    rw [ClassDecl.knownAfter_cons, ih fun d hd => h d (List.mem_cons_of_mem _ hd)]
    exact layout_of_ne (h c List.mem_cons_self)

/-- Methods take no room in an object. -/
theorem layout_upTo (c : ClassDecl) (before : List Method) (older : Known) :
    layout (c.upTo before :: older) = layout (c.interface :: older) := rfl

/-- Every field of a known class lies inside its objects. -/
theorem layout_inside (known : Known) (cls : String) : (known.layout cls).Inside := by
  induction known generalizing cls with
  | nil => exact ⟨Int.le_refl 0, by simp [layout]⟩
  | cons i older ih =>
    by_cases hi : i.name = cls
    · subst hi
      rw [layout_self]
      refine ObjectLayout.Inside.extend ?_ (fun c => (ih c).1) _
      unfold inherited
      cases i.superclass with
      | none => exact ⟨Int.le_refl 0, by simp⟩
      | some parent => exact ih parent
    · rw [layout_of_ne hi]
      exact ih cls

theorem objectSize_nonneg (known : Known) (cls : String) : 0 ≤ known.objectSize cls :=
  (known.layout_inside cls).1

/-- The slots of the fields that a class declares itself. -/
def ownSlots : Known → String → List Slot
  | [], _ => []
  | i :: older, cls =>
    if i.name = cls then slotsFrom (objectSize older) (inherited older i).size i.fields
    else ownSlots older cls

/-- Classes that are declared later do not change the slots of a class. -/
theorem ownSlots_knownAfter {known : Known} {classes : List ClassDecl} {cls : String}
    (h : ∀ c ∈ classes, c.name ≠ cls) :
    ownSlots (ClassDecl.knownAfter known classes) cls = ownSlots known cls := by
  induction classes generalizing known with
  | nil => rfl
  | cons c rest ih =>
    rw [ClassDecl.knownAfter_cons, ih fun d hd => h d (List.mem_cons_of_mem _ hd), ownSlots]
    exact if_neg (h c List.mem_cons_self)

/-- A field that is resolved has a slot of its type, and that is the slot which
    its owner declares and which it has in the owner's own layout. -/
theorem layout_field?_of_resolve {known : Known} (hwf : known.WellFormed)
    (hp : ∀ i ∈ known, i.Proper) {cls x owner : String} {ty : Ty}
    (h : known.resolve cls x = some (owner, ty)) (hty : ty.Plain) :
    ∃ s ∈ known.ownSlots owner, s.name = x ∧ s.ty = ty ∧ (known.layout cls).field? x = some s ∧
      (known.layout owner).field? x = some s := by
  induction known generalizing cls with
  | nil => simp [resolve, lineage] at h
  | cons i older ih =>
    obtain ⟨hnew, hsuper, hwf'⟩ := hwf
    have hp' : ∀ j ∈ older, j.Proper := fun j hj => hp j (List.mem_cons_of_mem _ hj)
    have hi : i.Proper := hp i List.mem_cons_self
    -- what is found among the older classes stays as it was
    have hold : ∀ {c : String}, resolve older c x = some (owner, ty) →
        ∃ s ∈ ownSlots (i :: older) owner, s.name = x ∧ s.ty = ty ∧
          (layout older c).field? x = some s ∧ (layout (i :: older) owner).field? x = some s := by
      intro c hc
      obtain ⟨s, hs, hname, hsty, hcls, howner⟩ := ih hwf' hp' hc
      have hne : i.name ≠ owner := by
        rintro rfl
        exact hnew (inherits_of_resolve hc).declares_right
      refine ⟨s, ?_, hname, hsty, hcls, ?_⟩
      · rw [ownSlots, if_neg hne]
        exact hs
      · rw [layout_of_ne hne]
        exact howner
    by_cases hcls : i.name = cls
    · subst hcls
      rw [resolve, lineage_self, List.findSome?_cons] at h
      rw [layout_self]
      cases hm : i.member? x with
      | some ty' =>
        rw [hm] at h
        cases h
        have hlook := hi.lookup_fields hm hty
        obtain ⟨s, hs, hname, hsty, hfind⟩ :=
          exists_slot_of_lookup (objectSize older) (inherited older i).size
            hi.distinct_fields hlook
        have hfield : ((inherited older i).extend (objectSize older) i.fields).field? x = some s := by
          rw [ObjectLayout.field?, ObjectLayout.extend, List.reverse_append, List.find?_append,
            hfind, Option.some_or]
        refine ⟨s, ?_, hname, hsty, hfield, ?_⟩
        · rw [ownSlots, if_pos rfl]
          exact hs
        · rw [layout_self]
          exact hfield
      | none =>
        rw [hm, Option.map_none] at h
        have hnone : x ∉ i.fields.map (·.1) := by
          have := lookup_eq_none_iff_names.mp hm
          rw [Interface.members, List.map_append] at this
          exact fun hmem => this (List.mem_append_left _ hmem)
        have hfind : (slotsFrom (objectSize older) (inherited older i).size i.fields).reverse.find?
            (·.name == x) = none := by
          rw [find?_name_eq_none_iff, List.map_reverse, List.mem_reverse, map_name_slotsFrom]
          exact hnone
        have hfield : ((inherited older i).extend (objectSize older) i.fields).field? x =
            (inherited older i).field? x := by
          rw [ObjectLayout.field?, ObjectLayout.extend, List.reverse_append, List.find?_append,
            hfind, Option.none_or, ObjectLayout.field?]
        rw [hfield]
        cases hs : i.superclass with
        | none => simp [hs] at h
        | some parent =>
          have hinherited : inherited older i = layout older parent := by
            simp [inherited, hs]
          rw [hinherited]
          exact hold (by simpa [hs, resolve] using h)
    · rw [resolve, lineage_of_ne hcls] at h
      rw [layout_of_ne hcls]
      exact hold h

end Known

end ClassLang
