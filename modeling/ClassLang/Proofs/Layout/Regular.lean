import ClassLang.Proofs.Layout.Objects

/-! # Regular lists of classes

    How the objects of the classes on one chain are related, and where their
    own fields lie.

    * **`Known.Regular`** is what a list of known classes has to be: in
      particular a field only holds objects of older classes, as counted by
      **`Known.age`**.
    * **`Inherits.total`**: the classes on one chain inherit one from the
      other.
    * **`Inherits.objectSize_le_ownStart`**: the own fields of a class lie
      behind all that it inherits.
    * **`Known.OwnSlot`** is what holds of every slot that a class declares. -/

namespace ClassLang

namespace Known

/-! ## Inheritance -/

section inheritance

variable {known older : Known} {i : Interface} {a b c : String}

/-- The newest class inherits from itself and from what its superclass inherits
    from. -/
theorem inherits_self_iff :
    Inherits (i :: older) i.name b ↔
      i.name = b ∨ ∃ parent, i.superclass = some parent ∧ Inherits older parent b := by
  unfold Inherits
  rw [lineage_self]
  cases i.superclass <;> simp

/-- Other classes inherit as they did before. -/
theorem inherits_cons_iff (h : i.name ≠ a) : Inherits (i :: older) a b ↔ Inherits older a b := by
  unfold Inherits
  rw [lineage_of_ne h]

/-- Members are of no concern to inheritance. -/
theorem inherits_congr {j : Interface} (hname : i.name = j.name)
    (hsuper : i.superclass = j.superclass) :
    Inherits (i :: older) a b ↔ Inherits (j :: older) a b := by
  by_cases h : i.name = a
  · subst h
    rw [inherits_self_iff, hname, inherits_self_iff, hsuper]
  · rw [inherits_cons_iff h, inherits_cons_iff (hname ▸ h)]

theorem inherits_refl (h : known.Declares a) : known.Inherits a a := by
  induction known with
  | nil => exact absurd h (declares_nil a)
  | cons i older ih =>
    by_cases hi : i.name = a
    · subst hi
      exact inherits_self_iff.mpr (Or.inl rfl)
    · rw [inherits_cons_iff hi]
      exact ih (((declares_cons i older a).mp h).resolve_left hi)

/-- What an older class inherits from is older too. -/
theorem inherits_of_older (hwf : WellFormed (i :: older)) (h : Inherits older a b) :
    Inherits (i :: older) a b := by
  have hne : i.name ≠ a := fun heq => hwf.1 (heq ▸ h.declares_left)
  exact (inherits_cons_iff hne).mpr h

theorem Inherits.trans (hwf : known.WellFormed) (hab : known.Inherits a b)
    (hbc : known.Inherits b c) : known.Inherits a c := by
  induction known generalizing a with
  | nil => exact absurd hab.declares_left (declares_nil a)
  | cons i older ih =>
    have hold : Inherits older a b → i.name ≠ a → Inherits (i :: older) a c := by
      intro h hne
      have hb : i.name ≠ b := fun heq => hwf.1 (heq ▸ h.declares_right)
      exact (inherits_cons_iff hne).mpr (ih hwf.2.2 h ((inherits_cons_iff hb).mp hbc))
    by_cases hi : i.name = a
    · subst hi
      rcases inherits_self_iff.mp hab with rfl | ⟨parent, hs, h⟩
      · exact hbc
      · have hb : i.name ≠ b := fun heq => hwf.1 (heq ▸ h.declares_right)
        have hc := ih hwf.2.2 h ((inherits_cons_iff hb).mp hbc)
        exact inherits_self_iff.mpr (Or.inr ⟨parent, hs, hc⟩)
    · exact hold ((inherits_cons_iff hi).mp hab) hi

/-- Two classes on one chain inherit one from the other. -/
theorem Inherits.total (hwf : known.WellFormed) (hb : known.Inherits a b)
    (hc : known.Inherits a c) : known.Inherits b c ∨ known.Inherits c b := by
  induction known generalizing a with
  | nil => exact absurd hb.declares_left (declares_nil a)
  | cons i older ih =>
    have hold : ∀ {a}, Inherits older a b → Inherits older a c →
        Inherits (i :: older) b c ∨ Inherits (i :: older) c b := by
      intro a h h'
      rcases ih hwf.2.2 h h' with h | h
      · exact Or.inl (inherits_of_older hwf h)
      · exact Or.inr (inherits_of_older hwf h)
    by_cases hi : i.name = a
    · subst hi
      rcases inherits_self_iff.mp hb with rfl | ⟨parent, hs, h⟩
      · exact Or.inl hc
      · rcases inherits_self_iff.mp hc with rfl | ⟨parent', hs', h'⟩
        · exact Or.inr hb
        · cases hs.symm.trans hs'
          exact hold h h'
    · exact hold ((inherits_cons_iff hi).mp hb) ((inherits_cons_iff hi).mp hc)

end inheritance

/-! ## Age -/

/-- How many classes are as old as this one or older. -/
def age : Known → String → Nat
  | [], _ => 0
  | i :: older, cls => if i.name = cls then older.length + 1 else age older cls

theorem age_le_length (known : Known) (cls : String) : known.age cls ≤ known.length := by
  induction known with
  | nil => exact Nat.le_refl 0
  | cons i older ih =>
    rw [age]
    split
    · exact Nat.le_refl _
    · exact Nat.le_succ_of_le ih

/-- An older class has the age that it had among older classes. -/
theorem age_cons_of_declares {i : Interface} {older : Known} {cls : String}
    (hwf : WellFormed (i :: older)) (h : Declares older cls) :
    age (i :: older) cls = age older cls := by
  have hne : i.name ≠ cls := fun heq => hwf.1 (heq ▸ h)
  rw [age, if_neg hne]

theorem Inherits.age_le {known : Known} (hwf : known.WellFormed) {a b : String}
    (h : known.Inherits a b) : known.age b ≤ known.age a := by
  induction known generalizing a with
  | nil => exact absurd h.declares_left (declares_nil a)
  | cons i older ih =>
    by_cases hi : i.name = a
    · subst hi
      rcases inherits_self_iff.mp h with rfl | ⟨parent, _, h⟩
      · exact Nat.le_refl _
      · rw [age_cons_of_declares hwf h.declares_right, age, if_pos rfl]
        exact Nat.le_succ_of_le (age_le_length older b)
    · have h := (inherits_cons_iff hi).mp h
      rw [age_cons_of_declares hwf h.declares_right, age_cons_of_declares hwf h.declares_left]
      exact ih hwf.2.2 h

/-! ## Regular lists of classes -/

/-- Fields hold objects of older classes only. -/
def HoldsOlder : Known → Prop
  | [] => True
  | i :: older => (∀ f ∈ i.fields, ∀ cls, f.2 = .object cls → Declares older cls) ∧ HoldsOlder older

/-- What the rules of typing demand of the declarations of classes. -/
structure Regular (known : Known) : Prop where
  wellFormed : known.WellFormed
  proper : ∀ i ∈ known, i.Proper
  held : known.HoldsOlder

theorem Regular.older {i : Interface} {older : Known} (h : Regular (i :: older)) :
    Regular older where
  wellFormed := h.wellFormed.2.2
  proper := fun j hj => h.proper j (List.mem_cons_of_mem _ hj)
  held := h.held.2

/-! ## Sizes -/

/-- The bytes that something of this type takes as a field. -/
def room (known : Known) (ty : Ty) : Int := ty.size known.objectSize

/-- The offset from which on the own fields of a class lie. -/
def ownStart : Known → String → Int
  | [], _ => 0
  | i :: older, cls => if i.name = cls then (inherited older i).size else ownStart older cls

theorem size_dvd {sizeOf : String → Int} (h : ∀ cls, 4 ∣ sizeOf cls) (ty : Ty) :
    4 ∣ ty.size sizeOf := by
  cases ty with
  | object cls => exact h cls
  | _ => exact ⟨1, rfl⟩

theorem totalSize_dvd {sizeOf : String → Int} (h : ∀ cls, 4 ∣ sizeOf cls)
    (fields : List (String × Ty)) : 4 ∣ totalSize sizeOf fields := by
  induction fields with
  | nil => exact ⟨0, rfl⟩
  | cons field rest ih => exact Int.dvd_add (size_dvd h field.2) ih

/-- Objects are made of whole words. -/
theorem objectSize_dvd (known : Known) (cls : String) : 4 ∣ known.objectSize cls := by
  induction known generalizing cls with
  | nil => exact ⟨0, rfl⟩
  | cons i older ih =>
    by_cases hi : i.name = cls
    · subst hi
      have hinherited : 4 ∣ (inherited older i).size := by
        unfold inherited
        cases i.superclass with
        | none => exact ⟨0, rfl⟩
        | some parent => exact ih parent
      rw [objectSize, layout_self]
      exact Int.dvd_add hinherited (totalSize_dvd ih _)
    · rw [objectSize, layout_of_ne hi]
      exact ih cls

@[simp] theorem room_object (known : Known) (cls : String) :
    known.room (.object cls) = known.objectSize cls := rfl

theorem ownStart_nonneg (known : Known) (cls : String) : 0 ≤ known.ownStart cls := by
  induction known with
  | nil => exact Int.le_refl 0
  | cons i older ih =>
    rw [ownStart]
    split
    · unfold inherited
      cases i.superclass with
      | none => exact Int.le_refl 0
      | some parent => exact objectSize_nonneg older parent
    · exact ih

theorem ownStart_le_objectSize (known : Known) (cls : String) :
    known.ownStart cls ≤ known.objectSize cls := by
  induction known with
  | nil => exact Int.le_refl 0
  | cons i older ih =>
    by_cases hi : i.name = cls
    · subst hi
      have htotal := totalSize_nonneg (objectSize_nonneg older) i.fields
      rw [ownStart, if_pos rfl, objectSize, layout_self, ObjectLayout.extend]
      simp only
      omega
    · rw [ownStart, if_neg hi, objectSize, layout_of_ne hi]
      exact ih

theorem objectSize_cons_of_declares {i : Interface} {older : Known} {cls : String}
    (hwf : WellFormed (i :: older)) (h : Declares older cls) :
    objectSize (i :: older) cls = objectSize older cls := by
  rw [objectSize, layout_cons_of_declares hwf h]
  rfl

/-- A class has its own fields behind all objects of a class that it inherits
    from. -/
theorem Inherits.objectSize_le_ownStart {known : Known} (hwf : known.WellFormed) {a b : String}
    (h : known.Inherits a b) (hne : a ≠ b) : known.objectSize b ≤ known.ownStart a := by
  induction known generalizing a with
  | nil => exact absurd h.declares_left (declares_nil a)
  | cons i older ih =>
    by_cases hi : i.name = a
    · subst hi
      obtain ⟨parent, hs, h⟩ := (inherits_self_iff.mp h).resolve_left hne
      have hparent : objectSize older b ≤ objectSize older parent := by
        by_cases hp : parent = b
        · exact Int.le_of_eq (congrArg _ hp.symm)
        · exact Int.le_trans (ih hwf.2.2 h hp) (ownStart_le_objectSize older parent)
      rw [objectSize_cons_of_declares hwf h.declares_right, ownStart, if_pos rfl, inherited, hs]
      exact hparent
    · have h := (inherits_cons_iff hi).mp h
      rw [objectSize_cons_of_declares hwf h.declares_right, ownStart, if_neg hi]
      exact ih hwf.2.2 h hne

theorem Inherits.objectSize_le {known : Known} (hwf : known.WellFormed) {a b : String}
    (h : known.Inherits a b) : known.objectSize b ≤ known.objectSize a := by
  by_cases hne : a = b
  · exact Int.le_of_eq (congrArg _ hne.symm)
  · exact Int.le_trans (h.objectSize_le_ownStart hwf hne) (ownStart_le_objectSize known a)

/-! ## Own slots -/

/-- Slots that belong to different names lie apart. -/
theorem apart_of_mem_slotsFrom {sizeOf : String → Int} (h : ∀ cls, 0 ≤ sizeOf cls)
    {fields : List (String × Ty)} {offset : Int} {s t : Slot}
    (hs : s ∈ slotsFrom sizeOf offset fields) (ht : t ∈ slotsFrom sizeOf offset fields)
    (hne : s.name ≠ t.name) : s.offset + s.size ≤ t.offset ∨ t.offset + t.size ≤ s.offset := by
  induction fields generalizing offset with
  | nil => cases hs
  | cons field rest ih =>
    rcases List.mem_cons.mp hs with rfl | hs <;> rcases List.mem_cons.mp ht with rfl | ht
    · exact absurd rfl hne
    · exact Or.inl (bounds_of_mem_slotsFrom h ht).1
    · exact Or.inr (bounds_of_mem_slotsFrom h hs).1
    · exact ih hs ht

/-- All slots begin at whole words. -/
theorem dvd_of_mem_slotsFrom {sizeOf : String → Int} (h : ∀ cls, 4 ∣ sizeOf cls)
    {fields : List (String × Ty)} {offset : Int} (ho : 4 ∣ offset) {s : Slot}
    (hs : s ∈ slotsFrom sizeOf offset fields) : 4 ∣ s.offset := by
  induction fields generalizing offset with
  | nil => cases hs
  | cons field rest ih =>
    rcases List.mem_cons.mp hs with rfl | hs
    · exact ho
    · exact ih (Int.dvd_add ho (size_dvd h field.2)) hs

/-- A slot that class `cls` declares itself. -/
structure OwnSlot (known : Known) (cls : String) (s : Slot) : Prop where
  declared : known.Declares cls
  size : s.size = known.room s.ty
  start : known.ownStart cls ≤ s.offset
  stop : s.offset + s.size ≤ known.objectSize cls
  whole : 4 ∣ s.offset
  held : ∀ d, s.ty = .object d → known.Declares d ∧ known.age d < known.age cls

/-- The own slots of the newest class. -/
theorem Regular.ownSlot_self {i : Interface} {older : Known} (h : Regular (i :: older)) {s : Slot}
    (hs : s ∈ slotsFrom (objectSize older) (inherited older i).size i.fields) :
    OwnSlot (i :: older) i.name s := by
  obtain ⟨hfield, hsize⟩ := mem_of_mem_slotsFrom hs
  have hbounds := bounds_of_mem_slotsFrom (objectSize_nonneg older) hs
  have hheld : ∀ d, s.ty = .object d → Declares older d := h.held.1 _ hfield
  refine ⟨(declares_cons _ _ _).mpr (Or.inl rfl), ?_, ?_, ?_, ?_, ?_⟩
  · rw [hsize, room]
    cases hty : s.ty with
    | object d => exact (objectSize_cons_of_declares h.wellFormed (hheld d hty)).symm
    | _ => rfl
  · rw [ownStart, if_pos rfl]
    exact hbounds.1
  · rw [objectSize, layout_self]
    exact hbounds.2.2
  · refine dvd_of_mem_slotsFrom (objectSize_dvd older) ?_ hs
    unfold inherited
    cases i.superclass with
    | none => exact ⟨0, rfl⟩
    | some parent => exact objectSize_dvd older parent
  · intro d hd
    refine ⟨(declares_cons _ _ _).mpr (Or.inr (hheld d hd)), ?_⟩
    rw [age_cons_of_declares h.wellFormed (hheld d hd), age, if_pos rfl]
    exact Nat.lt_succ_of_le (age_le_length older d)

/-- The own slots of a class stay as they are when a class is declared. -/
theorem OwnSlot.cons {i : Interface} {older : Known} {cls : String} {s : Slot}
    (hwf : WellFormed (i :: older)) (h : OwnSlot older cls s) : OwnSlot (i :: older) cls s := by
  have hne : i.name ≠ cls := fun heq => hwf.1 (heq ▸ h.declared)
  refine ⟨(declares_cons _ _ _).mpr (Or.inr h.declared), ?_, ?_, ?_, h.whole, ?_⟩
  · rw [h.size, room, room]
    cases hty : s.ty with
    | object d => exact (objectSize_cons_of_declares hwf (h.held d hty).1).symm
    | _ => rfl
  · rw [ownStart, if_neg hne]
    exact h.start
  · rw [objectSize_cons_of_declares hwf h.declared]
    exact h.stop
  · intro d hd
    obtain ⟨hdecl, hage⟩ := h.held d hd
    refine ⟨(declares_cons _ _ _).mpr (Or.inr hdecl), ?_⟩
    rw [age_cons_of_declares hwf hdecl, age_cons_of_declares hwf h.declared]
    exact hage

theorem Regular.ownSlot {known : Known} (h : known.Regular) {cls : String} {s : Slot}
    (hs : s ∈ known.ownSlots cls) : known.OwnSlot cls s := by
  induction known with
  | nil => cases hs
  | cons i older ih =>
    by_cases hi : i.name = cls
    · subst hi
      rw [ownSlots, if_pos rfl] at hs
      exact h.ownSlot_self hs
    · rw [ownSlots, if_neg hi] at hs
      exact (ih h.older hs).cons h.wellFormed

/-- The own slots of a class are the slots of its fields. -/
theorem Regular.ownSlots_eq {known : Known} (h : known.Regular) (cls : String) :
    ∃ sizeOf offset fields, known.ownSlots cls = slotsFrom sizeOf offset fields ∧
      (∀ c, 0 ≤ sizeOf c) ∧ (fields.map (·.1)).Nodup := by
  induction known with
  | nil => exact ⟨fun _ => 0, 0, [], rfl, fun _ => Int.le_refl 0, List.nodup_nil⟩
  | cons i older ih =>
    rw [ownSlots]
    split
    · exact ⟨objectSize older, _, i.fields, rfl, objectSize_nonneg older,
        (h.proper i List.mem_cons_self).distinct_fields⟩
    · exact ih h.older

/-- A class declares one field of a name. -/
theorem Regular.ownSlot_unique {known : Known} (h : known.Regular) {cls : String} {s t : Slot}
    (hs : s ∈ known.ownSlots cls) (ht : t ∈ known.ownSlots cls) (hname : s.name = t.name) :
    s = t := by
  obtain ⟨sizeOf, offset, fields, heq, _, hd⟩ := h.ownSlots_eq cls
  rw [heq] at hs ht
  have hnames : ((slotsFrom sizeOf offset fields).map Slot.name).Nodup := by
    rwa [map_name_slotsFrom]
  have hs' := find?_name_of_mem hnames hs
  rw [hname, find?_name_of_mem hnames ht] at hs'
  exact (Option.some.inj hs').symm

/-- Two fields of a class lie apart. -/
theorem Regular.ownSlot_apart {known : Known} (h : known.Regular) {cls : String} {s t : Slot}
    (hs : s ∈ known.ownSlots cls) (ht : t ∈ known.ownSlots cls) (hname : s.name ≠ t.name) :
    s.offset + s.size ≤ t.offset ∨ t.offset + t.size ≤ s.offset := by
  obtain ⟨sizeOf, offset, fields, heq, hsize, _⟩ := h.ownSlots_eq cls
  rw [heq] at hs ht
  exact apart_of_mem_slotsFrom hsize hs ht hname

end Known

end ClassLang
