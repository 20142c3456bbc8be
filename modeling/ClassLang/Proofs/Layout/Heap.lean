import ClassLang.Proofs.Layout.Paths

/-! # Objects one behind the other

    Where the objects that a run makes lie, if each comes right behind the one
    before it.

    * **`Known.roomOf`** is what a list of objects takes.
    * **`Known.Lies`**: what a reference refers to lies at an offset.
    * **`Lies.apart`** and **`Lies.beside`**: what different references refer
      to lies apart. -/

namespace ClassLang

namespace Known

/-! ## Room -/

/-- The bytes that objects of these classes take together. -/
def roomOf (known : Known) (roots : List String) : Int := (roots.map known.objectSize).sum

section roomOf

variable {known : Known} {roots roots' : List String} {root : String} {n m : Nat}

@[simp] theorem roomOf_nil (known : Known) : known.roomOf [] = 0 := rfl

theorem roomOf_append (known : Known) (roots more : List String) :
    known.roomOf (roots ++ more) = known.roomOf roots + known.roomOf more := by
  simp [roomOf]

@[simp] theorem roomOf_singleton (known : Known) (root : String) :
    known.roomOf [root] = known.objectSize root := by
  simp [roomOf]

theorem roomOf_nonneg (known : Known) (roots : List String) : 0 ≤ known.roomOf roots := by
  induction roots with
  | nil => exact Int.le_refl 0
  | cons root rest ih =>
    have hroot := known.objectSize_nonneg root
    have hsum : known.roomOf (root :: rest) = known.objectSize root + known.roomOf rest := rfl
    omega

theorem roomOf_dvd (known : Known) (roots : List String) : 4 ∣ known.roomOf roots := by
  induction roots with
  | nil => exact ⟨0, rfl⟩
  | cons root rest ih => exact Int.dvd_add (known.objectSize_dvd root) ih

theorem roomOf_mono (known : Known) (h : roots <+: roots') : known.roomOf roots ≤ known.roomOf roots' := by
  obtain ⟨more, rfl⟩ := h
  have hmore := known.roomOf_nonneg more
  rw [roomOf_append]
  omega

/-- The next object lies behind those before it. -/
theorem roomOf_take_succ (h : roots[n]? = some root) :
    known.roomOf (roots.take (n + 1)) = known.roomOf (roots.take n) + known.objectSize root := by
  rw [List.take_add_one, roomOf_append, h]
  simp

/-- An object ends before a later one begins. -/
theorem roomOf_take_lt (known : Known) (h : roots[n]? = some root) (hlt : n < m) :
    known.roomOf (roots.take n) + known.objectSize root ≤ known.roomOf (roots.take m) := by
  rw [← roomOf_take_succ h]
  exact known.roomOf_mono (List.take_prefix_take_left hlt)

end roomOf

/-- What holds no object takes one word. -/
theorem room_eq_four {known : Known} {u : Ty} (hu : ∀ c, u ≠ .object c) : known.room u = 4 := by
  cases u with
  | object c => exact absurd rfl (hu c)
  | _ => rfl

/-! ## References -/

/-- What the reference refers to is of this type and lies at offset `a`. -/
def Lies (known : Known) (roots : List String) (r : Ref) (u : Ty) (a : Int) : Prop :=
  ∃ root k, roots[r.root]? = some root ∧ known.Leads (.object root) r.path u k ∧
    a = known.roomOf (roots.take r.root) + k

section lies

variable {known : Known} {roots roots' : List String} {r r' : Ref} {u u' : Ty} {a a' k : Int}
  {c d : String} {q : List Sel}

theorem Lies.unique (hk : known.Regular) (h : known.Lies roots r u a)
    (h' : known.Lies roots r u' a') : u = u' ∧ a = a' := by
  obtain ⟨root, k, hroot, hleads, rfl⟩ := h
  obtain ⟨root', k', hroot', hleads', rfl⟩ := h'
  cases hroot.symm.trans hroot'
  obtain ⟨rfl, rfl⟩ := hleads.unique hk hleads'
  exact ⟨rfl, rfl⟩

/-- What there is stays where it is when more objects are made. -/
theorem Lies.mono (h : known.Lies roots r u a) (hr : roots <+: roots') :
    known.Lies roots' r u a := by
  obtain ⟨root, k, hroot, hleads, rfl⟩ := h
  obtain ⟨more, rfl⟩ := hr
  have hlt := (List.getElem?_eq_some_iff.mp hroot).1
  refine ⟨root, k, ?_, hleads, ?_⟩
  · rw [List.getElem?_append_left hlt]
    exact hroot
  · rw [List.take_append_of_le_length (Nat.le_of_lt hlt)]

/-- What there was before more objects were made. -/
theorem Lies.of_append {more : List String} (h : known.Lies (roots ++ more) r u a)
    (hlt : r.root < roots.length) : known.Lies roots r u a := by
  obtain ⟨root, k, hroot, hleads, rfl⟩ := h
  refine ⟨root, k, ?_, hleads, ?_⟩
  · rwa [List.getElem?_append_left hlt] at hroot
  · rw [List.take_append_of_le_length (Nat.le_of_lt hlt)]

theorem Lies.bounds (hk : known.Regular) (h : known.Lies roots r u a) :
    0 ≤ a ∧ a + known.room u ≤ known.roomOf roots ∧ 4 ∣ a := by
  obtain ⟨root, k, hroot, hleads, rfl⟩ := h
  have hbounds := hleads.bounds hk
  have hstart := known.roomOf_nonneg (roots.take r.root)
  have hlt := (List.getElem?_eq_some_iff.mp hroot).1
  have hend := known.roomOf_take_lt hroot hlt
  rw [List.take_length] at hend
  rw [room_object] at hbounds
  refine ⟨by omega, by omega, ?_⟩
  exact Int.dvd_add (known.roomOf_dvd _) (hleads.dvd hk)

/-- A way from an object goes on from the reference to it. -/
theorem Lies.append (h : known.Lies roots r (.object d) a) (hq : known.Leads (.object d) q u k) :
    known.Lies roots ⟨r.root, r.path ++ q⟩ u (a + k) := by
  obtain ⟨root, k', hroot, hleads, rfl⟩ := h
  exact ⟨root, k' + k, hroot, hleads.append hq, Int.add_assoc _ _ _⟩

/-- A reference that goes on from another one. -/
theorem Lies.split (hk : known.Regular) (h : known.Lies roots r u a)
    (h' : known.Lies roots ⟨r.root, r.path ++ q⟩ u' a') :
    ∃ k, known.Leads u q u' k ∧ a' = a + k := by
  obtain ⟨root, k, hroot, hleads, rfl⟩ := h
  obtain ⟨root', k', hroot', hleads', rfl⟩ := h'
  cases hroot.symm.trans hroot'
  obtain ⟨w, l, l', hw, hq, rfl⟩ := hleads'.split
  obtain ⟨rfl, rfl⟩ := hleads.unique hk hw
  exact ⟨l', hq, (Int.add_assoc _ _ _).symm⟩

/-- What different references refer to lies apart, unless one goes on where the
    other one ends. -/
theorem Lies.apart (hk : known.Regular) (h : known.Lies roots r u a)
    (h' : known.Lies roots r' u' a') :
    (r.root = r'.root ∧ (r.path <+: r'.path ∨ r'.path <+: r.path)) ∨
      a + known.room u ≤ a' ∨ a' + known.room u' ≤ a := by
  obtain ⟨root, k, hroot, hleads, rfl⟩ := h
  obtain ⟨root', k', hroot', hleads', rfl⟩ := h'
  have hb := hleads.bounds hk
  have hb' := hleads'.bounds hk
  rw [room_object] at hb hb'
  rcases Nat.lt_trichotomy r.root r'.root with hlt | heq | hlt
  · have hend := known.roomOf_take_lt hroot hlt
    exact Or.inr (Or.inl (by omega))
  · rw [← heq] at hroot' ⊢
    cases hroot.symm.trans hroot'
    rcases hleads.apart hk hleads' with hp | hp | hle | hle
    · exact Or.inl ⟨rfl, Or.inl hp⟩
    · exact Or.inl ⟨rfl, Or.inr hp⟩
    · exact Or.inr (Or.inl (by omega))
    · exact Or.inr (Or.inr (by omega))
  · have hend := known.roomOf_take_lt hroot' hlt
    exact Or.inr (Or.inr (by omega))

/-- A field that holds no object lies apart from everything of which it is no
    part. -/
theorem Lies.apart_of_field (hk : known.Regular) (h : known.Lies roots r u a)
    (h' : known.Lies roots r' u' a') (hu' : ∀ c, u' ≠ .object c)
    (hnot : ¬ (r'.root = r.root ∧ r.path <+: r'.path)) :
    a + known.room u ≤ a' ∨ a' + known.room u' ≤ a := by
  rcases h.apart hk h' with ⟨hroot, hp | ⟨q, hq⟩⟩ | hle
  · exact absurd ⟨hroot.symm, hp⟩ hnot
  · have heq : r = ⟨r'.root, r'.path ++ q⟩ := by
      rw [hq, ← hroot]
    rw [heq] at h
    obtain ⟨k, hleads, _⟩ := h'.split hk h
    have hnil := hleads.eq_nil hu'
    rw [hnil, List.append_nil] at hq
    exact absurd ⟨hroot.symm, hq ▸ List.prefix_rfl⟩ hnot
  · exact hle

/-- Two fields that hold no objects lie apart. -/
theorem Lies.ne_of_fields (hk : known.Regular) (h : known.Lies roots r u a)
    (hu : ∀ c, u ≠ .object c) (h' : known.Lies roots r' u' a') (hu' : ∀ c, u' ≠ .object c)
    (hne : r' ≠ r) : a' ≠ a := by
  have hnot : ¬ (r'.root = r.root ∧ r.path <+: r'.path) := by
    rintro ⟨hroot, q, hq⟩
    have heq : r' = ⟨r.root, r.path ++ q⟩ := by
      rw [hq, ← hroot]
    rw [heq] at h'
    obtain ⟨k, hleads, _⟩ := h.split hk h'
    rw [hleads.eq_nil hu, List.append_nil] at heq
    exact hne heq
  have happart := h.apart_of_field hk h' hu' hnot
  rw [room_eq_four hu, room_eq_four hu'] at happart
  omega

/-- What an object inherits from a class lies apart from every other object of
    exactly that class. -/
theorem Lies.beside (hk : known.Regular) (hi : known.Inherits d c)
    (h : known.Lies roots r (.object d) a) (h' : known.Lies roots r' (.object c) a') :
    (r = r' ∧ d = c) ∨ a + known.objectSize c ≤ a' ∨ a' + known.objectSize c ≤ a := by
  have hsize := hi.objectSize_le hk.wellFormed
  by_cases hroots : r.root = r'.root
  · obtain ⟨root, k, hroot, hleads, rfl⟩ := h
    obtain ⟨root', k', hroot', hleads', rfl⟩ := h'
    rw [← hroots] at hroot' ⊢
    cases hroot.symm.trans hroot'
    rcases hleads.beside hk hi hleads' with ⟨hp, hd, _⟩ | hle | hle
    · obtain ⟨_, _⟩ := r
      obtain ⟨_, _⟩ := r'
      exact Or.inl ⟨by simp_all, hd⟩
    · exact Or.inr (Or.inl (by omega))
    · exact Or.inr (Or.inr (by omega))
  · rcases h.apart hk h' with ⟨heq, _⟩ | hle | hle
    · exact absurd heq hroots
    · rw [room_object] at hle
      exact Or.inr (Or.inl (by omega))
    · rw [room_object] at hle
      exact Or.inr (Or.inr hle)

end lies

end Known

end ClassLang
