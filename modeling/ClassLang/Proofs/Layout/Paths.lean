import ClassLang.Proofs.Layout.Regular
import ClassLang.Proofs.Meaning.Store

/-! # Ways into objects

    Where the fields of the objects lie that are held inside an object.

    * **`Known.HasField`**: a class has a field at a slot, be it its own or an
      inherited one.  Two fields of a class lie apart (**`HasField.apart`**).
    * **`Known.Leads`**: a way through fields leads to something of a type at
      an offset.
    * **`Leads.apart`**: two ways lead to places that lie apart, unless one of
      the ways goes on where the other one ends.
    * **`Leads.beside`**: what an object inherits from a class lies apart from
      every other object of that class, even from one that it holds. -/

namespace ClassLang

namespace Known

/-! ## Fields -/

/-- Class `cls` has the field at a slot: it inherits from the class that
    declares it. -/
structure HasField (known : Known) (cls : String) (sel : Sel) (s : Slot) : Prop where
  inherits : known.Inherits cls sel.owner
  own : s ∈ known.ownSlots sel.owner
  name : s.name = sel.field

section fields

variable {known : Known} {cls base : String} {sel sel' : Sel} {s t : Slot}

theorem HasField.unique (hk : known.Regular) (hs : known.HasField cls sel s)
    (ht : known.HasField base sel t) : s = t :=
  hk.ownSlot_unique hs.own ht.own (hs.name.trans ht.name.symm)

/-- Descendants have the field too. -/
theorem HasField.inherited (hk : known.Regular) (hi : known.Inherits cls base)
    (h : known.HasField base sel s) : known.HasField cls sel s :=
  ⟨hi.trans hk.wellFormed h.inherits, h.own, h.name⟩

theorem HasField.bounds (hk : known.Regular) (h : known.HasField cls sel s) :
    0 ≤ s.offset ∧ s.offset + s.size ≤ known.objectSize cls := by
  have hown := hk.ownSlot h.own
  have hstart := known.ownStart_nonneg sel.owner
  have hle := h.inherits.objectSize_le hk.wellFormed
  exact ⟨Int.le_trans hstart hown.start, Int.le_trans hown.stop hle⟩

/-- A field of a descendant that a class does not have lies behind the objects
    of that class. -/
theorem HasField.behind (hk : known.Regular) (hi : known.Inherits cls base)
    (h : known.HasField cls sel s) (hnot : ¬ known.Inherits base sel.owner) :
    known.objectSize base ≤ s.offset := by
  have howner : known.Inherits sel.owner base :=
    (hi.total hk.wellFormed h.inherits).resolve_left hnot
  have hne : sel.owner ≠ base := by
    rintro rfl
    exact hnot (inherits_refl hi.declares_right)
  exact Int.le_trans (howner.objectSize_le_ownStart hk.wellFormed hne) (hk.ownSlot h.own).start

/-- Two fields of a class lie apart. -/
theorem HasField.apart (hk : known.Regular) (hs : known.HasField cls sel s)
    (ht : known.HasField cls sel' t) (hne : sel ≠ sel') :
    s.offset + s.size ≤ t.offset ∨ t.offset + t.size ≤ s.offset := by
  by_cases howner : sel.owner = sel'.owner
  · have hname : s.name ≠ t.name := by
      intro heq
      rw [hs.name, ht.name] at heq
      obtain ⟨_, _⟩ := sel
      obtain ⟨_, _⟩ := sel'
      exact hne (by simp_all)
    exact hk.ownSlot_apart hs.own (howner ▸ ht.own) hname
  · -- the fields of the descendant lie behind those of the ancestor
    rcases hs.inherits.total hk.wellFormed ht.inherits with h | h
    · have hle := h.objectSize_le_ownStart hk.wellFormed howner
      have hstop := (hk.ownSlot ht.own).stop
      have hstart := (hk.ownSlot hs.own).start
      omega
    · have hle := h.objectSize_le_ownStart hk.wellFormed (Ne.symm howner)
      have hstop := (hk.ownSlot hs.own).stop
      have hstart := (hk.ownSlot ht.own).start
      omega

end fields

/-! ## Ways -/

/-- From something of the first type, the way through fields leads to something
    of the second one, which lies at an offset. -/
inductive Leads (known : Known) : Ty → List Sel → Ty → Int → Prop where
  | here {ty} : Leads known ty [] ty 0
  | field {cls sel s path ty k} : known.HasField cls sel s → Leads known s.ty path ty k →
      Leads known (.object cls) (sel :: path) ty (s.offset + k)

section ways

variable {known : Known} {ty u u' w : Ty} {p q : List Sel} {k k' l : Int} {a b c : String}

theorem Leads.unique (hk : known.Regular) (h : known.Leads ty p u k)
    (h' : known.Leads ty p u' k') : u = u' ∧ k = k' := by
  induction h generalizing k' with
  | here =>
    cases h'
    exact ⟨rfl, rfl⟩
  | field hf _ ih =>
    obtain _ | ⟨hf', h'⟩ := h'
    cases hf.unique hk hf'
    obtain ⟨rfl, rfl⟩ := ih h'
    exact ⟨rfl, rfl⟩

/-- No way leads on from what is no object. -/
theorem Leads.eq_nil (h : known.Leads ty p u k) (hty : ∀ c, ty ≠ .object c) : p = [] := by
  cases h with
  | here => rfl
  | field => exact absurd rfl (hty _)

theorem Leads.append (h : known.Leads ty p u k) (h' : known.Leads u q w l) :
    known.Leads ty (p ++ q) w (k + l) := by
  induction h with
  | here => rwa [Int.zero_add]
  | field hf _ ih =>
    rw [Int.add_assoc]
    exact .field hf (ih h')

theorem Leads.split (h : known.Leads ty (p ++ q) w l) :
    ∃ u k k', known.Leads ty p u k ∧ known.Leads u q w k' ∧ l = k + k' := by
  induction p generalizing ty l with
  | nil => exact ⟨ty, 0, l, .here, h, (Int.zero_add l).symm⟩
  | cons sel rest ih =>
    obtain _ | ⟨hf, h⟩ := h
    obtain ⟨u, k, k', hp, hq, rfl⟩ := ih h
    exact ⟨u, _, k', .field hf hp, hq, (Int.add_assoc _ _ _).symm⟩

/-- From an object of a descendant a way leads where it led before. -/
theorem Leads.inherited (hk : known.Regular) (hi : known.Inherits a b)
    (h : known.Leads (.object b) p u k) (hp : p ≠ []) : known.Leads (.object a) p u k := by
  cases h with
  | here => exact absurd rfl hp
  | field hf h => exact .field (hf.inherited hk hi) h

/-- What a way leads to lies inside. -/
theorem Leads.bounds (hk : known.Regular) (h : known.Leads ty p u k) :
    0 ≤ k ∧ k + known.room u ≤ known.room ty := by
  induction h with
  | here => simp
  | field hf _ ih =>
    obtain ⟨hoffset, hstop⟩ := hf.bounds hk
    have hsize := (hk.ownSlot hf.own).size
    rw [room_object]
    omega

theorem Leads.dvd (hk : known.Regular) (h : known.Leads ty p u k) : 4 ∣ k := by
  induction h with
  | here => exact ⟨0, rfl⟩
  | field hf _ ih => exact Int.dvd_add (hk.ownSlot hf.own).whole ih

/-- Two ways lead to places that lie apart, unless one goes on where the other
    one ends. -/
theorem Leads.apart (hk : known.Regular) (h : known.Leads ty p u k)
    (h' : known.Leads ty q u' k') :
    p <+: q ∨ q <+: p ∨ k + known.room u ≤ k' ∨ k' + known.room u' ≤ k := by
  induction h generalizing q k' with
  | here => exact Or.inl List.nil_prefix
  | @field _ sel s rest u k hf h ih =>
    cases h' with
    | here => exact Or.inr (Or.inl List.nil_prefix)
    | @field _ sel' t rest' _ k' hf' h' =>
      by_cases hsel : sel = sel'
      · subst hsel
        cases hf.unique hk hf'
        rcases ih h' with hp | hq | hle | hle
        · exact Or.inl (List.cons_prefix_cons.mpr ⟨rfl, hp⟩)
        · exact Or.inr (Or.inl (List.cons_prefix_cons.mpr ⟨rfl, hq⟩))
        · exact Or.inr (Or.inr (Or.inl (by omega)))
        · exact Or.inr (Or.inr (Or.inr (by omega)))
      · have hb := h.bounds hk
        have hb' := h'.bounds hk
        have hs := (hk.ownSlot hf.own).size
        have ht := (hk.ownSlot hf'.own).size
        have happart := hf.apart hk hf' hsel
        omega

/-- A way leads to objects of older classes. -/
theorem Leads.age_le (hk : known.Regular) (h : known.Leads (.object a) p (.object b) k) :
    known.age b ≤ known.age a ∧ (p ≠ [] → known.age b < known.age a) := by
  generalize hty : Ty.object a = ty at h
  generalize hu : Ty.object b = u at h
  induction h generalizing a with
  | here =>
    cases hty.trans hu.symm
    exact ⟨Nat.le_refl _, fun h => absurd rfl h⟩
  | @field cls sel s rest u k hf h ih =>
    cases hty
    have hle := hf.inherits.age_le hk.wellFormed
    have hlt : known.age b < known.age sel.owner := by
      cases hsty : s.ty with
      | object d =>
        have hd := ((hk.ownSlot hf.own).held d hsty).2
        exact Nat.lt_of_le_of_lt (ih hsty.symm hu).1 hd
      | _ =>
        rw [hsty] at h
        cases h
        cases hu
    exact ⟨by omega, fun _ => by omega⟩

/-- In an object of a descendant, a held object of a class lies behind what the
    descendant inherits from that class. -/
theorem Leads.behind (hk : known.Regular) (hi : known.Inherits a b)
    (h : known.Leads (.object a) p (.object b) k) (hp : p ≠ []) : known.objectSize b ≤ k := by
  cases h with
  | here => exact absurd rfl hp
  | @field _ sel s rest _ k hf h =>
    have hb := h.bounds hk
    by_cases hsel : known.Inherits b sel.owner
    · -- else an object of the class would hold another one of that class
      have hself : known.Leads (.object b) (sel :: rest) (.object b) (s.offset + k) :=
        .field ⟨hsel, hf.own, hf.name⟩ h
      have hlt := (hself.age_le hk).2 (List.cons_ne_nil _ _)
      exact absurd hlt (Nat.lt_irrefl _)
    · have hbehind := hf.behind hk hi hsel
      omega

/-- What an object inherits from a class lies apart from every other object of
    exactly that class. -/
theorem Leads.beside (hk : known.Regular) (hi : known.Inherits a b)
    (h : known.Leads ty p (.object a) k) (h' : known.Leads ty q (.object b) k') :
    (p = q ∧ a = b ∧ k = k') ∨ k + known.objectSize b ≤ k' ∨ k' + known.objectSize b ≤ k := by
  by_cases heq : p = q
  · subst heq
    obtain ⟨hty, hle⟩ := h.unique hk h'
    exact Or.inl ⟨rfl, by cases hty; rfl, hle⟩
  · refine Or.inr ?_
    have hsize := hi.objectSize_le hk.wellFormed
    rcases h.apart hk h' with ⟨r, rfl⟩ | ⟨r, rfl⟩ | hle | hle
    · have hr : r ≠ [] := fun hr => heq (by rw [hr, List.append_nil])
      obtain ⟨u, l, l', hp, hq, rfl⟩ := h'.split
      obtain ⟨rfl, rfl⟩ := h.unique hk hp
      have hbehind := hq.behind hk hi hr
      exact Or.inl (by omega)
    · have hr : r ≠ [] := fun hr => heq (by rw [hr, List.append_nil])
      obtain ⟨u, l, l', hq, hp, rfl⟩ := h.split
      obtain ⟨rfl, rfl⟩ := h'.unique hk hq
      have hlt := (hp.age_le hk).2 hr
      have hle := hi.age_le hk.wellFormed
      exact absurd hlt (Nat.not_lt_of_le hle)
    · rw [room_object] at hle
      exact Or.inl (by omega)
    · rw [room_object] at hle
      exact Or.inr hle

end ways

end Known

end ClassLang
