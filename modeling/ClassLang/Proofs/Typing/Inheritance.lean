import ClassLang.Proofs.Typing.Later

/-! # The order of inheritance

    Registering classes builds an order that never changes for the classes
    that are in it.

    * **`Hierarchy.Admits`**: a class may be registered if its name is new and
      its parent is registered.  **`Hierarchy.Grows`** is registering some such
      classes, and **`Hierarchy.Registered`** are the hierarchies that this
      leads to.
    * **`Registered.ancestors_eq`**: a walk starts at its class and goes on like
      that of the parent; **`Registered.ancestors_insert`**: registering another
      class does not change it.
    * **`Registered.suffix_of_reaches`**: the walk of an ancestor is the end of
      the walk of a class.  The laws of the order follow from this.
    * **`Hierarchy.inheritance_stable`** is all of it. -/

namespace ClassLang

namespace Hierarchy

/-! ## Registrations -/

/-- A class that may be registered next. -/
structure Admits (h : Hierarchy) (entry : ClassEntry) : Prop where
  name : h.contains entry.name = false
  parent : ∀ p, entry.parent = some p → h.contains p = true

/-- The second hierarchy comes from the first by registering classes one after
    another. -/
inductive Grows (h : Hierarchy) : Hierarchy → Prop where
  | none : Grows h h
  | insert {u entry} : Grows h u → u.Admits entry → Grows h (u.insert entry)

/-- The hierarchies that registering classes leads to. -/
abbrev Registered (h : Hierarchy) : Prop := Grows {} h

variable {h u : Hierarchy} {a b c : String} {e entry : ClassEntry}

theorem contains_insert : (h.insert entry).contains a = true ↔
    entry.name = a ∨ h.contains a = true := by
  rw [contains, find?_insert]
  by_cases ha : entry.name = a
  · simp [ha]
  · simp [ha, contains]

theorem contains_of_find? (hf : h.find? a = some e) : h.contains a = true := by
  rw [contains, hf]
  rfl

theorem name_of_find? (hf : h.find? a = some e) : e.name = a := by
  simpa using List.find?_some hf

/-- A class that is registered has another name than the next one. -/
theorem Admits.ne (hadm : h.Admits entry) (ha : h.contains a = true) : entry.name ≠ a := by
  rintro rfl
  rw [hadm.name] at ha
  cases ha

/-- The parent of a registered class is registered. -/
theorem Registered.parent (hr : h.Registered) (hf : h.find? a = some e) {p : String}
    (hp : e.parent = some p) : h.contains p = true := by
  induction hr generalizing a e with
  | none => cases hf
  | @insert u entry _ hadm ih =>
    rw [contains_insert]
    rw [find?_insert] at hf
    split at hf
    · cases hf
      exact Or.inr (hadm.parent p hp)
    · exact Or.inr (ih hf hp)

/-! ## Walks -/

/-- A new class is on no walk of the others. -/
theorem Registered.chain_insert (hr : h.Registered) (hadm : h.Admits entry)
    (ha : h.contains a = true) (length : Nat) :
    (h.insert entry).chain length (h.find? a) = h.chain length (h.find? a) := by
  induction length generalizing a with
  | zero => rfl
  | succ length ih =>
    cases hf : h.find? a with
    | none => rfl
    | some e =>
      have hparent : (h.insert entry).chain length ((h.insert entry).parent? e) =
          h.chain length (h.parent? e) := by
        cases hp : e.parent with
        | none =>
          rw [parent?, parent?, hp]
          cases length <;> rfl
        | some p =>
          have hc := hr.parent hf hp
          rw [parent?, parent?, hp]
          show (h.insert entry).chain length ((h.insert entry).find? p) = _
          rw [find?_insert, if_neg (hadm.ne hc)]
          exact ih hc
      rw [chain, chain, hparent]

/-- No walk is longer than the number of registrations. -/
theorem Registered.chain_eq (hr : h.Registered) {length : Nat}
    (hlength : h.entries.length ≤ length) : h.chain length (h.find? a) = h.ancestors a := by
  induction hr generalizing a length with
  | none => cases length <;> rfl
  | @insert u entry hu hadm ih =>
    obtain ⟨length, rfl⟩ := Nat.exists_eq_add_of_le' (Nat.le_trans (Nat.succ_pos _) hlength)
    have hle : u.entries.length ≤ length := Nat.le_of_succ_le_succ hlength
    have hold : ∀ p, u.contains p = true → ∀ k, u.entries.length ≤ k →
        (u.insert entry).chain k ((u.insert entry).find? p) = u.ancestors p := by
      intro p hp k hk
      rw [find?_insert, if_neg (hadm.ne hp), chain_insert hu hadm hp, ih hk]
    rw [ancestors]
    by_cases ha : entry.name = a
    · -- one more step than the walk of the parent
      rw [find?_insert, if_pos ha]
      show entry :: _ = entry :: _
      cases hp : entry.parent with
      | none =>
        rw [parent?, hp]
        cases length <;> cases u.entries.length <;> rfl
      | some p =>
        have hc := hadm.parent p hp
        rw [parent?, hp]
        show _ :: (u.insert entry).chain _ ((u.insert entry).find? p) =
          _ :: (u.insert entry).chain _ ((u.insert entry).find? p)
        rw [hold p hc _ hle, hold p hc _ (Nat.le_refl _)]
    · cases hc : u.contains a with
      | true =>
        have hsucc : u.entries.length ≤ (u.insert entry).entries.length := Nat.le_succ _
        rw [hold a hc _ (Nat.le_succ_of_le hle), hold a hc _ hsucc]
      | false =>
        have hnone : (u.insert entry).find? a = none := by
          rw [find?_insert, if_neg ha]
          simpa [contains] using hc
        rw [hnone]
        rfl

/-- The walk of a registered class starts there and goes on like that of its
    parent. -/
theorem Registered.ancestors_eq (hr : h.Registered) (hf : h.find? a = some e) :
    h.ancestors a = e :: e.parent.elim [] h.ancestors := by
  rw [← hr.chain_eq (Nat.le_succ _), hf]
  show e :: h.chain h.entries.length (h.parent? e) = _
  cases hp : e.parent with
  | none =>
    rw [parent?, hp]
    cases h.entries.length <;> rfl
  | some p =>
    rw [parent?, hp]
    rfl

/-- A new class changes no other walk. -/
theorem Registered.ancestors_insert (hr : h.Registered) (hadm : h.Admits entry)
    (ha : h.contains a = true) : (h.insert entry).ancestors a = h.ancestors a := by
  rw [ancestors, find?_insert, if_neg (hadm.ne ha), chain_insert hr hadm ha]
  exact hr.chain_eq (Nat.le_succ _)

/-- The walk of an unregistered class is empty. -/
theorem ancestors_of_find?_none (hf : h.find? a = none) : h.ancestors a = [] := by
  rw [ancestors, hf]
  cases h.entries.length <;> rfl

/-! ## Reaching a class by steps to the parent -/

/-- `b` is the parent of `a`. -/
def Extends (h : Hierarchy) (a b : String) : Prop :=
  ∃ e, h.find? a = some e ∧ e.parent = some b

/-- `b` is reached from `a` by zero or more steps to the parent. -/
abbrev Reaches (h : Hierarchy) : String → String → Prop := Relation.ReflTransGen h.Extends

/-- What is reached from a registered class is registered. -/
theorem Registered.contains_of_reaches (hr : h.Registered) (hab : h.Reaches a b)
    (ha : h.contains a = true) : h.contains b = true := by
  induction hab with
  | refl => exact ha
  | tail _ hstep _ =>
    obtain ⟨e, hf, hp⟩ := hstep
    exact hr.parent hf hp

/-- The walk of an ancestor is the end of the walk of a class. -/
theorem Registered.suffix_of_reaches (hr : h.Registered) (hab : h.Reaches a b) :
    h.ancestors b <:+ h.ancestors a := by
  induction hab using Relation.ReflTransGen.head_induction_on with
  | refl => exact List.suffix_rfl
  | head hstep _ ih =>
    obtain ⟨e, hf, hp⟩ := hstep
    rw [hr.ancestors_eq hf, hp]
    exact ih.trans (List.suffix_cons _ _)

/-- Every class on a walk is reached: by induction on the walk. -/
theorem Registered.reaches_of_mem (hr : h.Registered) (he : e ∈ h.ancestors a) :
    h.Reaches a e.name := by
  induction hw : h.ancestors a generalizing a with
  | nil =>
    rw [hw] at he
    cases he
  | cons first rest ih =>
    cases hf : h.find? a with
    | none =>
      rw [ancestors_of_find?_none hf] at he
      cases he
    | some start =>
      have hwalk := hr.ancestors_eq hf
      rw [hw, List.cons.injEq] at hwalk
      obtain ⟨rfl, hrest⟩ := hwalk
      rw [hw] at he
      rcases List.mem_cons.mp he with rfl | he
      · rw [name_of_find? hf]
      · cases hp : first.parent with
        | none =>
          rw [hp] at hrest
          rw [hrest] at he
          cases he
        | some p =>
          rw [hp, Option.elim_some] at hrest
          rw [hrest] at he
          exact .head ⟨first, hf, hp⟩ (ih he hrest.symm)

/-- A class is a subclass of those that are reached from it, and of no
    others. -/
theorem Registered.isSubclass_iff (hr : h.Registered) :
    h.isSubclass a b = true ↔ h.contains a = true ∧ h.Reaches a b := by
  constructor
  · intro hsub
    obtain ⟨e, he, hname⟩ := List.any_eq_true.mp hsub
    have hname : e.name = b := by simpa using hname
    refine ⟨?_, hname ▸ hr.reaches_of_mem he⟩
    cases hf : h.find? a with
    | none =>
      rw [ancestors_of_find?_none hf] at he
      cases he
    | some start => exact contains_of_find? hf
  · rintro ⟨ha, hab⟩
    obtain ⟨e, hf⟩ := Option.isSome_iff_exists.mp (hr.contains_of_reaches hab ha)
    have he : e ∈ h.ancestors b := by
      rw [hr.ancestors_eq hf]
      exact List.mem_cons_self
    have hmem : e ∈ h.ancestors a := (hr.suffix_of_reaches hab).subset he
    exact List.any_eq_true.mpr ⟨e, hmem, by simpa using name_of_find? hf⟩

/-! ## The laws of the order -/

/-- The classes on the walk of `a`: first `a` itself, then one parent after the
    other up to a class without a parent, and none twice. -/
structure Ascends (h : Hierarchy) (a : String) (walk : List ClassEntry) : Prop where
  first : ∃ e, h.find? a = some e ∧ e.name = a ∧ walk.head? = some e
  steps : walk.IsChain fun e e' => e.parent = some e'.name
  last : ∀ e, walk.getLast? = some e → e.parent = none
  distinct : (walk.map ClassEntry.name).Nodup

/-- All the laws of a hierarchy. -/
structure Ordered (h : Hierarchy) : Prop where
  ascends : ∀ a, h.contains a = true → h.Ascends a (h.ancestors a)
  isSubclass_iff : ∀ a b, h.isSubclass a b = true ↔ h.contains a = true ∧ h.Reaches a b
  refl : ∀ a, h.contains a = true → h.isSubclass a a = true
  trans : ∀ a b c, h.isSubclass a b = true → h.isSubclass b c = true → h.isSubclass a c = true
  antisymm : ∀ a b, h.isSubclass a b = true → h.isSubclass b a = true → a = b
  comparable : ∀ a b c, h.isSubclass a b = true → h.isSubclass a c = true →
    h.isSubclass b c = true ∨ h.isSubclass c b = true

/-- A class is not on the walk of its parent, which would be longer than itself
    otherwise. -/
theorem Registered.name_notMem_parent (hr : h.Registered) (hf : h.find? a = some e) {p : String}
    (hp : e.parent = some p) : a ∉ (h.ancestors p).map ClassEntry.name := by
  intro hmem
  obtain ⟨e', he', rfl⟩ := List.mem_map.mp hmem
  have hle := (hr.suffix_of_reaches (hr.reaches_of_mem he')).length_le
  rw [hr.ancestors_eq hf, hp, List.length_cons, Option.elim_some] at hle
  omega

/-- The walk of a registered class: by induction on the walk. -/
theorem Registered.ascends (hr : h.Registered) (ha : h.contains a = true) :
    h.Ascends a (h.ancestors a) := by
  induction hw : h.ancestors a generalizing a with
  | nil =>
    obtain ⟨e, hf⟩ := Option.isSome_iff_exists.mp ha
    rw [hr.ancestors_eq hf] at hw
    cases hw
  | cons e rest ih =>
    obtain ⟨start, hf⟩ := Option.isSome_iff_exists.mp ha
    have hwalk := hr.ancestors_eq hf
    rw [hw, List.cons.injEq] at hwalk
    obtain ⟨rfl, hrest⟩ := hwalk
    have hfirst : ∃ e', h.find? a = some e' ∧ e'.name = a ∧ (e :: rest).head? = some e' :=
      ⟨e, hf, name_of_find? hf, rfl⟩
    cases hp : e.parent with
    | none =>
      rw [hp, Option.elim_none] at hrest
      rw [hrest]
      exact ⟨hrest ▸ hfirst, .singleton e, by simpa using hp, by simp⟩
    | some p =>
      rw [hp, Option.elim_some] at hrest
      have hparent := ih (hr.parent hf hp) hrest.symm
      obtain ⟨e', -, hname, hhead⟩ := hparent.first
      -- the walk of the parent starts there, and ends where this one ends
      obtain ⟨others, rfl⟩ := List.head?_eq_some_iff.mp hhead
      refine ⟨hfirst, ?_, ?_, ?_⟩
      · rw [List.isChain_cons_cons, hp, hname]
        exact ⟨rfl, hparent.steps⟩
      · rw [List.getLast?_cons_cons]
        exact hparent.last
      · rw [List.map_cons, List.nodup_cons, name_of_find? hf]
        exact ⟨hrest ▸ hr.name_notMem_parent hf hp, hparent.distinct⟩

/-- Two classes whose walks end alike are subclasses of one another. -/
theorem Registered.reaches_of_suffix (hr : h.Registered) (ha : h.contains a = true)
    (hsuffix : h.ancestors a <:+ h.ancestors b) : h.Reaches b a := by
  obtain ⟨e, hf⟩ := Option.isSome_iff_exists.mp ha
  have he : e ∈ h.ancestors a := by
    rw [hr.ancestors_eq hf]
    exact List.mem_cons_self
  have hreach := hr.reaches_of_mem (hsuffix.subset he)
  rwa [name_of_find? hf] at hreach

theorem Registered.antisymm (hr : h.Registered) (ha : h.contains a = true)
    (hab : h.Reaches a b) (hba : h.Reaches b a) : a = b := by
  have hb := hr.contains_of_reaches hab ha
  have heq : h.ancestors a = h.ancestors b :=
    (hr.suffix_of_reaches hba).eq_of_length_le (hr.suffix_of_reaches hab).length_le
  obtain ⟨e, hfa⟩ := Option.isSome_iff_exists.mp ha
  obtain ⟨e', hfb⟩ := Option.isSome_iff_exists.mp hb
  rw [hr.ancestors_eq hfa, hr.ancestors_eq hfb, List.cons.injEq] at heq
  rw [← name_of_find? hfa, ← name_of_find? hfb, heq.1]

/-- Two classes that are reached from one lie on one walk. -/
theorem Registered.comparable (hr : h.Registered) (ha : h.contains a = true)
    (hab : h.Reaches a b) (hac : h.Reaches a c) : h.Reaches b c ∨ h.Reaches c b := by
  have hb := hr.contains_of_reaches hab ha
  have hc := hr.contains_of_reaches hac ha
  rcases List.suffix_or_suffix_of_suffix (hr.suffix_of_reaches hab) (hr.suffix_of_reaches hac)
    with hsuffix | hsuffix
  · exact Or.inr (hr.reaches_of_suffix hb hsuffix)
  · exact Or.inl (hr.reaches_of_suffix hc hsuffix)

theorem Registered.ordered (hr : h.Registered) : h.Ordered where
  ascends := fun _ ha => hr.ascends ha
  isSubclass_iff := fun _ _ => hr.isSubclass_iff
  refl := fun _ ha => hr.isSubclass_iff.mpr ⟨ha, .refl⟩
  trans := by
    intro a b c hab hbc
    rw [hr.isSubclass_iff] at hab hbc ⊢
    exact ⟨hab.1, hab.2.trans hbc.2⟩
  antisymm := by
    intro a b hab hba
    rw [hr.isSubclass_iff] at hab hba
    exact hr.antisymm hab.1 hab.2 hba.2
  comparable := by
    intro a b c hab hac
    rw [hr.isSubclass_iff] at hab hac
    have hb := hr.contains_of_reaches hab.2 hab.1
    have hc := hr.contains_of_reaches hac.2 hac.1
    rw [hr.isSubclass_iff, hr.isSubclass_iff]
    exact (hr.comparable hab.1 hab.2 hac.2).imp (⟨hb, ·⟩) (⟨hc, ·⟩)

/-! ## Later registrations -/

/-- `u` answers every question about the classes of `h` as `h` does. -/
structure Extended (h u : Hierarchy) : Prop where
  contains : ∀ a, h.contains a = true → u.contains a = true
  find? : ∀ a, h.contains a = true → u.find? a = h.find? a
  parentOf? : ∀ a, h.contains a = true → u.parentOf? a = h.parentOf? a
  ancestors : ∀ a, h.contains a = true → u.ancestors a = h.ancestors a
  isSubclass : ∀ a b, h.contains a = true → h.contains b = true →
    u.isSubclass a b = h.isSubclass a b
  resolve : ∀ a, h.contains a = true → ∀ scopes member,
    u.resolve scopes a member = h.resolve scopes a member

/-- What is found and walked alike is answered alike. -/
theorem Registered.extended (hr : h.Registered)
    (hfind : ∀ a, h.contains a = true → u.find? a = h.find? a)
    (hwalk : ∀ a, h.contains a = true → u.ancestors a = h.ancestors a) : h.Extended u where
  contains := by
    intro a ha
    rw [Hierarchy.contains, hfind a ha]
    exact ha
  find? := hfind
  parentOf? := by
    intro a ha
    rw [Hierarchy.parentOf?, Hierarchy.parentOf?, hfind a ha]
    cases hf : h.find? a with
    | none => rfl
    | some e =>
      show e.parent.bind u.find? = e.parent.bind h.find?
      cases hp : e.parent with
      | none => rfl
      | some p => exact hfind p (hr.parent hf hp)
  ancestors := hwalk
  isSubclass := by
    intro a b ha _
    rw [Hierarchy.isSubclass, hwalk a ha, Hierarchy.isSubclass]
  resolve := by
    intro a ha scopes member
    rw [Hierarchy.resolve, hwalk a ha, Hierarchy.resolve]

/-- Registering classes is no concern of those that are registered. -/
theorem Registered.extended_of_grows (hr : h.Registered) (hu : h.Grows u) :
    u.Registered ∧ h.Extended u := by
  induction hu with
  | none => exact ⟨hr, hr.extended (fun _ _ => rfl) fun _ _ => rfl⟩
  | @insert u entry _ hadm ih =>
    obtain ⟨hu, hext⟩ := ih
    refine ⟨.insert hu hadm, hr.extended ?_ ?_⟩
    · intro a ha
      rw [find?_insert, if_neg (hadm.ne (hext.contains a ha)), hext.find? a ha]
    · intro a ha
      rw [hu.ancestors_insert hadm (hext.contains a ha), hext.ancestors a ha]

/-- **Inheritance is a stable order**: whatever classes are registered, each
    with a new name and on top of a registered parent if any, the walk of every
    class goes up without repetition to a class without a parent, being a
    subclass is reaching by steps to the parent and is an order in which the
    superclasses of a class are comparable; and no class that is registered
    later changes an answer about those that are there. -/
theorem inheritance_stable (hr : h.Registered) :
    h.Ordered ∧ ∀ u, h.Grows u → u.Ordered ∧ h.Extended u := by
  refine ⟨hr.ordered, ?_⟩
  intro u hu
  obtain ⟨hregistered, hext⟩ := hr.extended_of_grows hu
  exact ⟨hregistered.ordered, hext⟩

/-- A class and a subclass of it. -/
def sampleHierarchy : Hierarchy :=
  Hierarchy.insert (Hierarchy.insert {} ⟨"Shape", none, 0, 1⟩) ⟨"Circle", some "Shape", 1, 4⟩

/-- A sister of the subclass that comes later. -/
theorem inheritance_stable_sample : sampleHierarchy.Registered ∧
    (sampleHierarchy.insert ⟨"Square", some "Shape", 2, 6⟩).Ordered ∧
    sampleHierarchy.Extended (sampleHierarchy.insert ⟨"Square", some "Shape", 2, 6⟩) := by
  have hr : sampleHierarchy.Registered :=
    .insert (.insert .none ⟨rfl, by simp⟩) ⟨by decide, by simp; decide⟩
  exact ⟨hr, (inheritance_stable hr).2 _ (.insert .none ⟨by decide, by simp; decide⟩)⟩

end Hierarchy

/-- Checking registers a class only where this is admitted. -/
theorem Tables.admits_of_register {t u : Tables} {index : Nat} {c : ClassDecl}
    (h : t.register index c = .ok u) :
    ∃ entry : ClassEntry, entry.name = c.name ∧ entry.parent = c.superclass ∧
      t.classes.Admits entry ∧ u.classes = t.classes.insert entry := by
  unfold register at h
  split at h
  · cases h
  · next hparent =>
    split at h
    · cases h
    · next hname =>
      cases h
      refine ⟨_, rfl, rfl, ⟨by simpa using hname, ?_⟩, rfl⟩
      intro p hp
      have hp : c.superclass = some p := hp
      simpa [hp] using hparent

end ClassLang
