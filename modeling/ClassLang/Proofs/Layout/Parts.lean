import ClassLang.Proofs.Layout.Geometry

/-! # Parts of objects

    What lies inside an object: what its class inherits, the objects that its
    fields hold, and the parts of these.

    * **`Part`**: an object has a part of a class at an offset.
    * **`Part.cases_on`**: a part lies at the head, or inside a held object.
    * **`Part.apart`**: two parts of one class are the same or lie apart.
    * **`Refers.apart`** is about the parts of all objects in a heap. -/

namespace ClassLang

/-! ## Rows of slots -/

namespace Tiles

variable {start stop : Int} {slots more : List Slot} {s t : Slot}

/-- A row of slots in two. -/
theorem split (h : Tiles start (slots ++ more) stop) :
    ∃ mid, Tiles start slots mid ∧ Tiles mid more stop := by
  induction slots generalizing start with
  | nil => exact ⟨start, rfl, h⟩
  | cons s rest ih =>
    obtain ⟨mid, hrest, hmore⟩ := ih h.2
    exact ⟨mid, ⟨h.1, hrest⟩, hmore⟩

/-- A row of slots has one end. -/
theorem stop_unique {stop' : Int} (h : Tiles start slots stop) (h' : Tiles start slots stop') :
    stop = stop' := by
  induction slots generalizing start with
  | nil =>
    have heq : start = stop := h
    have heq' : start = stop' := h'
    rw [← heq, heq']
  | cons s rest ih => exact ih h.2 h'.2

/-- Every slot lies between the start and the end. -/
theorem bounds (h : Tiles start slots stop) (hsizes : ∀ s ∈ slots, 0 ≤ s.size) (hs : s ∈ slots) :
    start ≤ s.offset ∧ s.offset + s.size ≤ stop := by
  induction slots generalizing start with
  | nil => cases hs
  | cons first rest ih =>
    have hfirst := hsizes first List.mem_cons_self
    have hrest : ∀ t ∈ rest, 0 ≤ t.size := fun t ht => hsizes t (List.mem_cons_of_mem _ ht)
    rcases List.mem_cons.mp hs with rfl | hs
    · have hle := Tiles.le h.2 hrest
      rw [h.1]
      omega
    · have hbounds := ih h.2 hrest hs
      omega

/-- Two slots are the same or lie apart. -/
theorem apart (h : Tiles start slots stop) (hsizes : ∀ s ∈ slots, 0 ≤ s.size) (hs : s ∈ slots)
    (ht : t ∈ slots) : s = t ∨ s.offset + s.size ≤ t.offset ∨ t.offset + t.size ≤ s.offset := by
  induction slots generalizing start with
  | nil => cases hs
  | cons first rest ih =>
    have hrest : ∀ t ∈ rest, 0 ≤ t.size := fun t ht => hsizes t (List.mem_cons_of_mem _ ht)
    rcases List.mem_cons.mp hs with rfl | hs' <;> rcases List.mem_cons.mp ht with rfl | ht'
    · exact .inl rfl
    · have hbounds := bounds h.2 hrest ht'
      rw [h.1]
      exact .inr (.inl hbounds.1)
    · have hbounds := bounds h.2 hrest hs'
      rw [h.1]
      exact .inr (.inr hbounds.1)
    · exact ih h.2 hrest hs' ht'

end Tiles

namespace Layouts

/-! ## Parts -/

/-- An object of the first class has an object of the second as its part, at an
    offset: itself, a part of what it inherits, or a part of what one of its
    fields holds. -/
inductive Part (defs : List ClassDecl) (layoutOf : String → Except Fault ObjectLayout) :
    String → Int → String → Prop where
  | self {cls layout} : layoutOf cls = .ok layout → Part defs layoutOf cls 0 cls
  | above {cls parent k other} : Derived defs cls parent → Part defs layoutOf parent k other →
      Part defs layoutOf cls k other
  | held {cls layout s inner k other} : layoutOf cls = .ok layout → s ∈ layout.fields →
      s.ty = .object inner → Part defs layoutOf inner k other →
      Part defs layoutOf cls (s.offset + k) other

variable {defs : List ClassDecl} {cls base other inner : String} {layout part : ObjectLayout}
  {k k' : Int} {s : Slot}

/-- A class that is laid out has the layout of its superclass as a prefix. -/
theorem Derived.prefix_outcome (hacyclic : Acyclic defs) (h : Derived defs cls base)
    (hlayout : outcome defs cls = .ok layout) :
    ∃ above, outcome defs base = .ok above ∧ above.fields <+: layout.fields ∧
      above.size ≤ layout.size :=
  Layouts.prefix_outcome hacyclic hlayout (.single h)

theorem Derived.depends (h : Derived defs cls base) : Depends defs cls base := by
  obtain ⟨c, hfind, hparent⟩ := h
  exact ⟨c, hfind, .inl hparent⟩

/-- A part is of a class that is laid out, and lies inside. -/
theorem Part.bounds (hacyclic : Acyclic defs) (h : Part defs (outcome defs) cls k other)
    (hlayout : outcome defs cls = .ok layout) :
    ∃ part, outcome defs other = .ok part ∧ WholeWords k ∧ k + part.size ≤ layout.size := by
  induction h generalizing layout with
  | self _ => exact ⟨layout, hlayout, wholeWords_zero, by omega⟩
  | above hderived _ ih =>
    obtain ⟨above, habove, _, hsize⟩ := hderived.prefix_outcome hacyclic hlayout
    obtain ⟨part, hpart, hwhole, hend⟩ := ih habove
    exact ⟨part, hpart, hwhole, Int.le_trans hend hsize⟩
  | @held cls found s inner k other hfound hs hty _ ih =>
    cases hfound.symm.trans hlayout
    have hshape := shape_outcome hacyclic hlayout
    obtain ⟨own, hown, hsize⟩ := hshape.held s hs inner hty
    obtain ⟨part, hpart, hwhole, hend⟩ := ih hown
    have hslot := hshape.tiles.bounds (fun t ht => (hshape.slots t ht).2.1) hs
    exact ⟨part, hpart, (hshape.slots s hs).1.add hwhole, by omega⟩

/-- A part lies at the head, and its class is an ancestor, or inside an object
    that a field holds. -/
theorem Part.cases_on (hacyclic : Acyclic defs) (h : Part defs (outcome defs) cls k other)
    (hlayout : outcome defs cls = .ok layout) :
    (k = 0 ∧ Relation.ReflTransGen (Derived defs) cls other) ∨
      ∃ s inner k', s ∈ layout.fields ∧ s.ty = .object inner ∧ k = s.offset + k' ∧
        Part defs (outcome defs) inner k' other := by
  induction h generalizing layout with
  | self _ => exact .inl ⟨rfl, .refl⟩
  | above hderived _ ih =>
    obtain ⟨above, habove, hprefix, _⟩ := hderived.prefix_outcome hacyclic hlayout
    -- the held objects of the superclass are held objects here, at the same offsets
    rcases ih habove with ⟨rfl, hbase⟩ | ⟨s, inner, k', hs, hrest⟩
    · exact .inl ⟨rfl, .head hderived hbase⟩
    · exact .inr ⟨s, inner, k', hprefix.subset hs, hrest⟩
  | held hfound hs hty hpart _ =>
    cases hfound.symm.trans hlayout
    exact .inr ⟨_, _, _, hs, hty, rfl, hpart⟩

/-- A class depends on the classes of all objects that its objects hold. -/
theorem depends_of_mem_fields (hacyclic : Acyclic defs) (h : outcome defs cls = .ok layout)
    (hs : s ∈ layout.fields) (hty : s.ty = .object inner) :
    Relation.TransGen (Depends defs) cls inner := by
  induction hn : depth defs cls using Nat.strong_induction_on generalizing cls layout with
  | _ n ih =>
    obtain ⟨c, inherited, own, hfind, hsuper, hgrows⟩ := outcome_inv hacyclic h
    rw [hgrows.slots] at hs
    rcases List.mem_append.mp hs with hs | hs
    · rcases hsuper with ⟨_, rfl⟩ | ⟨parent, hparent, habove⟩
      · cases hs
      · -- an inherited field is one of the superclass, which is less deep
        have hdepends : Depends defs cls parent := ⟨c, hfind, .inl hparent⟩
        exact .head hdepends (ih _ (hn ▸ depth_lt hacyclic hdepends) habove hs rfl)
    · have hfield : (s.name, Ty.object inner) ∈ Declaration.variables c.fields := by
        rw [← hgrows.fields, ← hty]
        exact List.mem_map_of_mem hs
      exact .single ⟨c, hfind, .inr ⟨s.name, hfield⟩⟩

/-- So it does on the classes of all parts. -/
theorem Part.depends (hacyclic : Acyclic defs) (h : Part defs (outcome defs) cls k other) :
    Relation.ReflTransGen (Depends defs) cls other := by
  induction h with
  | self _ => exact .refl
  | above hderived _ ih => exact .head hderived.depends ih
  | held hlayout hs hty _ ih =>
    exact (depends_of_mem_fields hacyclic hlayout hs hty).to_reflTransGen.trans ih

theorem depth_lt_of_transGen (hacyclic : Acyclic defs)
    (h : Relation.TransGen (Depends defs) cls other) : depth defs other < depth defs cls := by
  induction h with
  | single hdepends => exact depth_lt hacyclic hdepends
  | tail _ hdepends ih => exact Nat.lt_trans (depth_lt hacyclic hdepends) ih

/-! ## Parts of one class -/

/-- A part that lies inside a held object lies behind what the object inherits
    from the class of the part: else an object of that class would hold another
    one of its own class. -/
theorem behind_of_held (hacyclic : Acyclic defs) (hlayout : outcome defs cls = .ok layout)
    (hpart : outcome defs other = .ok part)
    (hbase : Relation.ReflTransGen (Derived defs) cls other) (hs : s ∈ layout.fields)
    (hty : s.ty = .object inner) (hinner : Part defs (outcome defs) inner k other) :
    part.size ≤ s.offset := by
  obtain ⟨above, habove, hprefix, _⟩ := prefix_outcome hacyclic hlayout hbase
  cases hpart.symm.trans habove
  obtain ⟨more, hmore⟩ := hprefix
  have hshape := shape_outcome hacyclic hlayout
  have htiles := hshape.tiles
  rw [← hmore] at htiles hs
  obtain ⟨mid, hfirst, hrest⟩ := htiles.split
  have hmid := hfirst.stop_unique (shape_outcome hacyclic hpart).tiles
  rcases List.mem_append.mp hs with hs | hs
  · -- an inherited slot: the class of the part would depend on itself
    have hholds := depends_of_mem_fields hacyclic hpart hs hty
    exact absurd (hholds.trans_left (hinner.depends hacyclic)) (hacyclic other)
  · have hsizes : ∀ t ∈ more, 0 ≤ t.size := fun t ht =>
      (hshape.slots t (hmore ▸ List.mem_append_right _ ht)).2.1
    rw [← hmid]
    exact (hrest.bounds hsizes hs).1

/-- **Parts of one class do not overlap**: two parts of one class in an object
    are the same, or one ends before the other begins. -/
theorem Part.apart (hacyclic : Acyclic defs) (hlayout : outcome defs cls = .ok layout)
    (hpart : outcome defs other = .ok part) (h : Part defs (outcome defs) cls k other)
    (h' : Part defs (outcome defs) cls k' other) :
    k = k' ∨ k + part.size ≤ k' ∨ k' + part.size ≤ k := by
  induction hn : depth defs cls using Nat.strong_induction_on generalizing cls layout k k' with
  | _ n ih =>
    have hshape := shape_outcome hacyclic hlayout
    have hsizes : ∀ t ∈ layout.fields, 0 ≤ t.size := fun t ht => (hshape.slots t ht).2.1
    -- where a part inside a held object begins and ends
    have hinside : ∀ {s inner k}, s ∈ layout.fields → s.ty = .object inner →
        Part defs (outcome defs) inner k other → 0 ≤ k ∧ k + part.size ≤ s.size := by
      intro s inner k hs hty hinner
      obtain ⟨own, hown, hsize⟩ := hshape.held s hs inner hty
      obtain ⟨found, hfound, hwhole, hend⟩ := hinner.bounds hacyclic hown
      cases hfound.symm.trans hpart
      exact ⟨hwhole.1, hsize ▸ hend⟩
    rcases h.cases_on hacyclic hlayout with ⟨rfl, hbase⟩ | ⟨s, inner, i, hs, hty, rfl, hinner⟩
    · rcases h'.cases_on hacyclic hlayout with ⟨rfl, _⟩ | ⟨t, inner', i', ht, hty', rfl, hinner'⟩
      · exact .inl rfl
      · have hbehind := behind_of_held hacyclic hlayout hpart hbase ht hty' hinner'
        have hin := hinside ht hty' hinner'
        exact .inr (.inl (by omega))
    · rcases h'.cases_on hacyclic hlayout with ⟨rfl, hbase⟩ | ⟨t, inner', i', ht, hty', rfl, hinner'⟩
      · have hbehind := behind_of_held hacyclic hlayout hpart hbase hs hty hinner
        have hin := hinside hs hty hinner
        exact .inr (.inr (by omega))
      · have hin := hinside hs hty hinner
        have hin' := hinside ht hty' hinner'
        rcases hshape.tiles.apart hsizes hs ht with rfl | hle | hle
        · -- both lie inside one held object
          cases hty.symm.trans hty'
          obtain ⟨own, hown, _⟩ := hshape.held s hs inner hty
          have hlt := depth_lt_of_transGen hacyclic (depends_of_mem_fields hacyclic hlayout hs hty)
          have hrest := ih _ (hn ▸ hlt) hown hinner hinner' rfl
          omega
        · exact .inr (.inl (by omega))
        · exact .inr (.inr (by omega))

/-! ## Parts of parts -/

/-- An object has what its class inherits at its head. -/
theorem part_of_ancestor (hacyclic : Acyclic defs) (hlayout : outcome defs cls = .ok layout)
    (hbase : Relation.ReflTransGen (Derived defs) cls base) :
    Part defs (outcome defs) cls 0 base := by
  induction hbase using Relation.ReflTransGen.head_induction_on generalizing layout with
  | refl => exact .self hlayout
  | head hderived _ ih =>
    obtain ⟨above, habove, _⟩ := hderived.prefix_outcome hacyclic hlayout
    exact .above hderived (ih habove)

/-- The parts of a part are parts. -/
theorem Part.append (h : Part defs (outcome defs) cls k other)
    (h' : Part defs (outcome defs) other k' inner) : Part defs (outcome defs) cls (k + k') inner := by
  induction h with
  | self _ => rwa [Int.zero_add]
  | above hderived _ ih => exact .above hderived (ih h')
  | held hlayout hs hty _ ih =>
    rw [Int.add_assoc]
    exact .held hlayout hs hty (ih h')

/-! ## Objects in a heap -/

/-- Objects, each of a class and at an offset, that lie apart in a heap of so many
    bytes. -/
structure Placed (layoutOf : String → Except Fault ObjectLayout) (room : Int)
    (objects : List (Int × String)) : Prop where
  inside : ∀ o ∈ objects, ∃ layout, layoutOf o.2 = .ok layout ∧ WholeWords o.1 ∧
    o.1 + layout.size ≤ room
  apart : ∀ o ∈ objects, ∀ o' ∈ objects, o ≠ o' → ∀ layout layout', layoutOf o.2 = .ok layout →
    layoutOf o'.2 = .ok layout' → o.1 + layout.size ≤ o'.1 ∨ o'.1 + layout'.size ≤ o.1

/-- At an offset there is an object of a class, or a part of this class. -/
def Refers (defs : List ClassDecl) (layoutOf : String → Except Fault ObjectLayout)
    (objects : List (Int × String)) (e : Int) (cls : String) : Prop :=
  ∃ o ∈ objects, ∃ k, Part defs layoutOf o.2 k cls ∧ e = o.1 + k

section heap

variable {objects : List (Int × String)} {room e e' : Int}

/-- What is referred to lies in the heap. -/
theorem Refers.inside (hacyclic : Acyclic defs) (hplaced : Placed (outcome defs) room objects)
    (h : Refers defs (outcome defs) objects e cls) (hpart : outcome defs cls = .ok part) :
    WholeWords e ∧ e + part.size ≤ room := by
  obtain ⟨o, ho, k, hk, rfl⟩ := h
  obtain ⟨layout, hlayout, hwhole, hend⟩ := hplaced.inside o ho
  obtain ⟨found, hfound, hoffset, hsize⟩ := hk.bounds hacyclic hlayout
  cases hfound.symm.trans hpart
  exact ⟨hwhole.add hoffset, by omega⟩

/-- From a part one comes to its own parts. -/
theorem Refers.append (h : Refers defs (outcome defs) objects e cls)
    (hpart : Part defs (outcome defs) cls k other) :
    Refers defs (outcome defs) objects (e + k) other := by
  obtain ⟨o, ho, i, hi, rfl⟩ := h
  exact ⟨o, ho, i + k, hi.append hpart, Int.add_assoc _ _ _⟩

/-- What is of a class is of its ancestors. -/
theorem Refers.ancestor (hacyclic : Acyclic defs) (hplaced : Placed (outcome defs) room objects)
    (h : Refers defs (outcome defs) objects e cls)
    (hbase : Relation.ReflTransGen (Derived defs) cls base) :
    Refers defs (outcome defs) objects e base := by
  obtain ⟨o, ho, k, hk, rfl⟩ := h
  obtain ⟨layout, hlayout, _⟩ := hplaced.inside o ho
  obtain ⟨found, hfound, _⟩ := hk.bounds hacyclic hlayout
  have hpart := hk.append (part_of_ancestor hacyclic hfound hbase)
  exact ⟨o, ho, k + 0, hpart, by rw [Int.add_zero]⟩

/-- Two references of one class refer to the same, or to what lies apart. -/
theorem Refers.apart (hacyclic : Acyclic defs) (hplaced : Placed (outcome defs) room objects)
    (h : Refers defs (outcome defs) objects e cls) (h' : Refers defs (outcome defs) objects e' cls)
    (hpart : outcome defs cls = .ok part) :
    e = e' ∨ e + part.size ≤ e' ∨ e' + part.size ≤ e := by
  obtain ⟨o, ho, k, hk, rfl⟩ := h
  obtain ⟨o', ho', k', hk', rfl⟩ := h'
  obtain ⟨layout, hlayout, _⟩ := hplaced.inside o ho
  obtain ⟨layout', hlayout', _⟩ := hplaced.inside o' ho'
  by_cases heq : o = o'
  · subst heq
    have hapart := hk.apart hacyclic hlayout hpart hk'
    omega
  · -- parts of different objects
    obtain ⟨found, hfound, hoffset, hsize⟩ := hk.bounds hacyclic hlayout
    cases hfound.symm.trans hpart
    obtain ⟨found', hfound', hoffset', hsize'⟩ := hk'.bounds hacyclic hlayout'
    cases hfound'.symm.trans hpart
    have hobjects := hplaced.apart o ho o' ho' heq layout layout' hlayout hlayout'
    have hnonneg := hoffset.1
    have hnonneg' := hoffset'.1
    omega

end heap

end Layouts

end ClassLang
