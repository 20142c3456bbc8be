import ClassLang.Proofs.Layout.Requests
import ClassLang.Proofs.Lowering.Run
import ClassLang.Proofs.Meaning.Linked

/-! # The geometry of objects

    How the slots of an object lie, in all tables of layouts that requests can
    lead to.

    * **`Tiles`**: slots one behind the other.
    * **`outcome_inv`** says all that there is to say about one class: its slots
      are the inherited ones and then its own.
    * **`Lineage`**: a class and its ancestors, from the root down.
    * **`Geometry`**: what holds of the layout of a class, next to those of its
      ancestors and of the classes that it holds.
    * **`Program.layout_geometry`** is about accepted programs. -/

namespace ClassLang

/-! ## Slots one behind the other -/

/-- The first slot starts at `start`, each of the others where the one before it
    ends, and the last ends at `stop`. -/
def Tiles : Int → List Slot → Int → Prop
  | start, [], stop => start = stop
  | start, s :: rest, stop => s.offset = start ∧ Tiles (start + s.size) rest stop

/-- A number of bytes, or an offset, that is made of whole words. -/
def WholeWords (n : Int) : Prop := 0 ≤ n ∧ Word.size ∣ n

theorem WholeWords.add {m n : Int} (hm : WholeWords m) (hn : WholeWords n) : WholeWords (m + n) :=
  ⟨Int.add_nonneg hm.1 hn.1, Int.dvd_add hm.2 hn.2⟩

theorem wholeWords_zero : WholeWords 0 := ⟨Int.le_refl 0, ⟨0, rfl⟩⟩

theorem wholeWords_word : WholeWords Word.size := ⟨by decide, Int.dvd_refl _⟩

namespace Tiles

variable {start mid stop : Int} {slots more : List Slot}

theorem append (h : Tiles start slots mid) (h' : Tiles mid more stop) :
    Tiles start (slots ++ more) stop := by
  induction slots generalizing start with
  | nil =>
    have heq : start = mid := h
    rwa [heq]
  | cons s rest ih => exact ⟨h.1, ih h.2⟩

/-- If all sizes are whole words, so are all offsets and the end. -/
theorem wholeWords (h : Tiles start slots stop) (hstart : WholeWords start)
    (hsizes : ∀ s ∈ slots, WholeWords s.size) :
    WholeWords stop ∧ ∀ s ∈ slots, WholeWords s.offset := by
  induction slots generalizing start with
  | nil =>
    have heq : start = stop := h
    rw [← heq]
    exact ⟨hstart, fun _ hs => nomatch hs⟩
  | cons s rest ih =>
    obtain ⟨hstop, hrest⟩ := ih h.2 (hstart.add (hsizes s List.mem_cons_self))
      fun t ht => hsizes t (List.mem_cons_of_mem _ ht)
    refine ⟨hstop, ?_⟩
    intro t ht
    rcases List.mem_cons.mp ht with rfl | ht
    · rw [h.1]
      exact hstart
    · exact hrest t ht

/-- Sizes that are not negative lead further. -/
theorem le (h : Tiles start slots stop) (hsizes : ∀ s ∈ slots, 0 ≤ s.size) : start ≤ stop := by
  induction slots generalizing start with
  | nil =>
    have heq : start = stop := h
    exact Int.le_of_eq heq
  | cons s rest ih =>
    have hs := hsizes s List.mem_cons_self
    have hle := ih h.2 fun t ht => hsizes t (List.mem_cons_of_mem _ ht)
    omega

end Tiles

namespace Layouts

variable {defs : List ClassDecl} {cls base : String} {layout inherited : ObjectLayout}
  {layoutOf : String → Except Fault ObjectLayout}

/-! ## One class on top of another -/

/-- What the fields of a class add to what it inherits. -/
structure Grows (layoutOf : String → Except Fault ObjectLayout) (inherited : ObjectLayout)
    (fields : List (String × Ty)) (layout : ObjectLayout) (own : List Slot) : Prop where
  slots : layout.fields = inherited.fields ++ own
  fields : own.map (fun s => (s.name, s.ty)) = fields
  tiles : Tiles inherited.size own layout.size
  sizes : ∀ s ∈ own, outcomeSize layoutOf s.ty = .ok s.size
  fits : Word.Fits inherited.size → Word.Fits layout.size

theorem exists_grows {fields : List (String × Ty)}
    (h : fields.foldlM (fun layout (name, ty) => do
        let size ← outcomeSize layoutOf ty
        layout.addField name ty size) inherited = .ok layout) :
    ∃ own, Grows layoutOf inherited fields layout own := by
  induction fields generalizing inherited with
  | nil =>
    cases h
    exact ⟨[], (List.append_nil _).symm, rfl, rfl, (fun _ hs => nomatch hs), id⟩
  | cons field rest ih =>
    obtain ⟨name, ty⟩ := field
    rw [List.foldlM_cons] at h
    obtain ⟨next, hnext, hrest⟩ := except_bind_ok_iff.mp h
    obtain ⟨size, hsize, hadd⟩ := except_bind_ok_iff.mp hnext
    obtain ⟨total, htotal, hpure⟩ := except_bind_ok_iff.mp hadd
    cases hpure
    obtain ⟨hfits, rfl⟩ := Word.exact_eq_ok_iff.mp htotal
    obtain ⟨own, hgrows⟩ := ih hrest
    refine ⟨{ name, ty, offset := inherited.size, size } :: own, ?_, ?_, ⟨rfl, hgrows.tiles⟩, ?_,
      fun _ => hgrows.fits hfits⟩
    · rw [hgrows.slots, List.append_assoc]
      rfl
    · rw [List.map_cons, hgrows.fields]
    · intro s hs
      rcases List.mem_cons.mp hs with rfl | hs
      · exact hsize
      · exact hgrows.sizes s hs

/-- A class that is laid out is defined, and its slots are those that it inherits
    and then its own. -/
theorem outcome_inv (hacyclic : Acyclic defs) (h : outcome defs cls = .ok layout) :
    ∃ c inherited own, defs.find? (·.name == cls) = some c ∧
      (c.superclass = none ∧ inherited = {} ∨
        ∃ parent, c.superclass = some parent ∧ outcome defs parent = .ok inherited) ∧
      Grows (outcome defs) inherited (Declaration.variables c.fields) layout own := by
  cases hfind : defs.find? (·.name == cls) with
  | none =>
    rw [outcome, outcomeUpTo, hfind] at h
    cases h
  | some c =>
    rw [outcome_eq hacyclic hfind] at h
    unfold outcomeOfDef at h
    cases hsuper : c.superclass with
    | none =>
      rw [hsuper] at h
      obtain ⟨own, hgrows⟩ := exists_grows h
      exact ⟨c, {}, own, rfl, .inl ⟨hsuper, rfl⟩, hgrows⟩
    | some parent =>
      rw [hsuper] at h
      obtain ⟨inherited, hparent, h⟩ := except_bind_ok_iff.mp h
      obtain ⟨own, hgrows⟩ := exists_grows h
      exact ⟨c, inherited, own, rfl, .inr ⟨parent, hsuper, hparent⟩, hgrows⟩

/-- A held object is as large as its class says. -/
theorem size_of_object {other : String} {size : Int}
    (h : outcomeSize layoutOf (.object other) = .ok size) :
    ∃ held, layoutOf other = .ok held ∧ size = held.size := by
  obtain ⟨held, hheld, hpure⟩ := except_bind_ok_iff.mp h
  cases hpure
  exact ⟨held, hheld, rfl⟩

/-- All else is one word. -/
theorem size_of_word {ty : Ty} {size : Int} (h : outcomeSize layoutOf ty = .ok size)
    (hne : ∀ other, ty ≠ .object other) : size = Word.size := by
  cases ty with
  | object other => exact absurd rfl (hne other)
  | _ =>
    cases h
    rfl

/-! ## Ancestors -/

/-- A class and its ancestors from the root down. -/
inductive Lineage (defs : List ClassDecl) : String → List ClassDecl → Prop where
  | root {cls c} : defs.find? (·.name == cls) = some c → c.superclass = none → Lineage defs cls [c]
  | derived {cls c parent chain} : defs.find? (·.name == cls) = some c →
      c.superclass = some parent → Lineage defs parent chain → Lineage defs cls (chain ++ [c])

/-- `base` is the superclass in the definition of `cls`. -/
def Derived (defs : List ClassDecl) (cls base : String) : Prop :=
  ∃ c, defs.find? (·.name == cls) = some c ∧ c.superclass = some base

/-! ## Geometry -/

/-- How the slots of a layout lie, if `layoutOf` gives the layouts of all
    classes. -/
structure Shape (layoutOf : String → Except Fault ObjectLayout) (layout : ObjectLayout) :
    Prop where
  /-- The slots fill the object without gaps. -/
  tiles : Tiles 0 layout.fields layout.size
  size : WholeWords layout.size
  fits : Word.Fits layout.size
  slots : ∀ s ∈ layout.fields, WholeWords s.offset ∧ WholeWords s.size
  /-- A held object is as large as its class says. -/
  held : ∀ s ∈ layout.fields, ∀ other, s.ty = .object other →
    ∃ own, layoutOf other = .ok own ∧ s.size = own.size
  /-- All else is one word. -/
  words : ∀ s ∈ layout.fields, (∀ other, s.ty ≠ .object other) → s.size = Word.size

/-- What is known of the layout of a class, next to those of all classes. -/
structure Geometry (defs : List ClassDecl) (layoutOf : String → Except Fault ObjectLayout)
    (cls : String) (layout : ObjectLayout) : Prop extends Shape layoutOf layout where
  /-- The slots are those of the declared fields, from the root down. -/
  fields : ∃ chain, Lineage defs cls chain ∧
    layout.fields.map (fun s => (s.name, s.ty)) =
      chain.flatMap fun c => Declaration.variables c.fields
  /-- The layout of an ancestor is a prefix, and what a method of the ancestor
      takes for a field has its slot here. -/
  prefixes : ∀ base, Relation.ReflTransGen (Derived defs) cls base →
    ∃ above, layoutOf base = .ok above ∧ above.fields <+: layout.fields ∧
      above.size ≤ layout.size ∧ ∀ x s, above.field? x = some s → s ∈ layout.fields

theorem shape_empty : Shape layoutOf {} where
  tiles := rfl
  size := wholeWords_zero
  fits := by decide
  slots := fun _ hs => nomatch hs
  held := fun _ hs => nomatch hs
  words := fun _ hs => nomatch hs

/-- Fields whose classes take whole words keep a layout in shape. -/
theorem Grows.shape {fields : List (String × Ty)} {own : List Slot}
    (h : Grows layoutOf inherited fields layout own) (hinherited : Shape layoutOf inherited)
    (hheld : ∀ other held, (∃ name, (name, Ty.object other) ∈ fields) →
      layoutOf other = .ok held → WholeWords held.size) : Shape layoutOf layout := by
  have hobject : ∀ s ∈ own, ∀ other, s.ty = .object other →
      ∃ held, layoutOf other = .ok held ∧ s.size = held.size := by
    intro s hs other hty
    have hsize := h.sizes s hs
    rw [hty] at hsize
    exact size_of_object hsize
  have hsizes : ∀ s ∈ own, WholeWords s.size := by
    intro s hs
    by_cases hty : ∃ other, s.ty = .object other
    · obtain ⟨other, hty⟩ := hty
      obtain ⟨held, hheldOf, hsize⟩ := hobject s hs other hty
      have hfield : (s.name, Ty.object other) ∈ fields := by
        rw [← h.fields, ← hty]
        exact List.mem_map_of_mem hs
      rw [hsize]
      exact hheld other held ⟨s.name, hfield⟩ hheldOf
    · rw [size_of_word (h.sizes s hs) fun other heq => hty ⟨other, heq⟩]
      exact wholeWords_word
  have htiles : Tiles 0 layout.fields layout.size := by
    rw [h.slots]
    exact hinherited.tiles.append h.tiles
  -- a slot is inherited, or it is one of the own ones
  have hmem : ∀ s ∈ layout.fields, s ∈ inherited.fields ∨ s ∈ own := by
    intro s hs
    rw [h.slots] at hs
    exact List.mem_append.mp hs
  have hall : ∀ s ∈ layout.fields, WholeWords s.size := by
    intro s hs
    rcases hmem s hs with hs | hs
    · exact (hinherited.slots s hs).2
    · exact hsizes s hs
  obtain ⟨hstop, hoffsets⟩ := htiles.wholeWords wholeWords_zero hall
  refine ⟨htiles, hstop, h.fits hinherited.fits, fun s hs => ⟨hoffsets s hs, hall s hs⟩, ?_, ?_⟩
  · intro s hs other hty
    rcases hmem s hs with hs | hs
    · exact hinherited.held s hs other hty
    · exact hobject s hs other hty
  · intro s hs hne
    rcases hmem s hs with hs | hs
    · exact hinherited.words s hs hne
    · exact size_of_word (h.sizes s hs) hne

/-- Every layout is in shape: by induction on how many classes depend on each
    other below. -/
theorem shape_outcome (hacyclic : Acyclic defs) (h : outcome defs cls = .ok layout) :
    Shape (outcome defs) layout := by
  induction hn : depth defs cls using Nat.strong_induction_on generalizing cls layout with
  | _ n ih =>
    obtain ⟨c, inherited, own, hfind, hsuper, hgrows⟩ := outcome_inv hacyclic h
    have hbelow : ∀ other held, BuildsOn c other → outcome defs other = .ok held →
        Shape (outcome defs) held := by
      intro other held hbuilds hheld
      have hlt := depth_lt hacyclic ⟨c, hfind, hbuilds⟩
      exact ih _ (hn ▸ hlt) hheld rfl
    have hinherited : Shape (outcome defs) inherited := by
      rcases hsuper with ⟨_, rfl⟩ | ⟨parent, hparent, hlayout⟩
      · exact shape_empty
      · exact hbelow parent inherited (.inl hparent) hlayout
    exact hgrows.shape hinherited fun other held hfield hheld =>
      (hbelow other held (.inr hfield) hheld).size

/-- The slots of a class are those of its ancestors' fields and of its own. -/
theorem fields_outcome (hacyclic : Acyclic defs) (h : outcome defs cls = .ok layout) :
    ∃ chain, Lineage defs cls chain ∧
      layout.fields.map (fun s => (s.name, s.ty)) =
        chain.flatMap fun c => Declaration.variables c.fields := by
  induction hn : depth defs cls using Nat.strong_induction_on generalizing cls layout with
  | _ n ih =>
    obtain ⟨c, inherited, own, hfind, hsuper, hgrows⟩ := outcome_inv hacyclic h
    rw [hgrows.slots, List.map_append, hgrows.fields]
    rcases hsuper with ⟨hnone, rfl⟩ | ⟨parent, hparent, hlayout⟩
    · exact ⟨[c], .root hfind hnone, by simp⟩
    · have hlt := depth_lt hacyclic ⟨c, hfind, .inl hparent⟩
      obtain ⟨chain, hchain, hfields⟩ := ih _ (hn ▸ hlt) hlayout rfl
      refine ⟨chain ++ [c], .derived hfind hparent hchain, ?_⟩
      rw [hfields, List.flatMap_append, List.flatMap_singleton]

/-- The layout of an ancestor is a prefix. -/
theorem prefix_outcome (hacyclic : Acyclic defs) (h : outcome defs cls = .ok layout)
    (hbase : Relation.ReflTransGen (Derived defs) cls base) :
    ∃ above, outcome defs base = .ok above ∧ above.fields <+: layout.fields ∧
      above.size ≤ layout.size := by
  induction hbase using Relation.ReflTransGen.head_induction_on generalizing layout with
  | refl => exact ⟨layout, h, List.prefix_rfl, Int.le_refl _⟩
  | head hderived _ ih =>
    obtain ⟨c, hfind, hparent⟩ := hderived
    obtain ⟨c', inherited, own, hfind', hsuper, hgrows⟩ := outcome_inv hacyclic h
    cases hfind.symm.trans hfind'
    rcases hsuper with ⟨hnone, _⟩ | ⟨parent, hsome, hlayout⟩
    · rw [hparent] at hnone
      cases hnone
    · cases hparent.symm.trans hsome
      obtain ⟨above, habove, hprefix, hsize⟩ := ih hlayout
      refine ⟨above, habove, ?_, Int.le_trans hsize ?_⟩
      · rw [hgrows.slots]
        exact hprefix.trans (List.prefix_append _ _)
      · -- the own slots lie behind the inherited ones
        apply hgrows.tiles.le
        intro s hs
        have hmem : s ∈ layout.fields := hgrows.slots ▸ List.mem_append_right _ hs
        exact ((shape_outcome hacyclic h).slots s hmem).2.1

/-- All that holds of a layout that is computed anew. -/
theorem geometry_outcome (hacyclic : Acyclic defs) (h : outcome defs cls = .ok layout) :
    Geometry defs (outcome defs) cls layout where
  toShape := shape_outcome hacyclic h
  fields := fields_outcome hacyclic h
  prefixes := by
    intro base hbase
    obtain ⟨above, habove, hprefix, hsize⟩ := prefix_outcome hacyclic h hbase
    refine ⟨above, habove, hprefix, hsize, ?_⟩
    intro x s hs
    exact hprefix.subset (List.mem_reverse.mp (List.mem_of_find?_eq_some hs))

/-! ## Tables that requests lead to -/

/-- The layouts that a table of layouts gives on request. -/
def given (defs : List ClassDecl) (l : Layouts) (cls : String) : Except Fault ObjectLayout :=
  answer (layoutClass defs cls l)

/-- The tables that requests for classes and methods lead to, whether they were
    answered or not. -/
inductive Reachable (defs : List ClassDecl) : Layouts → Prop where
  | empty : Reachable defs {}
  | askClass {l} (cls : String) : Reachable defs l → Reachable defs (table (layoutClass defs cls l))
  | askFrame {l} (cls : String) (m : Method) : Reachable defs l →
      Reachable defs (table (layoutFrame cls m l))

/-- A request for a method is of no concern to the layouts of classes. -/
theorem layoutFrame_objects (cls : String) (m : Method) (l : Layouts) :
    (table (layoutFrame cls m l)).objects = l.objects := by
  unfold layoutFrame
  rw [get_bind]
  cases l.frame? cls m.name with
  | some frame => rfl
  | none =>
    simp only [bind, EStateM.bind]
    cases Frame.ofMethod m with
    | error f => rfl
    | ok frame => rfl

/-- Requests lead to faithful tables. -/
theorem Reachable.faithful (hacyclic : Acyclic defs) {l : Layouts} (h : Reachable defs l) :
    Faithful defs l := by
  induction h with
  | empty => exact faithful_empty
  | askClass cls _ ih => exact (tracks_layoutClass hacyclic cls _ ih).2.1
  | @askFrame l cls m _ ih =>
    -- what is remembered of classes is what was remembered before
    intro other layout hentry
    apply ih other layout
    rwa [object?, layoutFrame_objects] at hentry

/-- Where no class depends on itself, all tables that requests lead to give the
    layouts that are computed anew. -/
theorem Reachable.given_eq (hacyclic : Acyclic defs) {l : Layouts} (h : Reachable defs l) :
    given defs l = outcome defs :=
  funext fun cls => (tracks_layoutClass hacyclic cls l (h.faithful hacyclic)).1

end Layouts

/-! ## Accepted programs -/

namespace Known

/-- A class builds on older classes: its superclass, and those of its fields. -/
theorem Regular.builds_on_older {known : Known} (hk : known.Regular) {i : Interface} (hi : i ∈ known)
    {other : String} (h : i.superclass = some other ∨ ∃ name, (name, Ty.object other) ∈ i.fields) :
    known.Declares other ∧ known.age other < known.age i.name := by
  induction known with
  | nil => cases hi
  | cons j older ih =>
    rcases List.mem_cons.mp hi with rfl | hi
    · have hdecl : Declares older other := by
        rcases h with hsuper | ⟨name, hfield⟩
        · exact hk.wellFormed.2.1 other hsuper
        · exact hk.held.1 _ hfield other rfl
      refine ⟨(declares_cons _ _ _).mpr (.inr hdecl), ?_⟩
      rw [age_cons_of_declares hk.wellFormed hdecl, age, if_pos rfl]
      exact Nat.lt_succ_of_le (age_le_length older other)
    · obtain ⟨hdecl, hlt⟩ := ih hk.older hi
      refine ⟨(declares_cons _ _ _).mpr (.inr hdecl), ?_⟩
      rwa [age_cons_of_declares hk.wellFormed hdecl,
        age_cons_of_declares hk.wellFormed ⟨i, hi, rfl⟩]

end Known

namespace Program

variable {mark : Mark} {p : Program}

/-- In a program that follows the rules no class depends on itself. -/
theorem Derives.acyclic (h : p.Derives mark) : Layouts.Acyclic p.classes := by
  apply Layouts.acyclic_of_rank p.known.age
  intro c hc other hbuilds
  have hmem : c.interface ∈ p.known := by
    simp only [known, ClassDecl.knownAfter, List.append_nil, List.mem_reverse]
    exact List.mem_map_of_mem hc
  exact (h.regular.builds_on_older hmem hbuilds).2

/-- **The geometry of objects**: whatever was asked before, the layout that is
    given for a class of an accepted program has no gaps and is made of whole
    words, gives each held object the size of its own class, has the fields of
    all ancestors from the root down and then those of the class, and has the
    layout of every ancestor as a prefix. -/
theorem layout_geometry {source : String} {a : Analysis} (ha : analyze source = .ok a)
    {l l' : Layouts} (hl : Layouts.Reachable a.program.classes l) {cls : String}
    {layout : ObjectLayout} (h : Layouts.layoutClass a.program.classes cls l = .ok layout l') :
    Layouts.Geometry a.program.classes (Layouts.given a.program.classes l) cls layout := by
  have hacyclic := (elaborated_of_analyze ha).1.acyclic
  have hgiven := hl.given_eq hacyclic
  have hlayout : Layouts.outcome a.program.classes cls = .ok layout := by
    rw [← hgiven, Layouts.given, h]
    rfl
  rw [hgiven]
  exact Layouts.geometry_outcome hacyclic hlayout

/-- Three classes on one chain, which hold objects of each other. -/
def layered : String :=
  "class P { int x; bool y; } class Q : P { P p; int z; }
class Program : Q { Q q; P r; nothing start() { return nothing; } }"

/-- The layout of the last of them. -/
def layeredObject : ObjectLayout where
  fields := [⟨"x", .int, 0, 4⟩, ⟨"y", .bool, 4, 4⟩, ⟨"p", .object "P", 8, 8⟩, ⟨"z", .int, 16, 4⟩,
    ⟨"q", .object "Q", 20, 20⟩, ⟨"r", .object "P", 40, 8⟩]
  size := 48

set_option maxRecDepth 4096 in
/-- This layout, after a request for another class. -/
theorem layout_geometry_layered : ∃ a l', analyze layered = .ok a ∧
    Layouts.layoutClass a.program.classes "Program"
      (Layouts.table (Layouts.layoutClass a.program.classes "P" {})) = .ok layeredObject l' ∧
    Layouts.Geometry a.program.classes (Layouts.given a.program.classes
      (Layouts.table (Layouts.layoutClass a.program.classes "P" {}))) "Program" layeredObject := by
  have h : ((analyze layered).toOption.any fun a => decide ((Layouts.given a.program.classes
      (Layouts.table (Layouts.layoutClass a.program.classes "P" {})) "Program").toOption =
        some layeredObject)) = true := by cbv
  obtain ⟨a, ha, h⟩ := (Option.any_eq_true _ _).mp h
  have ha := except_ok_of_toOption ha
  have hgiven := except_ok_of_toOption (of_decide_eq_true h)
  unfold Layouts.given at hgiven
  cases hl : Layouts.layoutClass a.program.classes "Program"
      (Layouts.table (Layouts.layoutClass a.program.classes "P" {})) with
  | error f l' =>
    rw [hl] at hgiven
    cases hgiven
  | ok layout l' =>
    rw [hl] at hgiven
    cases hgiven
    exact ⟨a, l', ha, hl, layout_geometry ha (.askClass "P" .empty) hl⟩

end Program

end ClassLang
