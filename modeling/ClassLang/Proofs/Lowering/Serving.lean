import ClassLang.Proofs.Layout.Regular
import ClassLang.Proofs.Lowering.Total

/-! # Sites of a well-typed program

    Every method of a representable, elaborated program is served by a site
    with the layouts of the classes up to its own.

    * **`Program.Derives.wellFormed_at`** and **`Program.Derives.proper_at`**: what is known
      of the classes that a method sees.
    * **`Program.serves_at`**: a site that is put together from the right parts
      serves its method. -/

namespace ClassLang

variable {mark : Mark}

/-! ## Known classes of a program -/

namespace ClassDecl

/-- Classes that follow the rules are well formed together. -/
theorem AllDerive.wellFormed {known : Known} {classes : List ClassDecl}
    (h : AllDerive mark known classes) (hk : known.WellFormed) :
    Known.WellFormed (knownAfter known classes) := by
  induction classes generalizing known with
  | nil => exact hk
  | cons c rest ih =>
    rw [knownAfter_cons]
    exact ih h.2 ⟨h.1.name, h.1.superclass, hk⟩

/-- The first classes of a list follow the rules by themselves. -/
theorem AllDerive.left {known : Known} {older newer : List ClassDecl}
    (h : AllDerive mark known (older ++ newer)) : AllDerive mark known older := by
  induction older generalizing known with
  | nil => trivial
  | cons c rest ih => exact ⟨h.1, ih h.2⟩

/-- The fields of a class have types that can be written. -/
theorem plain_of_mem_variables {decls : List Declaration} {b : String × Ty}
    (hb : b ∈ Declaration.variables decls) : b.2.Plain := by
  simp only [Declaration.variables, List.mem_flatMap, List.mem_map] at hb
  obtain ⟨d, _, x, _, rfl⟩ := hb
  exact Ty.ofName_plain d.ty

/-- A class with some of its methods has proper members. -/
theorem proper_upTo {c : ClassDecl} {before after : List Method} {older : Known}
    (h : c.Derives mark older) (hm : c.methods = before ++ after) : (c.upTo before).Proper where
  fields := fun _ hb => plain_of_mem_variables hb
  methods := by
    intro b hb
    obtain ⟨m, _, rfl⟩ := List.mem_map.mp hb
    exact id
  distinct := by
    have hd := h.distinct
    have hsub : (c.upTo before).members.Sublist c.interface.members := by
      simp only [Interface.members, upTo, interface, hm, List.map_append]
      exact (List.sublist_append_left _ _).append_left _
    exact (hsub.map _).nodup hd

/-- All classes of a list have proper members. -/
theorem AllDerive.proper {known : Known} {classes : List ClassDecl}
    (h : AllDerive mark known classes) (hk : ∀ i ∈ known, i.Proper) :
    ∀ i ∈ knownAfter known classes, i.Proper := by
  induction classes generalizing known with
  | nil => exact hk
  | cons c rest ih =>
    rw [knownAfter_cons]
    refine ih h.2 ?_
    intro i hi
    rcases List.mem_cons.mp hi with rfl | hi
    · exact proper_upTo h.1 (List.append_nil c.methods).symm
    · exact hk i hi

end ClassDecl

/-! ## One method -/

namespace Program

variable {p : Program} {older : List ClassDecl} {c : ClassDecl} {before : List Method} {m : Method}

/-- The classes before one of a program follow the rules. -/
theorem Derives.older_at (h : p.Derives mark) (hat : p.At older c before m) :
    ClassDecl.AllDerive mark [] older := by
  obtain ⟨⟨newer, hp⟩, _⟩ := hat
  have hall := h.classes
  rw [hp] at hall
  exact hall.left

/-- All classes of a program are those before a method's class, this class, and
    those after it. -/
theorem known_at (hat : p.At older c before m) :
    ∃ newer, p.known =
      ClassDecl.knownAfter (c.interface :: ClassDecl.knownAfter [] older) newer := by
  obtain ⟨⟨newer, hp⟩, _⟩ := hat
  exact ⟨newer, by simp [known, hp, ClassDecl.knownAfter]⟩

/-- The classes that a method sees are well formed. -/
theorem Derives.wellFormed_at (h : p.Derives mark) (hat : p.At older c before m) :
    (c.viewAt older before m).known.WellFormed := by
  have hc := h.class_at hat
  exact ⟨hc.name, hc.superclass, (h.older_at hat).wellFormed trivial⟩

/-- The classes that a method sees have proper members. -/
theorem Derives.proper_at (h : p.Derives mark) (hat : p.At older c before m) :
    ∀ i ∈ (c.viewAt older before m).known, i.Proper := by
  intro i hi
  rcases List.mem_cons.mp hi with rfl | hi
  · have hc := h.class_at hat
    obtain ⟨_, after, hm⟩ := hat
    exact ClassDecl.proper_upTo hc hm
  · exact (h.older_at hat).proper (by simp) i hi

/-- A class that a method sees is a class of the program, with some of its
    methods. -/
theorem exists_class_of_mem_view (hat : p.At older c before m) {i : Interface}
    (hi : i ∈ (c.viewAt older before m).known) :
    ∃ d ∈ p.classes, ∃ first after, d.methods = first ++ after ∧ i = d.upTo first := by
  obtain ⟨⟨newer, hp⟩, after, hm⟩ := hat
  rcases List.mem_cons.mp hi with rfl | hi
  · exact ⟨c, by rw [hp]; simp, before, m :: after, hm, rfl⟩
  · simp only [ClassDecl.knownAfter, List.append_nil, List.mem_reverse, List.mem_map] at hi
    obtain ⟨d, hd, rfl⟩ := hi
    refine ⟨d, ?_, d.methods, [], (List.append_nil _).symm, rfl⟩
    rw [hp]
    exact List.mem_append_left _ hd

/-- No class behind that of a method has the name of a class that the method
    sees. -/
theorem Derives.newer_ne_at (h : p.Derives mark) (hat : p.At older c before m) {cls : String}
    (hd : (c.viewAt older before m).known.Declares cls) :
    ∃ newer, p.known =
        ClassDecl.knownAfter (c.interface :: ClassDecl.knownAfter [] older) newer ∧
      ∀ d ∈ newer, d.name ≠ cls := by
  obtain ⟨newer, hnewer⟩ := known_at hat
  have hwf : p.known.WellFormed := h.classes.wellFormed trivial
  rw [hnewer] at hwf
  have hd' : Known.Declares (c.interface :: ClassDecl.knownAfter [] older) cls :=
    (Known.declares_cons _ _ _).mpr ((Known.declares_cons (c.upTo before) _ _).mp hd)
  exact ⟨newer, hnewer, fun d hmem => hwf.name_ne hmem hd'⟩

/-- A class that a method sees has the layout that it has in the whole
    program. -/
theorem Derives.layout_at (h : p.Derives mark) (hat : p.At older c before m) {cls : String}
    (hd : (c.viewAt older before m).known.Declares cls) :
    p.known.layout cls = (c.viewAt older before m).known.layout cls := by
  obtain ⟨newer, hnewer, hne⟩ := h.newer_ne_at hat hd
  rw [hnewer, Known.layout_knownAfter hne]
  rfl

/-- A class that a method sees declares the slots that it declares in the whole
    program. -/
theorem Derives.ownSlots_at (h : p.Derives mark) (hat : p.At older c before m) {cls : String}
    (hd : (c.viewAt older before m).known.Declares cls) :
    p.known.ownSlots cls = (c.viewAt older before m).known.ownSlots cls := by
  obtain ⟨newer, hnewer, hne⟩ := h.newer_ne_at hat hd
  rw [hnewer, Known.ownSlots_knownAfter hne]
  rfl

/-- The classes that a method sees inherit there from what they inherit from in
    the whole program. -/
theorem Derives.inherits_at_iff (h : p.Derives mark) (hat : p.At older c before m)
    {derived base : String} (hd : (c.viewAt older before m).known.Declares derived) :
    p.known.Inherits derived base ↔ (c.viewAt older before m).known.Inherits derived base := by
  obtain ⟨newer, hnewer, hne⟩ := h.newer_ne_at hat hd
  have hlineage : p.known.Inherits derived base ↔
      Known.Inherits (c.interface :: ClassDecl.knownAfter [] older) derived base := by
    rw [hnewer, Known.Inherits, Known.Inherits, Known.lineage_knownAfter hne]
  -- the methods of the class itself do not matter to its chain
  exact hlineage.trans (Known.inherits_congr rfl rfl)

/-- Whoever inherits where a method stands does so in the whole program. -/
theorem Derives.inherits_at (h : p.Derives mark) (hat : p.At older c before m)
    {derived base : String} (hi : (c.viewAt older before m).known.Inherits derived base) :
    p.known.Inherits derived base :=
  (h.inherits_at_iff hat hi.declares_left).mpr hi

/-- Receiver and arguments of a call can be counted in words. -/
theorem Derives.calls_at (h : p.Derives mark) (hr : p.Representable)
    (hat : p.At older c before m) {cls method owner : String} {result : Ty} {params : List Ty}
    (hres : (c.viewAt older before m).known.resolve cls method =
      some (owner, .func result params)) :
    Word.Fits (Word.size * (1 + params.length)) := by
  obtain ⟨i, hi, _, hmember⟩ := Known.exists_of_resolve hres
  have hmem := Known.mem_of_mem_lineage hi
  obtain ⟨d, hd, first, after, hsplit, rfl⟩ := exists_class_of_mem_view hat hmem
  have hproper := h.proper_at hat _ hmem
  rcases List.mem_append.mp (mem_of_lookup hmember) with hf | hm
  · exact (hproper.fields _ hf).elim
  · obtain ⟨m', hm', heq⟩ := List.mem_map.mp hm
    have hin : m' ∈ d.methods := by
      rw [hsplit]
      exact List.mem_append_left _ hm'
    have hfits := (hr.frames d hd m' hin).params
    simp only [Method.signature, Prod.mk.injEq, Ty.func.injEq] at heq
    simp only [← heq.2.2, List.length_map, Word.Fits, Word.size] at hfits ⊢
    omega

/-- A site with the right parts serves its method. -/
theorem serves_at (h : p.Derives mark) (hr : p.Representable) (hat : p.At older c before m)
    {site : Site} (hcls : site.cls = c.name)
    (hobject : site.object = (c.viewAt older before m).known.layout c.name)
    (hframe : site.frame = m.frame) (hlayouts : site.layouts.Holds (c.viewAt older before m).known)
    (hclasses : ∀ derived base, p.known.Inherits derived base →
      site.classes.isSubclass derived base = true) :
    site.Serves (c.viewAt older before m) m where
  cls := hcls
  object := hobject
  frame := hframe
  vars := rfl
  layouts := hlayouts
  classes := fun derived base hi => hclasses derived base (h.inherits_at hat hi)
  wellFormed := h.wellFormed_at hat
  proper := h.proper_at hat
  distinct := (h.method_at hat).distinct
  objects := by
    rintro cls ⟨i, hi, rfl⟩
    obtain ⟨d, hd, first, after, _, rfl⟩ := exists_class_of_mem_view hat hi
    have hfits := hr.objects d hd
    have hdecl : (c.viewAt older before m).known.Declares d.name := ⟨_, hi, rfl⟩
    rw [Known.objectSize, h.layout_at hat hdecl] at hfits
    exact hfits
  frameFits := by
    obtain ⟨⟨newer, hp⟩, after, hm⟩ := hat
    exact hr.frames c (by rw [hp]; simp) m (by rw [hm]; simp)
  calls := fun _ _ _ _ _ hres => h.calls_at hr hat hres

end Program

end ClassLang
