import ClassLang.Compile
import ClassLang.Proofs.Lowering.Serving
import ClassLang.Proofs.Typing.Program
import Mathlib

/-! # The run of the generator

    The generator goes through the classes of a representable, elaborated
    program without a fault.

    * **`Generator.Ready`** is the invariant between two methods: the layouts
      of exactly the classes so far are remembered, and no frame under a label
      that is still to come.
    * **`Generator.method_ok`** is one step, **`methods_ok`** and
      **`classes_ok`** are whole runs.
    * **`Method.CodeAt`**, **`ClassDecl.MethodCodes`** and **`ClassCodes`** say
      which code a run gives.
    * **`Generator.generate_ok`** and **`Program.generator_text_ok`** are about
      whole programs. -/

namespace ClassLang

/-! ## Code of methods and classes -/

/-- The code of a method where it stands, with labels from `n` up to `n'`. -/
def Method.CodeAt (older : List ClassDecl) (c : ClassDecl) (before : List Method) (m : Method)
    (n : Nat) (code : List Line) (n' : Nat) : Prop :=
  ∃ site : Site, site.Serves (c.viewAt older before m) m ∧ m.lower site n = .ok (code, n')

namespace ClassDecl

/-- The codes of methods in order, after the methods `before`. -/
inductive MethodCodes (older : List ClassDecl) (c : ClassDecl) :
    List Method → List Method → Nat → List (List Line) → Nat → Prop where
  | nil {before n} : MethodCodes older c before [] n [] n
  | cons {before m rest n code k codes n'} : m.CodeAt older c before n code k →
      MethodCodes older c (before ++ [m]) rest k codes n' →
      MethodCodes older c before (m :: rest) n (code :: codes) n'

/-- The codes of classes in order, after the classes `older`. -/
inductive ClassCodes : List ClassDecl → List ClassDecl → Nat → List (List Line) → Nat → Prop where
  | nil {older n} : ClassCodes older [] n [] n
  | cons {older c rest n methods k codes n'} : MethodCodes older c [] c.methods n methods k →
      ClassCodes (older ++ [c]) rest k codes n' →
      ClassCodes older (c :: rest) n
        ((.comment ("class " ++ c.name) :: methods.flatten) :: codes) n'

/-- The labels that are used before the methods after `before`. -/
def labelsBefore (older : List ClassDecl) (c : ClassDecl) (before : List Method) : List String :=
  older.flatMap labels ++ before.map fun m => methodLabel c.name m.name

theorem knownAfter_concat (older : List ClassDecl) (c : ClassDecl) :
    knownAfter [] (older ++ [c]) = c.interface :: knownAfter [] older := by
  simp [knownAfter]

end ClassDecl

/-- A method of a representable program has a label that is not used before. -/
theorem Program.Representable.label_new {p : Program} {older : List ClassDecl} {c : ClassDecl}
    {before : List Method} {m : Method} (hr : p.Representable) (hat : p.At older c before m) :
    methodLabel c.name m.name ∉ ClassDecl.labelsBefore older c before := by
  obtain ⟨⟨newer, hp⟩, after, hm⟩ := hat
  have hd : (ClassDecl.labelsBefore older c before ++ methodLabel c.name m.name ::
      (after.map (fun m => methodLabel c.name m.name) ++ newer.flatMap ClassDecl.labels)).Nodup := by
    have := hr.labels
    rw [Program.labels, hp] at this
    simpa [ClassDecl.labelsBefore, ClassDecl.labels, hm] using this
  intro hmem
  exact (List.nodup_append.mp hd).2.2 _ hmem _ List.mem_cons_self rfl

namespace Generator

/-! ## The invariant -/

/-- The layouts of exactly the known classes are remembered, and no frame under
    a label that is not done. -/
structure Ready (g : Generator) (known : Known) (done : List String) : Prop where
  layouts : g.layouts.Holds known
  frames : ∀ label, label ∉ done → g.layouts.frames.lookup label = none

theorem ready_empty : Ready {} [] [] where
  layouts := Layouts.holds_empty
  frames := fun _ _ => rfl

section steps

variable {p : Program} {g : Generator} {older : List ClassDecl} {c : ClassDecl}
  {before : List Method} {m : Method} {done : List String} {known : Known} {classes : Hierarchy}

/-- A new method gets its frame, and nothing else is changed but the journal. -/
theorem layoutFrame_ok (hg : g.Ready known done) (hnew : methodLabel c.name m.name ∉ done)
    (hfit : m.FrameFits) :
    ∃ g₁, layoutFrame c.name m g = .ok m.frame g₁ ∧ g₁.nextLabel = g.nextLabel ∧
      g₁.Ready known (done ++ [methodLabel c.name m.name]) := by
  have hfresh : g.layouts.frame? c.name m.name = none := hg.frames _ hnew
  have hlaid := Layouts.layoutFrame_of_fresh hfresh hfit
  have hbuild : build (Layouts.layoutFrame c.name m) g =
      .ok m.frame { g with layouts := g.layouts.addFrame (methodLabel c.name m.name) m.frame } := by
    simp only [build, hlaid]
  let g₁ : Generator := { g with
    layouts := g.layouts.addFrame (methodLabel c.name m.name) m.frame
    journal := g.journal ++ m.frame.events (methodLabel c.name m.name) }
  refine ⟨g₁, ?_, rfl, ?_⟩
  · refine estate_bind_ok_iff.mpr ⟨g, g, rfl, estate_bind_ok_iff.mpr ⟨_, _, hbuild, ?_⟩⟩
    rw [hfresh]
    rfl
  · refine ⟨hg.layouts.addFrame _ _, ?_⟩
    intro label hlabel
    simp only [List.mem_append, List.mem_singleton, not_or] at hlabel
    show (g.layouts.addFrame (methodLabel c.name m.name) m.frame).frames.lookup label = none
    rw [Layouts.lookup_frames_addFrame _ hlabel.2]
    exact hg.frames label hlabel.1

/-- The next class is laid out, and nothing else is changed but the journal. -/
theorem layoutClass_ok (h : p.Elaborated) (hr : p.Representable) {newer : List ClassDecl}
    (hp : p.classes = older ++ c :: newer) (hg : g.Ready (ClassDecl.knownAfter [] older) done) :
    ∃ g₁, layoutClass p.classes c g =
        .ok (Known.layout (c.interface :: ClassDecl.knownAfter [] older) c.name) g₁ ∧
      g₁.nextLabel = g.nextLabel ∧
      g₁.Ready (c.interface :: ClassDecl.knownAfter [] older) done := by
  have hc : c.Derives Note.Records (ClassDecl.knownAfter [] older) := by
    have hall := h.classes
    rw [hp] at hall
    exact hall.split
  have hfind : p.classes.find? (·.name == c.name) = some c := by
    have hnone : older.find? (·.name == c.name) = none := by
      rw [List.find?_eq_none]
      intro d hd hname
      have hname : d.name = c.name := by simpa using hname
      refine hc.name ⟨d.interface, ?_, hname⟩
      simp only [ClassDecl.knownAfter, List.append_nil, List.mem_reverse]
      exact List.mem_map_of_mem hd
    rw [hp, List.find?_append, hnone, Option.none_or, List.find?_cons]
    simp
  have hsize : Word.Fits
      (Known.objectSize (c.interface :: ClassDecl.knownAfter [] older) c.name) := by
    have hfits := hr.objects c (by rw [hp]; simp)
    have hknown : p.known =
        ClassDecl.knownAfter (c.interface :: ClassDecl.knownAfter [] older) newer := by
      simp [Program.known, hp, ClassDecl.knownAfter]
    have hwf : p.known.WellFormed := h.classes.wellFormed trivial
    rw [hknown] at hwf hfits
    have hdecl : Known.Declares (c.interface :: ClassDecl.knownAfter [] older) c.name :=
      ⟨c.interface, List.mem_cons_self, rfl⟩
    rwa [Known.objectSize, Known.layout_knownAfter fun d hd => hwf.name_ne hd hdecl] at hfits
  obtain ⟨hlaid, hholds⟩ := Layouts.layoutClass_next _ hg.layouts hc hfind hsize
  have hnew : g.layouts.object? c.name = none := hg.layouts.undeclared c.name hc.name
  let layout := Known.layout (c.interface :: ClassDecl.knownAfter [] older) c.name
  have hbuild : build (Layouts.layoutClass p.classes c.name) g =
      .ok layout { g with layouts := g.layouts.addObject c.name layout } := by
    simp only [build, hlaid, layout]
  let g₁ : Generator := { g with
    layouts := g.layouts.addObject c.name layout
    journal := g.journal ++ layout.events c }
  refine ⟨g₁, ?_, rfl, hholds, hg.frames⟩
  refine estate_bind_ok_iff.mpr ⟨g, g, rfl, estate_bind_ok_iff.mpr ⟨_, _, hbuild, ?_⟩⟩
  rw [hnew]
  rfl

/-- The code of a method is made at a site that serves it. -/
theorem method_ok (h : p.Elaborated) (hr : p.Representable)
    (hclasses : ∀ derived base, p.known.Inherits derived base →
      classes.isSubclass derived base = true)
    (hat : p.At older c before m)
    (hg : g.Ready (c.interface :: ClassDecl.knownAfter [] older)
      (ClassDecl.labelsBefore older c before)) :
    ∃ code g', method classes c.name
        (Known.layout (c.interface :: ClassDecl.knownAfter [] older) c.name) m g = .ok code g' ∧
      g'.Ready (c.interface :: ClassDecl.knownAfter [] older)
        (ClassDecl.labelsBefore older c (before ++ [m])) ∧
      m.CodeAt older c before g.nextLabel code g'.nextLabel := by
  have hfit : m.FrameFits := by
    obtain ⟨⟨newer, hp⟩, after, hm⟩ := hat
    exact hr.frames c (by rw [hp]; simp) m (by rw [hm]; simp)
  obtain ⟨g₁, hframe, hlabel, hready⟩ := layoutFrame_ok hg (hr.label_new hat) hfit
  let site : Site := {
    cls := c.name
    object := Known.layout (c.interface :: ClassDecl.knownAfter [] older) c.name
    frame := m.frame
    layouts := g₁.layouts
    classes := classes }
  have hsite : site.Serves (c.viewAt older before m) m :=
    Program.serves_at h hr hat rfl rfl rfl (hready.layouts.upTo before) hclasses
  obtain ⟨code, n', hcode⟩ := Method.emits hsite (h.method_at hat) g₁.nextLabel
  let told := [Event.generatingMethod (methodLabel c.name m.name) m.frame.params.length
    m.frame.locals.length]
  have hemit : emit (m.lower site) { g₁ with journal := g₁.journal ++ told } =
      .ok code { g₁ with journal := g₁.journal ++ told, nextLabel := n' } := by
    have hrun : (m.lower site).run g₁.nextLabel = .ok (code, n') := hcode
    simp only [emit, hrun]
  refine ⟨code, { g₁ with journal := g₁.journal ++ told, nextLabel := n' }, ?_, ?_, ?_⟩
  · refine estate_bind_ok_iff.mpr ⟨_, g₁, hframe, ?_⟩
    refine estate_bind_ok_iff.mpr ⟨(), { g₁ with journal := g₁.journal ++ told }, rfl, ?_⟩
    exact estate_bind_ok_iff.mpr ⟨_, _, rfl, hemit⟩
  · have hdone : ClassDecl.labelsBefore older c (before ++ [m]) =
        ClassDecl.labelsBefore older c before ++ [methodLabel c.name m.name] := by
      simp [ClassDecl.labelsBefore]
    rw [hdone]
    exact ⟨hready.layouts, hready.frames⟩
  · rw [← hlabel]
    exact ⟨site, hsite, hcode⟩

/-- The codes of methods are made one after another. -/
theorem methods_ok (h : p.Elaborated) (hr : p.Representable)
    (hclasses : ∀ derived base, p.known.Inherits derived base →
      classes.isSubclass derived base = true)
    {newer : List ClassDecl} (hp : p.classes = older ++ c :: newer) (rest : List Method)
    {after : List Method} (hm : c.methods = before ++ rest ++ after)
    (hg : g.Ready (c.interface :: ClassDecl.knownAfter [] older)
      (ClassDecl.labelsBefore older c before)) :
    ∃ codes g', rest.mapM (method classes c.name
        (Known.layout (c.interface :: ClassDecl.knownAfter [] older) c.name)) g = .ok codes g' ∧
      g'.Ready (c.interface :: ClassDecl.knownAfter [] older)
        (ClassDecl.labelsBefore older c (before ++ rest)) ∧
      ClassDecl.MethodCodes older c before rest g.nextLabel codes g'.nextLabel := by
  induction rest generalizing before g with
  | nil =>
    rw [List.append_nil]
    exact ⟨[], g, rfl, hg, .nil⟩
  | cons m rest ih =>
    have hat : p.At older c before m := ⟨⟨newer, hp⟩, rest ++ after, by simp [hm]⟩
    obtain ⟨code, g₁, hcode, hready, hat₁⟩ := method_ok h hr hclasses hat hg
    obtain ⟨codes, g', hcodes, hready', hrest⟩ := ih (by simp [hm]) hready
    refine ⟨code :: codes, g', ?_, ?_, .cons hat₁ hrest⟩
    · rw [List.mapM_cons]
      refine estate_bind_ok_iff.mpr ⟨code, g₁, hcode, ?_⟩
      exact estate_bind_ok_iff.mpr ⟨codes, g', hcodes, rfl⟩
    · rwa [List.append_assoc, List.singleton_append] at hready'

/-- The labels of all classes so far are those before the next class. -/
theorem labelsBefore_concat (older : List ClassDecl) (c d : ClassDecl) :
    ClassDecl.labelsBefore (older ++ [c]) d [] = ClassDecl.labelsBefore older c c.methods := by
  simp [ClassDecl.labelsBefore, ClassDecl.labels]

/-- The codes of classes are made one after another. -/
theorem classes_ok (h : p.Elaborated) (hr : p.Representable)
    (hclasses : ∀ derived base, p.known.Inherits derived base →
      classes.isSubclass derived base = true)
    (rest : List ClassDecl) {newer : List ClassDecl} (hp : p.classes = older ++ rest ++ newer)
    (hg : g.Ready (ClassDecl.knownAfter [] older) (older.flatMap ClassDecl.labels)) :
    ∃ codes g', rest.mapM (classCode classes p.classes) g = .ok codes g' ∧
      g'.Ready (ClassDecl.knownAfter [] (older ++ rest))
        ((older ++ rest).flatMap ClassDecl.labels) ∧
      ClassDecl.ClassCodes older rest g.nextLabel codes g'.nextLabel := by
  induction rest generalizing older g with
  | nil =>
    rw [List.append_nil]
    exact ⟨[], g, rfl, hg, .nil⟩
  | cons c rest ih =>
    have hpc : p.classes = older ++ c :: (rest ++ newer) := by simp [hp]
    obtain ⟨g₁, hlayout, hlabel, hready⟩ := layoutClass_ok h hr hpc hg
    have hstart : older.flatMap ClassDecl.labels = ClassDecl.labelsBefore older c [] := by
      simp [ClassDecl.labelsBefore]
    rw [hstart] at hready
    obtain ⟨methods, g₂, hmethods, hready₂, hcodes⟩ :=
      methods_ok h hr hclasses hpc c.methods (List.append_nil _).symm hready
    have hnext : g₂.Ready (ClassDecl.knownAfter [] (older ++ [c]))
        ((older ++ [c]).flatMap ClassDecl.labels) := by
      rw [ClassDecl.knownAfter_concat]
      have hlabels := labelsBefore_concat older c c
      rw [ClassDecl.labelsBefore, List.map_nil, List.append_nil] at hlabels
      rw [hlabels]
      exact hready₂
    obtain ⟨codes, g', hrest, hready', hcodes'⟩ := ih (by simp [hp]) hnext
    rw [hlabel] at hcodes
    let code := .comment ("class " ++ c.name) :: methods.flatten
    have hcode : classCode classes p.classes c g = .ok code g₂ := by
      refine estate_bind_ok_iff.mpr ⟨_, g₁, hlayout, ?_⟩
      exact estate_bind_ok_iff.mpr ⟨methods, g₂, hmethods, rfl⟩
    refine ⟨code :: codes, g', ?_, ?_, .cons hcodes hcodes'⟩
    · rw [List.mapM_cons]
      refine estate_bind_ok_iff.mpr ⟨code, g₂, hcode, ?_⟩
      exact estate_bind_ok_iff.mpr ⟨codes, g', hrest, rfl⟩
    · rwa [List.append_assoc, List.singleton_append] at hready'

/-- A new generator makes the code of a representable program: the fixed
    routines around the codes of the classes. -/
theorem generate_ok (h : p.Elaborated) (hr : p.Representable)
    (hclasses : ∀ derived base, p.known.Inherits derived base →
      classes.isSubclass derived base = true) :
    ∃ codes g', generate classes p {} =
        .ok (preamble ++ codes.flatten ++ startup (p.known.objectSize "Program")) g' ∧
      ClassDecl.ClassCodes [] p.classes 0 codes g'.nextLabel := by
  have hstart : Ready {} (ClassDecl.knownAfter [] []) (List.flatMap ClassDecl.labels []) :=
    ready_empty
  obtain ⟨codes, g', hrun, hready, hcodes⟩ :=
    classes_ok h hr hclasses p.classes (List.append_nil _).symm hstart
  have hprogram : p.known.Declares "Program" := by
    obtain ⟨last, hlast, hname, _⟩ := h.entry
    refine ⟨last.interface, ?_, hname⟩
    simp only [Program.known, ClassDecl.knownAfter, List.append_nil, List.mem_reverse]
    exact List.mem_map_of_mem (List.mem_of_getLast? hlast)
  have hlaid := Layouts.layoutClass_of_holds p.classes hready.layouts hprogram
  have hbuild : build (Layouts.layoutClass p.classes "Program") g' =
      .ok (p.known.layout "Program") g' := by
    simp only [build, hlaid]
    rfl
  refine ⟨codes, g', ?_, hcodes⟩
  refine estate_bind_ok_iff.mpr ⟨codes, g', hrun, ?_⟩
  exact estate_bind_ok_iff.mpr ⟨_, g', hbuild, rfl⟩

end steps

end Generator

/-! ## Accepted programs -/

namespace Program

/-- An accepted source text is read, and checking the program that it spells
    yields the analysis. -/
theorem exists_of_analyze {source : String} {a : Analysis} (h : analyze source = .ok a) :
    ∃ p, ofSource source = .ok p ∧ p.check.Yields a.program a.tables := by
  unfold analyze analyzeLogged at h
  cases hp : ofSource source with
  | error e =>
    rw [hp] at h
    cases h
  | ok p =>
    simp only [hp] at h
    cases hc : p.check.result with
    | error e =>
      rw [hc] at h
      cases h
    | ok t =>
      rw [hc] at h
      cases h
      exact ⟨p, rfl, rfl, hc⟩

/-- An accepted program is elaborated, and its tables know inheritance. -/
theorem elaborated_of_analyze {source : String} {a : Analysis} (h : analyze source = .ok a) :
    a.program.Elaborated ∧
      ∀ derived base, a.program.known.Inherits derived base →
        a.tables.classes.isSubclass derived base = true := by
  obtain ⟨p, hp, hy⟩ := exists_of_analyze h
  obtain ⟨_, hd, hroot⟩ := check_sound (erase_of_ofSource hp) hy
  exact ⟨hd, fun derived base hi => (hroot.isSubclass_iff derived base).mpr hi⟩

set_option maxRecDepth 4096 in
theorem sample_accepted : ∃ a, analyze sample = .ok a ∧ a.program.Representable := by
  have h : (match analyze sample with
      | .ok a => decide a.program.Representable
      | .error _ => false) = true := by cbv
  cases ha : analyze sample with
  | error e =>
    rw [ha] at h
    cases h
  | ok a =>
    rw [ha] at h
    exact ⟨a, rfl, of_decide_eq_true h⟩

/-- The text that a new generator makes of an accepted program is the assembly of
    its source. -/
theorem compile_of_text {source text : String} {a : Analysis} {g : Generator}
    (h : analyze source = .ok a)
    (htext : Generator.text a.tables.classes a.program {} = .ok text g) :
    compile source = .ok text := by
  refine except_bind_ok_iff.mpr ⟨a, h, ?_⟩
  unfold Analysis.assemble
  rw [htext]

/-- For an accepted program of representable size a new generator makes a text
    and meets no fault. -/
theorem generator_text_ok {source : String} {a : Analysis} (h : analyze source = .ok a)
    (hr : a.program.Representable) :
    ∃ text g, Generator.text a.tables.classes a.program {} = .ok text g ∧
      compile source = .ok text := by
  obtain ⟨he, hclasses⟩ := elaborated_of_analyze h
  obtain ⟨codes, g, hgen, _⟩ := Generator.generate_ok he hr hclasses
  have htext : Generator.text a.tables.classes a.program {} = .ok _ g :=
    estate_bind_ok_iff.mpr ⟨_, g, hgen, rfl⟩
  exact ⟨_, g, htext, compile_of_text h htext⟩

theorem generator_text_sample :
    ∃ a, analyze sample = .ok a ∧ a.program.Representable ∧
      ∃ text g, Generator.text a.tables.classes a.program {} = .ok text g ∧
        compile sample = .ok text := by
  obtain ⟨a, ha, hr⟩ := sample_accepted
  exact ⟨a, ha, hr, generator_text_ok ha hr⟩

end Program

end ClassLang
