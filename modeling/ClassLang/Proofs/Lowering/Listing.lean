import ClassLang.Proofs.Layout.Remembered
import ClassLang.Proofs.Lowering.Labels
import ClassLang.Proofs.Lowering.Sites
import ClassLang.Proofs.Meaning.Program

/-! # The parts of a listing

    A generator that returns gives a listing of fixed routines and blocks, one
    block for each method, whatever it was used for before.

    * **`Chain`**: results that are made one after another.
    * **`Listing`** names the parts, and **`Listing.Of`** says that the blocks
      are those of a program.
    * **`Generator.exists_listing`**: every result of the generator is such a
      listing.
    * **`Listing.Of.numbered`** and **`symbols`**: which symbols it defines. -/

namespace ClassLang

/-! ## Results in a row -/

/-- Results that are made one after another, each from the state that the one
    before left. -/
inductive Chain {α β σ : Type} (made : α → σ → β → σ → Prop) : List α → σ → List β → σ → Prop where
  | nil {s} : Chain made [] s [] s
  | cons {a as s b t bs u} : made a s b t → Chain made as t bs u →
      Chain made (a :: as) s (b :: bs) u

namespace Chain

variable {α β σ ε : Type} {made : α → σ → β → σ → Prop}

/-- A step for each element of a list. -/
theorem of_mapM {f : α → EStateM ε σ β} {as : List α} {s t : σ} {bs : List β}
    (h : as.mapM f s = .ok bs t) : Chain (fun a s b t => f a s = .ok b t) as s bs t := by
  induction as generalizing s bs with
  | nil =>
    cases h
    exact .nil
  | cons a rest ih =>
    rw [List.mapM_cons] at h
    obtain ⟨b, u, hb, h⟩ := estate_bind_ok_iff.mp h
    obtain ⟨cs, v, hcs, hpure⟩ := estate_bind_ok_iff.mp h
    cases hpure
    exact .cons hb (ih hcs)

theorem append {as cs : List α} {bs ds : List β} {s t u : σ} (h : Chain made as s bs t)
    (h' : Chain made cs t ds u) : Chain made (as ++ cs) s (bs ++ ds) u := by
  induction h with
  | nil => exact h'
  | cons hb _ ih => exact .cons hb (ih h')

theorem length_eq {as : List α} {bs : List β} {s t : σ} (h : Chain made as s bs t) :
    bs.length = as.length := by
  induction h with
  | nil => rfl
  | cons _ _ ih => rw [List.length_cons, List.length_cons, ih]

/-- Each element has its result. -/
theorem get {as : List α} {bs : List β} {s t : σ} (h : Chain made as s bs t) {i : Nat} {a : α}
    (ha : as[i]? = some a) : ∃ b u v, bs[i]? = some b ∧ made a u b v := by
  induction h generalizing i with
  | nil => cases ha
  | cons hb _ ih =>
    cases i with
    | zero =>
      cases ha
      exact ⟨_, _, _, rfl, hb⟩
    | succ i => exact ih ha

/-- What is said of the states can be said of parts of them. -/
theorem map {τ : Type} {made' : α → τ → β → τ → Prop} (part : σ → τ)
    (hmade : ∀ a s b t, made a s b t → made' a (part s) b (part t)) {as : List α} {bs : List β}
    {s t : σ} (h : Chain made as s bs t) : Chain made' as (part s) bs (part t) := by
  induction h with
  | nil => exact .nil
  | cons hb _ ih => exact .cons (hmade _ _ _ _ hb) ih

/-- Code that is made in a row has the labels that the counter passed. -/
theorem numbered {made : α → Nat → List Line → Nat → Prop} {as : List α}
    {codes : List (List Line)} {n n' : Nat} (h : Chain made as n codes n')
    (hmade : ∀ a n code n', made a n code n' → Numbered code n n') :
    Numbered codes.flatten n n' := by
  induction h with
  | nil => exact ⟨Nat.le_refl _, by simp [numbers]⟩
  | cons hb _ ih => exact (hmade _ _ _ _ hb).append ih

end Chain

/-! ## Blocks -/

namespace Routine

/-- The symbol of a method. -/
def label (r : Routine) : String := methodLabel r.view.cls r.method.name

/-- The block of a method: its code at some site in its class. -/
def Made (r : Routine) (n : Nat) (code : List Line) (n' : Nat) : Prop :=
  ∃ site : Site, site.cls = r.view.cls ∧ r.method.lower site n = .ok (code, n')

/-- The block of a method with its frame: what is counted are the labels, and what
    is remembered are the frames. -/
def Laid (r : Routine) (s : Nat × List (String × Frame)) (code : List Line)
    (s' : Nat × List (String × Frame)) : Prop :=
  ∃ site : Site, site.cls = r.view.cls ∧ r.method.lower site s.1 = .ok (code, s'.1) ∧
    Layouts.Framed r.method r.label s.2 site.frame s'.2

theorem Laid.made {r : Routine} {s s' : Nat × List (String × Frame)} {code : List Line}
    (h : r.Laid s code s') : r.Made s.1 code s'.1 := by
  obtain ⟨site, hcls, hlower, _⟩ := h
  exact ⟨site, hcls, hlower⟩

/-- A block has the symbol of its method at the head, and then its own labels. -/
theorem Made.exists_rest {r : Routine} {n n' : Nat} {code : List Line} (h : r.Made n code n') :
    ∃ rest, code = .label (.named r.label) :: rest ∧ Labelled rest n n' := by
  obtain ⟨site, hcls, hlower⟩ := h
  obtain ⟨rest, rfl, hrest⟩ := Method.labelled hlower
  rw [hcls]
  exact ⟨rest, rfl, hrest⟩

theorem Made.numbered {r : Routine} {n n' : Nat} {code : List Line} (h : r.Made n code n') :
    Numbered code n n' := by
  obtain ⟨rest, rfl, hrest⟩ := h.exists_rest
  exact hrest.toNumbered.of_eq rfl

/-- The symbols of a block are its name and its labels. -/
theorem Made.symbols {r : Routine} {n n' : Nat} {code : List Line} (h : r.Made n code n') :
    code.filterMap Line.defines =
      r.label :: (numbers code).map fun k => (Label.numbered k).render := by
  obtain ⟨rest, rfl, hrest⟩ := h.exists_rest
  show r.label :: rest.filterMap Line.defines = _
  rw [hrest.symbols]
  rfl

end Routine

/-- The methods of a class have its labels. -/
theorem ClassDecl.routines_labels (older : List ClassDecl) (c : ClassDecl) (before rest : List Method) :
    (c.routines older before rest).map Routine.label =
      rest.map fun m => methodLabel c.name m.name := by
  induction rest generalizing before with
  | nil => rfl
  | cons m rest ih =>
    rw [routines, List.map_cons, List.map_cons, ih]
    rfl

/-- The methods of a program have its labels. -/
theorem ClassDecl.allRoutines_labels (older rest : List ClassDecl) :
    (allRoutines older rest).map Routine.label = rest.flatMap labels := by
  induction rest generalizing older with
  | nil => rfl
  | cons c rest ih =>
    rw [allRoutines, List.map_append, routines_labels, ih, List.flatMap_cons]
    rfl

/-! ## Listings -/

/-- A listing in parts: the name of each class with the blocks of its methods,
    and the size of the program's own object. -/
structure Listing where
  sections : List (String × List (List Line))
  size : Int

namespace Listing

/-- The blocks of all methods in order. -/
def blocks (t : Listing) : List (List Line) := t.sections.flatMap (·.2)

/-- The lines of a class: a comment, and the blocks of its methods. -/
def sectionLines (s : String × List (List Line)) : List Line :=
  .comment ("class " ++ s.1) :: s.2.flatten

/-- All lines. -/
def lines (t : Listing) : List Line :=
  preamble ++ t.sections.flatMap sectionLines ++ startup t.size

/-- The listing is that of the program, with labels from `n` up to `n'`. -/
structure Of (p : Program) (t : Listing) (n n' : Nat) : Prop where
  names : t.sections.map (·.1) = p.classes.map (·.name)
  blocks : Chain Routine.Made (ClassDecl.allRoutines [] p.classes) n t.blocks n'

/-- What the fixed parts define beside the blocks. -/
def fixedSymbols : List String := [heapBase, heapTop, printFormat, printRoutine, startRoutine]

/-- Comments between the classes have no labels. -/
theorem numbers_sections (sections : List (String × List (List Line))) :
    numbers (sections.flatMap sectionLines) = numbers (sections.flatMap (·.2)).flatten := by
  induction sections with
  | nil => rfl
  | cons s rest ih =>
    rw [List.flatMap_cons, List.flatMap_cons, List.flatten_append, numbers_append, numbers_append,
      ih]
    rfl

theorem defines_sections (sections : List (String × List (List Line))) :
    (sections.flatMap sectionLines).filterMap Line.defines =
      (sections.flatMap (·.2)).flatten.filterMap Line.defines := by
  induction sections with
  | nil => rfl
  | cons s rest ih =>
    rw [List.flatMap_cons, List.flatMap_cons, List.flatten_append, List.filterMap_append,
      List.filterMap_append, ih]
    rfl

theorem numbers_lines (t : Listing) : numbers t.lines = numbers t.blocks.flatten := by
  have hstart : numbers (startup t.size) = [] := rfl
  have hpreamble : numbers preamble = [] := rfl
  rw [lines, numbers_append, numbers_append, hstart, hpreamble, numbers_sections, blocks]
  simp

namespace Of

variable {p : Program} {t : Listing} {n n' : Nat}

/-- The labels of a listing are the numbers that the counter passed. -/
theorem numbered (h : t.Of p n n') : Numbered t.lines n n' :=
  (h.blocks.numbered fun _ _ _ _ => Routine.Made.numbered).of_eq t.numbers_lines

/-- The blocks are headed by the labels of the program. -/
theorem heads (h : t.Of p n n') :
    t.blocks.map List.head? = p.labels.map fun x => some (.label (.named x)) := by
  have hall : ∀ {rs : List Routine} {codes : List (List Line)} {n n' : Nat},
      Chain Routine.Made rs n codes n' →
      codes.map List.head? = (rs.map Routine.label).map fun x => some (.label (.named x)) := by
    intro rs codes n n' hc
    induction hc with
    | nil => rfl
    | cons hb _ ih =>
      obtain ⟨rest, rfl, _⟩ := hb.exists_rest
      rw [List.map_cons, ih]
      rfl
  rw [hall h.blocks, ClassDecl.allRoutines_labels]
  rfl

/-- The symbols of a listing: those of the fixed parts, the labels of the
    methods and the numbered labels. -/
theorem symbols (h : t.Of p n n') : (t.lines.filterMap Line.defines).Perm
    (fixedSymbols ++ (p.labels ++ (numbers t.lines).map fun k => (Label.numbered k).render)) := by
  have hall : ∀ {rs : List Routine} {codes : List (List Line)} {n n' : Nat},
      Chain Routine.Made rs n codes n' → (codes.flatten.filterMap Line.defines).Perm
        (rs.map Routine.label ++
          (numbers codes.flatten).map fun k => (Label.numbered k).render) := by
    intro rs codes n n' hc
    induction hc with
    | nil => exact .refl _
    | cons hb _ ih =>
      rw [List.flatten_cons, List.filterMap_append, hb.symbols, numbers_append, List.map_append,
        List.map_cons, List.cons_append, List.cons_append]
      refine .cons _ ((ih.append_left _).trans ?_)
      rw [← List.append_assoc, ← List.append_assoc]
      exact (List.perm_append_comm).append_right _
  have hblocks := hall h.blocks
  rw [ClassDecl.allRoutines_labels] at hblocks
  have hstart : (startup t.size).filterMap Line.defines = [startRoutine] := rfl
  have hpreamble : preamble.filterMap Line.defines =
      [heapBase, heapTop, printFormat, printRoutine] := rfl
  rw [lines, List.filterMap_append, List.filterMap_append, hstart, hpreamble, defines_sections,
    ← lines, numbers_lines]
  -- the last symbol moves to the front
  have hlast : ([heapBase, heapTop, printFormat, printRoutine] ++
      t.blocks.flatten.filterMap Line.defines ++ [startRoutine]).Perm
      (fixedSymbols ++ t.blocks.flatten.filterMap Line.defines) := by
    rw [List.append_assoc]
    exact (List.perm_append_comm.append_left _).trans (by rw [fixedSymbols]; rfl)
  exact hlast.trans (hblocks.append_left _)

end Of

end Listing

/-! ## Runs of the generator -/

namespace Generator

variable {classes : Hierarchy} {p : Program} {g g' : Generator}

/-- What is counted and what is remembered between two blocks. -/
def counts (g : Generator) : Nat × List (String × Frame) := (g.nextLabel, g.layouts.frames)

/-- A step that computes a layout, takes no labels and changes nothing else but
    the journal. -/
structure Lays {α : Type} (x : Gen α) (step : Layouts.Build α) : Prop where
  of_ok : ∀ {g a g'}, x g = .ok a g' →
    g'.nextLabel = g.nextLabel ∧ step g.layouts = .ok a g'.layouts
  ok : ∀ {g a l}, step g.layouts = .ok a l →
    ∃ g', x g = .ok a g' ∧ g'.layouts = l ∧ g'.nextLabel = g.nextLabel

theorem lays_build {α : Type} (step : Layouts.Build α) : Lays (build step) step where
  of_ok := by
    intro g a g' h
    unfold build at h
    split at h
    · next hstep =>
      cases h
      exact ⟨rfl, hstep⟩
    · cases h
  ok := by
    intro g a l h
    refine ⟨{ g with layouts := l }, ?_, rfl, rfl⟩
    simp only [build, h]

/-- Events may be told once a layout is computed. -/
theorem lays_told {α : Type} (step : Layouts.Build α) (isNew : Generator → Bool)
    (events : α → List Event) :
    Lays (do
      let told := isNew (← get)
      let a ← build step
      if told then tell (events a)
      return a) step where
  of_ok := by
    intro g a g' h
    obtain ⟨_, _, hget, h⟩ := estate_bind_ok_iff.mp h
    cases hget
    obtain ⟨b, g₁, hbuild, h⟩ := estate_bind_ok_iff.mp h
    have hlaid := (lays_build step).of_ok hbuild
    split at h
    · obtain ⟨_, g₂, htell, hpure⟩ := estate_bind_ok_iff.mp h
      cases htell
      cases hpure
      exact hlaid
    · cases h
      exact hlaid
  ok := by
    intro g a l h
    obtain ⟨g₁, hbuild, hl, hnext⟩ := (lays_build step).ok h
    cases htold : isNew g with
    | true =>
      refine ⟨{ g₁ with journal := g₁.journal ++ events a }, ?_, hl, hnext⟩
      refine estate_bind_ok_iff.mpr ⟨g, g, rfl, estate_bind_ok_iff.mpr ⟨a, g₁, hbuild, ?_⟩⟩
      rw [htold]
      rfl
    | false =>
      refine ⟨g₁, ?_, hl, hnext⟩
      refine estate_bind_ok_iff.mpr ⟨g, g, rfl, estate_bind_ok_iff.mpr ⟨a, g₁, hbuild, ?_⟩⟩
      rw [htold]
      rfl

theorem lays_layoutClass (defs : List ClassDecl) (c : ClassDecl) :
    Lays (layoutClass defs c) (Layouts.layoutClass defs c.name) :=
  lays_told (Layouts.layoutClass defs c.name) (fun g => (g.layouts.object? c.name).isNone)
    fun layout => layout.events c

theorem lays_layoutFrame (cls : String) (m : Method) :
    Lays (layoutFrame cls m) (Layouts.layoutFrame cls m) :=
  lays_told (Layouts.layoutFrame cls m) (fun g => (g.layouts.frame? cls m.name).isNone)
    fun frame => frame.events (methodLabel cls m.name)

/-- Laying out classes takes no labels and leaves the frames alone. -/
theorem Lays.counts {x : Gen ObjectLayout} {defs : List ClassDecl} {cls : String}
    (hx : Lays x (Layouts.layoutClass defs cls)) {layout : ObjectLayout}
    (h : x g = .ok layout g') : g'.counts = g.counts := by
  obtain ⟨hnext, hlaid⟩ := hx.of_ok h
  rw [Generator.counts, hnext, Layouts.layoutUpTo_frames defs _ _ _ _ _ hlaid]
  rfl

/-- The code of a method is that of its tree at a site with its frame. -/
theorem exists_site {older : List ClassDecl} {c : ClassDecl} {before : List Method}
    {classes : Hierarchy} {object : ObjectLayout} {m : Method} {code : List Line}
    (h : method classes c.name object m g = .ok code g') :
    Routine.Laid ⟨c.viewAt older before m, m⟩ g.counts code g'.counts := by
  obtain ⟨frame, g₁, hframe, h⟩ := estate_bind_ok_iff.mp h
  obtain ⟨_, g₂, htell, h⟩ := estate_bind_ok_iff.mp h
  cases htell
  obtain ⟨_, g₃, hget, hemit⟩ := estate_bind_ok_iff.mp h
  cases hget
  obtain ⟨hnext, hlaid⟩ := (lays_layoutFrame _ _).of_ok hframe
  have hframed := Layouts.layoutFrame_framed hlaid
  unfold emit at hemit
  split at hemit
  · next hlower =>
    cases hemit
    have hlower : m.lower _ g₁.nextLabel = _ := hlower
    rw [hnext] at hlower
    exact ⟨_, rfl, hlower, hframed⟩
  · cases hemit

/-- The code of a class has a block for each of its methods. -/
theorem exists_blocks {defs : List ClassDecl} {c : ClassDecl} {code : List Line}
    (h : classCode classes defs c g = .ok code g') (older : List ClassDecl) :
    ∃ blocks, code = Listing.sectionLines (c.name, blocks) ∧
      Chain Routine.Laid (c.routines older [] c.methods) g.counts blocks g'.counts := by
  have hall : ∀ {object : ObjectLayout} {rest before : List Method} {codes : List (List Line)}
      {g g' : Generator}, Chain (fun m g code g' => method classes c.name object m g = .ok code g')
        rest g codes g' →
      Chain Routine.Laid (c.routines older before rest) g.counts codes g'.counts := by
    intro object rest before codes g g' hc
    induction hc generalizing before with
    | nil => exact .nil
    | cons hm _ ih => exact .cons (exists_site hm) ih
  obtain ⟨object, g₁, hlayout, h⟩ := estate_bind_ok_iff.mp h
  obtain ⟨methods, g₂, hmethods, hpure⟩ := estate_bind_ok_iff.mp h
  cases hpure
  refine ⟨methods, rfl, ?_⟩
  rw [← (lays_layoutClass _ _).counts hlayout]
  exact hall (Chain.of_mapM hmethods)

/-- The code of classes in a row has a section for each of them. -/
theorem exists_sections {defs rest : List ClassDecl} {codes : List (List Line)}
    (h : rest.mapM (classCode classes defs) g = .ok codes g') (older : List ClassDecl) :
    ∃ sections : List (String × List (List Line)),
      codes.flatten = sections.flatMap Listing.sectionLines ∧
      sections.map (·.1) = rest.map (·.name) ∧
      Chain Routine.Laid (ClassDecl.allRoutines older rest) g.counts (sections.flatMap (·.2))
        g'.counts := by
  have hchain := Chain.of_mapM h
  clear h
  induction hchain generalizing older with
  | nil => exact ⟨[], rfl, rfl, .nil⟩
  | @cons c _ _ _ _ _ _ hcode _ ih =>
    obtain ⟨blocks, rfl, hblocks⟩ := exists_blocks hcode older
    obtain ⟨sections, hlines, hnames, hrest⟩ := ih (older ++ [c])
    refine ⟨(c.name, blocks) :: sections, ?_, ?_, ?_⟩
    · rw [List.flatten_cons, hlines, List.flatMap_cons]
    · rw [List.map_cons, hnames, List.map_cons]
    · rw [List.flatMap_cons]
      exact hblocks.append hrest

/-- What the generator returns is a listing of the program, with labels from
    the next free one on and with the frames that are remembered. -/
theorem exists_laid_listing {lines : List Line} (h : generate classes p g = .ok lines g') :
    ∃ t : Listing, lines = t.lines ∧ t.Of p g.nextLabel g'.nextLabel ∧
      Chain Routine.Laid (ClassDecl.allRoutines [] p.classes) g.counts t.blocks g'.counts := by
  obtain ⟨codes, g₁, hcodes, h⟩ := estate_bind_ok_iff.mp h
  obtain ⟨program, g₂, hbuild, hpure⟩ := estate_bind_ok_iff.mp h
  cases hpure
  obtain ⟨sections, hlines, hnames, hblocks⟩ := exists_sections hcodes []
  rw [← (lays_build _).counts hbuild] at hblocks
  refine ⟨⟨sections, program.size⟩, ?_, ⟨hnames, ?_⟩, hblocks⟩
  · rw [hlines]
    rfl
  · exact hblocks.map Prod.fst fun _ _ _ _ hlaid => hlaid.made

/-- What the generator returns is a listing of the program, with labels from
    the next free one on. -/
theorem exists_listing {lines : List Line} (h : generate classes p g = .ok lines g') :
    ∃ t : Listing, lines = t.lines ∧ t.Of p g.nextLabel g'.nextLabel := by
  obtain ⟨t, hlines, ht, _⟩ := exists_laid_listing h
  exact ⟨t, hlines, ht⟩

end Generator

end ClassLang
