import ClassLang.Proofs.Lowering.Listing
import ClassLang.Proofs.Lowering.Run
import ClassLang.Proofs.Meaning.Linked
import ClassLang.Proofs.Simulation.Method

/-! # All methods on the machine

    The routines of all methods of a program do what calls of the methods mean.

    * **`Routine.Coded`** is code of a method at a site that serves it, and
      **`ClassCodes.exists_sections`** finds it in the code of classes.
    * **`Routine.Loaded`**: such code stands at the label of the method.
    * **`Routine.answers`**: of linked methods each answers, by induction in the
      order in which calls can reach them. -/

namespace ClassLang

/-! ## Code of methods -/

namespace Routine

/-- Code of a method at a site that serves it. -/
def Coded (r : Routine) (n : Nat) (code : List Line) (n' : Nat) : Prop :=
  ∃ site : Site, site.Serves r.view r.method ∧ r.method.lower site n = .ok (code, n')

theorem Coded.made {r : Routine} {n n' : Nat} {code : List Line} (h : r.Coded n code n') :
    r.Made n code n' := by
  obtain ⟨site, hserves, hlower⟩ := h
  exact ⟨site, hserves.cls, hlower⟩

/-- Code of the method stands at its label. -/
def Loaded (M : Machine) (r : Routine) : Prop :=
  ∃ n code n' start, r.Coded n code n' ∧ M.find r.label = some start ∧ M.CodeAt start code

end Routine

namespace ClassDecl

/-- The codes of the methods of a class are made in a row. -/
theorem MethodCodes.chain {older : List ClassDecl} {c : ClassDecl} {before rest : List Method}
    {n n' : Nat} {codes : List (List Line)} (h : MethodCodes older c before rest n codes n') :
    Chain Routine.Coded (c.routines older before rest) n codes n' := by
  induction h with
  | nil => exact .nil
  | cons hcode _ ih => exact .cons hcode ih

/-- The code of classes has a section for each of them. -/
theorem ClassCodes.exists_sections {older rest : List ClassDecl} {n n' : Nat}
    {codes : List (List Line)} (h : ClassCodes older rest n codes n') :
    ∃ sections : List (String × List (List Line)),
      codes.flatten = sections.flatMap Listing.sectionLines ∧
      sections.map (·.1) = rest.map (·.name) ∧
      Chain Routine.Coded (allRoutines older rest) n (sections.flatMap (·.2)) n' := by
  induction h with
  | nil => exact ⟨[], rfl, rfl, .nil⟩
  | @cons older c rest n methods k codes n' hmethods _ ih =>
    obtain ⟨sections, hlines, hnames, hrest⟩ := ih
    refine ⟨(c.name, methods) :: sections, ?_, ?_, ?_⟩
    · rw [List.flatten_cons, hlines]
      rfl
    · rw [List.map_cons, hnames, List.map_cons]
    · exact hmethods.chain.append hrest

end ClassDecl

namespace Program

/-- A representable program has a listing, whose blocks are code at sites that
    serve their methods. -/
theorem Elaborated.exists_coded {p : Program} {classes : Hierarchy} (h : p.Elaborated)
    (hr : p.Representable) (hclasses : ∀ derived base, p.known.Inherits derived base →
      classes.isSubclass derived base = true) :
    ∃ (t : Listing) (g : Generator), Generator.generate classes p {} = .ok t.lines g ∧
      t.Of p 0 g.nextLabel ∧ t.size = p.known.objectSize "Program" ∧
      Chain Routine.Coded (ClassDecl.allRoutines [] p.classes) 0 t.blocks g.nextLabel := by
  obtain ⟨codes, g, hgen, hcodes⟩ := Generator.generate_ok h hr hclasses
  obtain ⟨sections, hlines, hnames, hchain⟩ := hcodes.exists_sections
  refine ⟨⟨sections, p.known.objectSize "Program"⟩, g, ?_, ⟨hnames, ?_⟩, rfl, hchain⟩
  · rw [hgen, hlines]
    rfl
  · exact hchain.map id fun _ _ _ _ hcoded => hcoded.made

end Program

/-- A block stands in the lines of its listing. -/
theorem Listing.infix_lines {t : Listing} {code : List Line} (h : code ∈ t.blocks) :
    code <:+: t.lines := by
  obtain ⟨s, hs, hcode⟩ := List.mem_flatMap.mp h
  have hsection : code <:+: sectionLines s :=
    (List.infix_of_mem_flatten hcode).trans (List.suffix_cons _ _).isInfix
  have hsections : code <:+: t.sections.flatMap sectionLines := by
    rw [List.flatMap_def]
    exact hsection.trans (List.infix_of_mem_flatten (List.mem_map_of_mem hs))
  exact hsections.trans (List.infix_append _ _ _)

/-! ## Answers -/

namespace Machine

variable {M : Machine} {known : Known} {before : List Int} {calls calls' : Calls} {room room' : Nat}
  {owner method : String} {params : List Ty}

/-- A routine answers with more room too. -/
theorem Answers.mono (h : M.Answers known before calls room owner method params)
    (hle : room ≤ room') : M.Answers known before calls room' owner method params := by
  obtain ⟨start, hfind, hanswers⟩ := h
  refine ⟨start, hfind, ?_⟩
  intro σ self args d s v σ' ret hσ hself hargs hm hgiven hline hesp hret hcode hcall hd hheap
  exact hanswers σ self args d s v σ' ret hσ hself hargs hm hgiven hline hesp hret hcode hcall
    (hd.of_le (by omega) (by omega)) hheap

/-- A routine answers calls of the same meaning. -/
theorem Answers.congr (h : M.Answers known before calls room owner method params)
    (hcalls : ∀ self args, calls' owner method self args = calls owner method self args) :
    M.Answers known before calls' room owner method params := by
  obtain ⟨start, hfind, hanswers⟩ := h
  refine ⟨start, hfind, ?_⟩
  intro σ self args d s v σ' ret hσ hself hargs hm hgiven hline hesp hret hcode hcall
  rw [hcalls] at hcall
  exact hanswers σ self args d s v σ' ret hσ hself hargs hm hgiven hline hesp hret hcode hcall

end Machine

namespace Routine

/-- The room on the stack with which each of the methods gets along, calls
    included. -/
def room (rs : List Routine) : Nat := (rs.map (·.method.room)).sum

theorem room_cons (r : Routine) (earlier : List Routine) :
    room (r :: earlier) = r.method.room + room earlier := by simp [room]

theorem room_le_cons (r : Routine) (earlier : List Routine) : room earlier ≤ room (r :: earlier) := by
  rw [room_cons]
  omega

/-- The classes that a method sees are laid out as in the whole program. -/
structure Sized (known : Known) (r : Routine) : Prop where
  sizes : ∀ cls, r.view.known.Declares cls →
    known.objectSize cls = r.view.known.objectSize cls
  slots : ∀ cls, r.view.known.Declares cls → known.ownSlots cls = r.view.known.ownSlots cls

variable {M : Machine} {known : Known} {before : List Int}

section

variable (hM : M.WellPlaced) (hdist : M.Distinct) (hk : known.Regular)
  (hprint : ∃ i, M.find printRoutine = some i ∧ M.CodeAt i Machine.printCode)
  (hformat : M.text? printFormat = some "%d\\n")

include hM hdist hk hprint hformat

/-- What the code of the newest of linked methods relies on, if the earlier ones
    answer. -/
theorem stage {r : Routine} {earlier : List Routine} (hl : Linked (r :: earlier))
    (ht : ∀ r' ∈ r :: earlier, r'.Typed Note.Records known) (hs : r.Sized known) {site : Site}
    (hserves : site.Serves r.view r.method)
    (hanswers : ∀ r' ∈ earlier, M.Answers known before (calls earlier) (room earlier)
      r'.view.cls r'.method.name (r'.method.params.map (Ty.ofName ·.ty))) :
    M.Stage known before site r.view r.method (calls earlier) (room earlier) where
  placed := hM
  distinct := hdist
  regular := hk
  within := (ht r List.mem_cons_self).within
  serves := hserves
  sizes := hs.sizes
  slots := hs.slots
  sound := hl.callsSound hk fun r' hr' => ht r' (List.mem_cons_of_mem _ hr')
  answers := by
    intro cls method owner result params hres
    obtain ⟨r', hmem, rfl, rfl, rfl, rfl⟩ := hl.called hres
    exact hanswers r' hmem
  print := hprint
  format := hformat

/-- Of linked methods each answers: what it calls is older, and answers by
    induction. -/
theorem answers {rs : List Routine} (hl : Linked rs)
    (ht : ∀ r ∈ rs, r.Typed Note.Records known) (hs : ∀ r ∈ rs, r.Sized known)
    (hload : ∀ r ∈ rs, r.Loaded M) : ∀ r ∈ rs,
    M.Answers known before (calls rs) (room rs) r.view.cls r.method.name
      (r.method.params.map (Ty.ofName ·.ty)) := by
  induction rs with
  | nil => simp
  | cons r earlier ih =>
    have ih := ih hl.2.2 (fun r' hr' => ht r' (List.mem_cons_of_mem _ hr'))
      (fun r' hr' => hs r' (List.mem_cons_of_mem _ hr'))
      fun r' hr' => hload r' (List.mem_cons_of_mem _ hr')
    intro r' hr'
    rcases List.mem_cons.mp hr' with rfl | hr'
    · obtain ⟨n, code, n', start, ⟨site, hserves, hlower⟩, hfind, hat⟩ :=
        hload r' List.mem_cons_self
      have hr := ht r' List.mem_cons_self
      have S := stage hM hdist hk hprint hformat hl ht (hs r' List.mem_cons_self) hserves ih
      rw [room_cons]
      exact S.routine_answers hr.view hr.derives hlower hat hfind fun self args =>
        calls_self r' earlier self args
    · have holder := (ih r' hr').mono (room_le_cons r earlier)
      exact holder.congr fun self args => calls_of_ne earlier (hl.2.1 r' hr') self args

end

end Routine

namespace Program

variable {p : Program}

/-- The classes that a method of a program sees are laid out as in the whole
    program. -/
theorem Derives.sized_of_mem {mark : Mark} (h : p.Derives mark) {r : Routine}
    (hr : r ∈ p.routines) : r.Sized p.known := by
  obtain ⟨older, c, before, m, hat, rfl⟩ := exists_at_of_mem_routines hr
  refine ⟨?_, fun cls hd => h.ownSlots_at hat hd⟩
  intro cls hd
  rw [Known.objectSize, Known.objectSize, h.layout_at hat hd]

end Program

end ClassLang
